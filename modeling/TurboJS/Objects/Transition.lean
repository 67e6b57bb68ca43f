import TurboJS.Objects.Shape
import TurboJS.Foundation.Run
import Mathlib.Data.List.Nodup

namespace TurboJS.Objects
open Foundation

/-! The transition cache and the hash chains agree with the shapes, as long as no shape in the
cache is changed in place. -/

/-- The shape at `a1` is hashed and is `sh` with one more property. -/
def Extends (rt : Runtime) (sh : Shape) (atom : Nat) (flags : Fin 64) (a1 : Nat) : Prop :=
  ∃ sh1, rt.shapes a1 = some sh1 ∧ sh1.isHashed = true ∧ sh1.proto = sh.proto ∧
    sh1.props = sh.props ++ [⟨atom, flags⟩]

def ValidTransition (rt : Runtime) (t : Transition) : Prop :=
  ∃ sh, rt.shapes t.source = some sh ∧
    (sh.isHashed = true → Extends rt sh t.atom t.flags t.target)

structure Coherence (rt : Runtime) : Prop where
  chain : ∀ k a, a ∈ rt.shapeHash k →
    ∃ sh, rt.shapes a = some sh ∧ sh.isHashed = true ∧ rt.bucket sh.hash = k
  nodup : ∀ k, (rt.shapeHash k).Nodup
  cached : ∀ k t, rt.transitions k = some t → ValidTransition rt t

def IsSource (rt : Runtime) (a : Nat) : Prop := ∃ k t, rt.transitions k = some t ∧ t.source = a

def IsTarget (rt : Runtime) (a : Nat) : Prop :=
  ∃ k t sh, rt.transitions k = some t ∧ t.target = a ∧ rt.shapes t.source = some sh ∧
    sh.isHashed = true

def InCache (rt : Runtime) (a : Nat) : Prop := IsSource rt a ∨ IsTarget rt a

def Unlinked (rt : Runtime) (a : Nat) : Prop := ∀ k, a ∉ rt.shapeHash k

variable {rt rt' : Runtime} {a a' : Nat} {sh sh' : Shape}

theorem coherence_empty : Coherence Runtime.empty where
  chain := by simp [Runtime.empty]
  nodup := by simp [Runtime.empty]
  cached := by simp [Runtime.empty]

theorem Coherence.unlinked_of_unhashed (h : Coherence rt) (ha : rt.shapes a = some sh)
    (hu : sh.isHashed = false) : Unlinked rt a := by
  intro k hm
  obtain ⟨sh1, hs, hh, -⟩ := h.chain k a hm
  rw [ha] at hs
  cases hs
  rw [hu] at hh
  cases hh

theorem Coherence.unlinked_of_free (h : Coherence rt) (ha : rt.shapes a = none) :
    Unlinked rt a := by
  intro k hm
  obtain ⟨sh1, hs, -⟩ := h.chain k a hm
  rw [ha] at hs
  cases hs

theorem Coherence.not_isTarget_of (h : Coherence rt)
    (ha : ∀ sh, rt.shapes a = some sh → sh.isHashed = false) : ¬ IsTarget rt a := by
  rintro ⟨k, t, sh, ht, rfl, hsrc, hh⟩
  obtain ⟨sh0, hs, hext⟩ := h.cached k t ht
  rw [hsrc] at hs
  cases hs
  obtain ⟨sh1, hs1, hh1, -⟩ := hext hh
  rw [ha sh1 hs1] at hh1
  cases hh1

theorem Coherence.not_isTarget (h : Coherence rt) (ha : rt.shapes a = some sh)
    (hu : sh.isHashed = false) : ¬ IsTarget rt a := by
  apply h.not_isTarget_of
  intro sh0 h0
  rw [ha] at h0
  cases h0
  exact hu

theorem Coherence.not_inCache_of_free (h : Coherence rt) (ha : rt.shapes a = none) :
    ¬ InCache rt a := by
  rintro (⟨k, t, ht, rfl⟩ | ht)
  · obtain ⟨sh, hs, -⟩ := h.cached k t ht
    rw [ha] at hs
    cases hs
  · apply h.not_isTarget_of _ ht
    intro sh0 h0
    rw [ha] at h0
    cases h0

theorem Coherence.objects (h : Coherence rt) (l : List (Option Nat)) :
    Coherence { rt with objects := l } :=
  ⟨h.chain, h.nodup, h.cached⟩

theorem Coherence.setShape (h : Coherence rt) (hu : Unlinked rt a) (ht : ¬ IsTarget rt a)
    (hs : IsSource rt a → sh'.isHashed = false) : Coherence (rt.setShape a sh') where
  chain := by
    intro k b hb
    have hne : b ≠ a := by
      rintro rfl
      exact hu k hb
    obtain ⟨sh, hsh⟩ := h.chain k b hb
    exact ⟨sh, by rw [setShape_of_ne _ _ _ _ hne, hsh.1], hsh.2⟩
  nodup := h.nodup
  cached := by
    intro k t hk
    obtain ⟨sh, hsrc, hext⟩ := h.cached k t hk
    by_cases hsa : t.source = a
    · refine ⟨sh', by rw [hsa, setShape_self], ?_⟩
      intro hhash
      rw [hs ⟨k, t, hk, hsa⟩] at hhash
      cases hhash
    · refine ⟨sh, by rw [setShape_of_ne _ _ _ _ hsa, hsrc], ?_⟩
      intro hhash
      obtain ⟨sh1, htgt, hrest⟩ := hext hhash
      have hne : t.target ≠ a := fun he => ht ⟨k, t, sh, hk, he, hsrc, hhash⟩
      exact ⟨sh1, by rw [setShape_of_ne _ _ _ _ hne, htgt], hrest⟩

theorem Coherence.setShape_fresh (h : Coherence rt) (ha : rt.shapes a = none) :
    Coherence (rt.setShape a sh') := by
  have hc := h.not_inCache_of_free ha
  refine h.setShape (h.unlinked_of_free ha) (fun ht => hc (.inr ht)) ?_
  intro hs
  exact absurd (.inl hs) hc

def SameLayout (sh sh' : Shape) : Prop :=
  sh'.proto = sh.proto ∧ sh'.props = sh.props ∧ sh'.isHashed = sh.isHashed ∧ sh'.hash = sh.hash

theorem Coherence.setShape_same (h : Coherence rt) (ha : rt.shapes a = some sh)
    (hl : SameLayout sh sh') : Coherence (rt.setShape a sh') where
  chain := by
    intro k b hb
    obtain ⟨sh0, hsh, hh, hk⟩ := h.chain k b hb
    by_cases hba : b = a
    · subst hba
      rw [ha] at hsh
      cases hsh
      exact ⟨sh', setShape_self _ _ _, by rw [hl.2.2.1, hh],
        by rw [hl.2.2.2]; exact hk⟩
    · exact ⟨sh0, by rw [setShape_of_ne _ _ _ _ hba, hsh], hh, hk⟩
  nodup := h.nodup
  cached := by
    intro k t hk
    obtain ⟨sh0, hsrc, hext⟩ := h.cached k t hk
    -- Each end of the transition is the old shape or the new one with the same layout.
    have hend : ∀ b shb, rt.shapes b = some shb →
        ∃ shb', (rt.setShape a sh').shapes b = some shb' ∧ SameLayout shb shb' := by
      intro b shb hb
      by_cases hba : b = a
      · subst hba
        rw [ha] at hb
        cases hb
        exact ⟨sh', setShape_self _ _ _, hl⟩
      · exact ⟨shb, by rw [setShape_of_ne _ _ _ _ hba, hb],
          rfl, rfl, rfl, rfl⟩
    obtain ⟨s0, hs0, l0⟩ := hend _ _ hsrc
    refine ⟨s0, hs0, ?_⟩
    intro hhash
    rw [l0.2.2.1] at hhash
    obtain ⟨sh1, htgt, hh, hp, hprops⟩ := hext hhash
    obtain ⟨s1, hs1, l1⟩ := hend _ _ htgt
    exact ⟨s1, hs1, by rw [l1.2.2.1, hh], by rw [l1.1, l0.1, hp], by rw [l1.2.1, l0.2.1, hprops]⟩

theorem Coherence.dropShape (h : Coherence rt) (hu : Unlinked rt a) (hc : ¬ InCache rt a) :
    Coherence (rt.dropShape a) where
  chain := by
    intro k b hb
    have hne : b ≠ a := by
      rintro rfl
      exact hu k hb
    obtain ⟨sh, hsh⟩ := h.chain k b hb
    exact ⟨sh, by rw [dropShape_of_ne _ _ _ hne, hsh.1], hsh.2⟩
  nodup := h.nodup
  cached := by
    intro k t hk
    obtain ⟨sh, hsrc, hext⟩ := h.cached k t hk
    have hs : t.source ≠ a := fun he => hc (.inl ⟨k, t, hk, he⟩)
    refine ⟨sh, by rw [dropShape_of_ne _ _ _ hs, hsrc], ?_⟩
    intro hhash
    obtain ⟨sh1, htgt, hrest⟩ := hext hhash
    have ht : t.target ≠ a := fun he => hc (.inr ⟨k, t, sh, hk, he, hsrc, hhash⟩)
    exact ⟨sh1, by rw [dropShape_of_ne _ _ _ ht, htgt], hrest⟩

theorem Coherence.link (h : Coherence rt) (ha : rt.shapes a = some sh)
    (hh : sh.isHashed = true) (hu : Unlinked rt a) :
    Coherence (jsShapeHashLink rt a sh.hash) where
  chain := by
    intro k b hb
    change b ∈ Function.update rt.shapeHash _ _ k at hb
    by_cases hk : k = rt.bucket sh.hash
    · subst hk
      rw [Function.update_self] at hb
      rcases List.mem_cons.mp hb with rfl | hb
      · exact ⟨sh, ha, hh, rfl⟩
      · exact h.chain _ b hb
    · rw [Function.update_of_ne hk] at hb
      exact h.chain k b hb
  nodup := by
    intro k
    change (Function.update rt.shapeHash _ _ k).Nodup
    by_cases hk : k = rt.bucket sh.hash
    · subst hk
      rw [Function.update_self]
      exact List.nodup_cons.mpr ⟨hu _, h.nodup _⟩
    · rw [Function.update_of_ne hk]
      exact h.nodup k
  cached := h.cached

theorem Coherence.unlink (h : Coherence rt) (ha : rt.shapes a = some sh)
    (hr : jsShapeHashUnlink rt a sh.hash = some rt') :
    Coherence rt' ∧ Unlinked rt' a ∧ rt'.shapes = rt.shapes ∧
      rt'.transitions = rt.transitions ∧ rt'.objects = rt.objects := by
  unfold jsShapeHashUnlink at hr
  simp only at hr
  split at hr
  · simp only [Option.some.injEq] at hr
    subst hr
    have hsub : ∀ k b, b ∈ Function.update rt.shapeHash (rt.bucket sh.hash)
        ((rt.shapeHash (rt.bucket sh.hash)).erase a) k → b ∈ rt.shapeHash k := by
      intro k b hb
      by_cases hk : k = rt.bucket sh.hash
      · subst hk
        rw [Function.update_self] at hb
        exact List.mem_of_mem_erase hb
      · rwa [Function.update_of_ne hk] at hb
    refine ⟨⟨fun k b hb => h.chain k b (hsub k b hb), ?_, h.cached⟩, ?_, rfl, rfl, rfl⟩
    · intro k
      change (Function.update rt.shapeHash _ _ k).Nodup
      by_cases hk : k = rt.bucket sh.hash
      · subst hk
        rw [Function.update_self]
        exact (h.nodup _).erase a
      · rw [Function.update_of_ne hk]
        exact h.nodup k
    · intro k hb
      obtain ⟨sh1, hs, -, hk⟩ := h.chain k a (hsub k a hb)
      rw [ha] at hs
      cases hs
      change a ∈ Function.update rt.shapeHash _ _ k at hb
      rw [← hk, Function.update_self] at hb
      exact (h.nodup _).not_mem_erase hb
  · cases hr

theorem inCache_congr (hs : rt'.shapes = rt.shapes) (ht : rt'.transitions = rt.transitions) :
    InCache rt' a ↔ InCache rt a := by
  unfold InCache IsSource IsTarget
  rw [hs, ht]

theorem not_inCache_setShape (hc : ¬ InCache rt a) : ¬ InCache (rt.setShape a sh') a := by
  rintro (hs | ⟨k, t, sh, hk, he, hsrc, hh⟩)
  · exact hc (.inl hs)
  · have hne : t.source ≠ a := fun hsa => hc (.inl ⟨k, t, hk, hsa⟩)
    rw [setShape_of_ne _ _ _ _ hne] at hsrc
    exact hc (.inr ⟨k, t, sh, hk, he, hsrc, hh⟩)

theorem forgetTransitions_eq_some {k : Nat} {t : Transition} :
    (rt.forgetTransitions a).transitions k = some t ↔
      rt.transitions k = some t ∧ t.source ≠ a ∧ t.target ≠ a := by
  unfold Runtime.forgetTransitions
  simp only
  cases hk : rt.transitions k with
  | none => simp
  | some t0 =>
    simp only [Option.some.injEq]
    by_cases hc : t0.source = a ∨ t0.target = a
    · rw [if_pos hc]
      constructor
      · rintro ⟨⟩
      · rintro ⟨rfl, h1, h2⟩
        rcases hc with hc | hc
        · exact absurd hc h1
        · exact absurd hc h2
    · rw [if_neg hc]
      simp only [Option.some.injEq]
      constructor
      · rintro rfl
        exact ⟨rfl, fun h => hc (.inl h), fun h => hc (.inr h)⟩
      · rintro ⟨rfl, -⟩
        rfl

theorem Coherence.forget (h : Coherence rt) : Coherence (rt.forgetTransitions a) where
  chain := h.chain
  nodup := h.nodup
  cached := fun k t ht => h.cached k t (forgetTransitions_eq_some.mp ht).1

theorem not_inCache_forget : ¬ InCache (rt.forgetTransitions a) a := by
  rintro (⟨k, t, ht, hs⟩ | ⟨k, t, sh, ht, hs, -⟩)
  · exact (forgetTransitions_eq_some.mp ht).2.1 hs
  · exact (forgetTransitions_eq_some.mp ht).2.2 hs

theorem inCache_of_forget (hc : InCache (rt.forgetTransitions a) a') : InCache rt a' := by
  rcases hc with ⟨k, t, ht, hs⟩ | ⟨k, t, sh, ht, hrest⟩
  · exact .inl ⟨k, t, (forgetTransitions_eq_some.mp ht).1, hs⟩
  · exact .inr ⟨k, t, sh, (forgetTransitions_eq_some.mp ht).1, hrest⟩

theorem Coherence.detach (h : Coherence rt) (ha : rt.shapes a = some sh)
    (hr : unlinkIfHashed rt a sh = some rt') :
    Coherence rt' ∧ Unlinked rt' a ∧ rt'.shapes = rt.shapes ∧
      rt'.transitions = rt.transitions ∧ rt'.objects = rt.objects := by
  unfold unlinkIfHashed at hr
  cases hh : sh.isHashed with
  | true =>
    rw [hh, if_pos rfl] at hr
    exact h.unlink ha hr
  | false =>
    rw [hh, if_neg (by simp)] at hr
    cases hr
    exact ⟨h, h.unlinked_of_unhashed ha hh, rfl, rfl, rfl⟩

theorem Coherence.free (h : Coherence rt) (hr : jsFreeShape rt a = some rt') :
    Coherence rt' ∧ (∀ b, b ≠ a → rt'.shapes b = rt.shapes b) ∧ rt'.objects = rt.objects ∧
      ∀ b, b ≠ a → InCache rt' b → InCache rt b := by
  unfold jsFreeShape at hr
  obtain ⟨sh, ha, hr⟩ := Option.bind_eq_some_iff.mp hr
  split at hr
  · unfold jsFreeShape0 at hr
    obtain ⟨rt1, h1, h2⟩ := Option.bind_eq_some_iff.mp hr
    cases h2
    obtain ⟨hc1, hu, hs, ht, ho⟩ := (h.forget (a := a)).detach ha h1
    have hn : ¬ InCache rt1 a := by
      rw [inCache_congr hs ht]
      exact not_inCache_forget
    refine ⟨hc1.dropShape hu hn, ?_, ho, ?_⟩
    · intro b hb
      rw [dropShape_of_ne _ _ _ hb, hs]
      rfl
    · intro b hb hin
      apply inCache_of_forget (a := a)
      rw [← inCache_congr hs ht]
      rcases hin with hin | ⟨k, t, sh, hk, he, hsrc, hh⟩
      · exact .inl hin
      · have hne : t.source ≠ a := by
          intro hsa
          rw [hsa, dropShape_self] at hsrc
          cases hsrc
        rw [dropShape_of_ne _ _ _ hne] at hsrc
        exact .inr ⟨k, t, sh, hk, he, hsrc, hh⟩
  · cases hr
    refine ⟨h.setShape_same ha ⟨rfl, rfl, rfl, rfl⟩, ?_, rfl, ?_⟩
    · intro b hb
      exact setShape_of_ne _ _ _ _ hb
    · intro b hb hin
      rcases hin with hin | ⟨k, t, sh', hk, he, hsrc, hh⟩
      · exact .inl hin
      · by_cases hsa : t.source = a
        · rw [hsa, setShape_self] at hsrc
          cases hsrc
          exact .inr ⟨k, t, sh, hk, he, by rw [hsa, ha], hh⟩
        · rw [setShape_of_ne _ _ _ _ hsa] at hsrc
          exact .inr ⟨k, t, sh', hk, he, hsrc, hh⟩

def NoTransition (rt : Runtime) (a : Nat) (sh : Shape) (atom : Nat) (flags : Fin 64) : Prop :=
  (∀ t, rt.transitions (transitionIndex a atom flags) = some t → t.isFor a atom flags = false) ∧
  ∀ a1, a1 ∈ rt.shapeHash (rt.bucket (extendHash sh.hash atom flags)) →
    isExtension rt sh atom flags a1 = false

section

variable {atom : Nat} {flags : Fin 64} {r : Option Nat}

theorem Coherence.extends_of_isExtension (h : Coherence rt) {k a1 : Nat}
    (hm : a1 ∈ rt.shapeHash k) (he : isExtension rt sh atom flags a1 = true) :
    Extends rt sh atom flags a1 := by
  obtain ⟨sh1, hs, hh, -⟩ := h.chain k a1 hm
  simp only [isExtension, hs, decide_eq_true_eq] at he
  exact ⟨sh1, hs, hh, he.2⟩

theorem Coherence.setTransition {k : Nat} {t : Transition} (h : Coherence rt)
    (hv : ValidTransition rt t) : Coherence (rt.setTransition k t) where
  chain := h.chain
  nodup := h.nodup
  cached := by
    intro k' t' ht
    change Function.update rt.transitions k (some t) k' = some t' at ht
    by_cases hk : k' = k
    · subst hk
      rw [Function.update_self] at ht
      cases ht
      exact hv
    · rw [Function.update_of_ne hk] at ht
      exact h.cached k' t' ht

theorem Coherence.walk (h : Coherence rt) (ha : rt.shapes a = some sh)
    (hr : walkHashChain rt a sh atom flags = (r, rt')) :
    Coherence rt' ∧ rt'.shapes = rt.shapes ∧ rt'.objects = rt.objects ∧
      (∀ a1, r = some a1 → Extends rt sh atom flags a1) ∧
      (r = none → rt' = rt ∧
        ∀ a1, a1 ∈ rt.shapeHash (rt.bucket (extendHash sh.hash atom flags)) →
          isExtension rt sh atom flags a1 = false) := by
  unfold walkHashChain at hr
  split at hr
  · rename_i a1 hf
    have hx : Extends rt sh atom flags a1 :=
      h.extends_of_isExtension (List.mem_of_find?_eq_some hf) (List.find?_some hf)
    cases hr
    refine ⟨h.setTransition ⟨sh, ha, fun _ => hx⟩, rfl, rfl, ?_, ?_⟩
    · rintro a2 ⟨⟩
      exact hx
    · rintro ⟨⟩
  · rename_i hf
    cases hr
    refine ⟨h, rfl, rfl, ?_, ?_⟩
    · rintro a1 ⟨⟩
    · rintro -
      refine ⟨rfl, ?_⟩
      intro a1 hm
      simpa using List.find?_eq_none.mp hf a1 hm

theorem Coherence.find (h : Coherence rt) (ha : rt.shapes a = some sh)
    (hh : sh.isHashed = true) (hr : findHashedShapeProp rt a sh atom flags = (r, rt')) :
    Coherence rt' ∧ rt'.shapes = rt.shapes ∧ rt'.objects = rt.objects ∧
      (∀ a1, r = some a1 → Extends rt sh atom flags a1) ∧
      (r = none → rt' = rt ∧ NoTransition rt a sh atom flags) := by
  unfold findHashedShapeProp at hr
  split at hr
  · rename_i t ht
    split at hr
    · rename_i hfor
      simp only [Transition.isFor, decide_eq_true_eq] at hfor
      obtain ⟨hsrc, hatom, hflags⟩ := hfor
      cases hr
      refine ⟨h, rfl, rfl, ?_, ?_⟩
      · rintro a1 ⟨⟩
        obtain ⟨sh0, hs0, hext⟩ := h.cached _ t ht
        rw [hsrc, ha] at hs0
        cases hs0
        rw [← hatom, ← hflags]
        exact hext hh
      · rintro ⟨⟩
    · rename_i hfor
      obtain ⟨hc, hs, ho, hx, hn⟩ := h.walk ha hr
      refine ⟨hc, hs, ho, hx, ?_⟩
      intro hnone
      obtain ⟨he, hno⟩ := hn hnone
      refine ⟨he, ?_, hno⟩
      intro t' ht'
      rw [ht] at ht'
      cases ht'
      simpa using hfor
  · rename_i ht
    obtain ⟨hc, hs, ho, hx, hn⟩ := h.walk ha hr
    refine ⟨hc, hs, ho, hx, ?_⟩
    intro hnone
    obtain ⟨he, hno⟩ := hn hnone
    refine ⟨he, ?_, hno⟩
    intro t' ht'
    rw [ht] at ht'
    cases ht'

end

def TableOf (shapes : Nat → Option Shape) (bits : Nat) (table : Nat → List Nat) : Prop :=
  (∀ k b, b ∈ table k →
    ∃ sh, shapes b = some sh ∧ sh.isHashed = true ∧ getShapeHash sh.hash bits = k) ∧
  ∀ k, (table k).Nodup

theorem rehashChain_table {shapes : Nat → Option Shape} {bits : Nat} (l : List Nat)
    (hl : l.Nodup) (hlive : ∀ b ∈ l, ∃ sh, shapes b = some sh ∧ sh.isHashed = true)
    (table : Nat → List Nat) (ht : TableOf shapes bits table)
    (hd : ∀ k b, b ∈ table k → b ∉ l) :
    TableOf shapes bits (rehashChain shapes bits table l) := by
  induction l generalizing table with
  | nil => exact ht
  | cons a l ih =>
    obtain ⟨sh, hs, hh⟩ := hlive a (by simp)
    have hal : a ∉ l := (List.nodup_cons.mp hl).1
    have hat : ∀ k, a ∉ table k := fun k hm => hd k a hm (by simp)
    unfold rehashChain
    rw [List.foldl_cons]
    simp only [hs]
    apply ih (List.nodup_cons.mp hl).2 (fun b hb => hlive b (by simp [hb]))
    · constructor
      · intro k b hb
        by_cases hk : k = getShapeHash sh.hash bits
        · subst hk
          rw [Function.update_self] at hb
          rcases List.mem_cons.mp hb with rfl | hb
          · exact ⟨sh, hs, hh, rfl⟩
          · exact ht.1 _ b hb
        · rw [Function.update_of_ne hk] at hb
          exact ht.1 k b hb
      · intro k
        by_cases hk : k = getShapeHash sh.hash bits
        · subst hk
          rw [Function.update_self]
          exact List.nodup_cons.mpr ⟨hat _, ht.2 _⟩
        · rw [Function.update_of_ne hk]
          exact ht.2 k
    · intro k b hb hbl
      by_cases hk : k = getShapeHash sh.hash bits
      · subst hk
        rw [Function.update_self] at hb
        rcases List.mem_cons.mp hb with rfl | hb
        · exact hal hbl
        · exact hd _ b hb (by simp [hbl])
      · rw [Function.update_of_ne hk] at hb
        exact hd k b hb (by simp [hbl])

theorem Coherence.resize (h : Coherence rt) (bits : Nat) :
    Coherence (resizeShapeHash rt bits) := by
  have hnodup : ((List.range (2 ^ rt.shapeHashBits)).flatMap rt.shapeHash).Nodup := by
    rw [List.nodup_flatMap]
    refine ⟨fun k _ => h.nodup k, ?_⟩
    apply List.Pairwise.imp _ List.nodup_range
    intro k k' hne b hb hb'
    obtain ⟨sh, hs, -, hk⟩ := h.chain k b hb
    obtain ⟨sh', hs', -, hk'⟩ := h.chain k' b hb'
    rw [hs] at hs'
    cases hs'
    exact hne (hk.symm.trans hk')
  have hlive : ∀ b ∈ (List.range (2 ^ rt.shapeHashBits)).flatMap rt.shapeHash,
      ∃ sh, rt.shapes b = some sh ∧ sh.isHashed = true := by
    intro b hb
    obtain ⟨k, -, hk⟩ := List.mem_flatMap.mp hb
    obtain ⟨sh, hs, hh, -⟩ := h.chain k b hk
    exact ⟨sh, hs, hh⟩
  have htable : TableOf rt.shapes bits (resizeShapeHash rt bits).shapeHash := by
    apply rehashChain_table _ hnodup hlive
    · exact ⟨by simp, by simp⟩
    · simp
  exact ⟨htable.1, htable.2, h.cached⟩

end TurboJS.Objects
