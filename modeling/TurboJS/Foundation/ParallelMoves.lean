import Mathlib.Data.Finite.Prod
import Mathlib.Order.WellFounded

namespace TurboJS.Foundation

/-! Moves that are to take effect at once, carried out one after another. -/

variable {ι L V : Type}

/-- A run that has carried out some moves. `want` are the values the destinations are to have,
`scratch` the locations whose contents nobody needs, `σ₀` the contents before the run. -/
structure Scheduled (dst : ι → L) (want : ι → V) (scratch : L → Prop) (σ₀ : L → V)
    (src : ι → L) (pending : ι → Prop) (σ : L → V) : Prop where
  waiting : ∀ i, pending i → σ (src i) = want i
  served : ∀ i, ¬ pending i → σ (dst i) = want i
  untouched : ∀ l, (∀ i, l ≠ dst i) → ¬ scratch l → σ l = σ₀ l

/-- Every destination that still waits is the source of another waiting move. -/
def Stuck (dst src : ι → L) (pending : ι → Prop) : Prop :=
  ∀ i, pending i → ∃ j, pending j ∧ j ≠ i ∧ src j = dst i

section Schedule

variable {dst src : ι → L} {want : ι → V} {scratch : L → Prop} {σ₀ σ σ' : L → V}
  {pending : ι → Prop}

theorem Scheduled.start (hself : ∀ i, ¬ pending i → src i = dst i) :
    Scheduled dst (fun i => σ₀ (src i)) scratch σ₀ src pending σ₀ :=
  ⟨fun _ _ => rfl, fun i hi => by rw [hself i hi], fun _ _ _ => rfl⟩

theorem Scheduled.finished (h : Scheduled dst want scratch σ₀ src pending σ)
    (hp : ∀ i, ¬ pending i) (i : ι) : σ (dst i) = want i :=
  h.served i (hp i)

theorem Scheduled.congr_source {src' : ι → L} (h : Scheduled dst want scratch σ₀ src pending σ)
    (he : ∀ i, pending i → src' i = src i) : Scheduled dst want scratch σ₀ src' pending σ where
  waiting := by
    intro i hi
    rw [he i hi]
    exact h.waiting i hi
  served := h.served
  untouched := h.untouched

theorem Scheduled.emit (clobbered : L → Prop) (h : Scheduled dst want scratch σ₀ src pending σ)
    (hinj : Function.Injective dst) {i : ι} (hi : pending i)
    (hfree : ∀ j, pending j → j ≠ i → src j ≠ dst i)
    (hclob : ∀ l, clobbered l → scratch l) (hsrc : ∀ j, pending j → ¬ clobbered (src j))
    (hdst : ∀ j, ¬ clobbered (dst j)) (hcopy : σ' (dst i) = σ (src i))
    (hframe : ∀ l, l ≠ dst i → ¬ clobbered l → σ' l = σ l) :
    Scheduled dst want scratch σ₀ src (fun j => pending j ∧ j ≠ i) σ' where
  waiting := by
    intro j hj
    rw [hframe _ (hfree j hj.1 hj.2) (hsrc j hj.1)]
    exact h.waiting j hj.1
  served := by
    intro j hj
    by_cases he : j = i
    · subst he
      rw [hcopy]
      exact h.waiting j hi
    · rw [hframe _ (fun hd => he (hinj hd)) (hdst j)]
      exact h.served j fun hp => hj ⟨hp, he⟩
  untouched := by
    intro l hl hs
    rw [hframe l (hl i) fun hc => hs (hclob l hc)]
    exact h.untouched l hl hs

theorem Scheduled.redirect [DecidableEq L] (clobbered : L → Prop) (old temp : L)
    (h : Scheduled dst want scratch σ₀ src pending σ) (htemp : scratch temp)
    (hdst : ∀ j, dst j ≠ temp) (hunread : ∀ j, pending j → src j ≠ temp)
    (hclob : ∀ l, clobbered l → scratch l) (hsrc : ∀ j, pending j → ¬ clobbered (src j))
    (hdst' : ∀ j, ¬ clobbered (dst j)) (hcopy : σ' temp = σ old)
    (hframe : ∀ l, l ≠ temp → ¬ clobbered l → σ' l = σ l) :
    Scheduled dst want scratch σ₀ (fun j => if src j = old then temp else src j) pending σ' where
  waiting := by
    intro j hj
    by_cases he : src j = old
    · rw [if_pos he, hcopy, ← he]
      exact h.waiting j hj
    · rw [if_neg he, hframe _ (hunread j hj) (hsrc j hj)]
      exact h.waiting j hj
  served := by
    intro j hj
    rw [hframe _ (hdst j) (hdst' j)]
    exact h.served j hj
  untouched := by
    intro l hl hs
    rw [hframe l (fun he => hs (he ▸ htemp)) fun hc => hs (hclob l hc)]
    exact h.untouched l hl hs

end Schedule

section Stuck

variable [Finite ι] {dst src : ι → L} {pending : ι → Prop}

theorem Stuck.permutes (h : Stuck dst src pending) (hinj : Function.Injective dst) :
    (∀ j, pending j → ∃ i, pending i ∧ dst i = src j) ∧
      ∀ i j, pending i → pending j → src i = src j → i = j := by
  choose! next hpending _ hnext using h
  have hmaps : ∀ i : {i // pending i}, pending (next i.1) := fun i => hpending i.1 i.2
  let f : {i // pending i} → {i // pending i} := fun i => ⟨next i.1, hmaps i⟩
  have hf : Function.Injective f := by
    intro i j he
    have he : next i.1 = next j.1 := congrArg Subtype.val he
    have hd : dst i.1 = dst j.1 := by rw [← hnext i.1 i.2, ← hnext j.1 j.2, he]
    exact Subtype.ext (hinj hd)
  have hsurj : Function.Surjective f := Finite.injective_iff_surjective.mp hf
  have hback : ∀ j, pending j → ∃ i, pending i ∧ next i = j := by
    intro j hj
    obtain ⟨i, hi⟩ := hsurj ⟨j, hj⟩
    exact ⟨i.1, i.2, congrArg Subtype.val hi⟩
  constructor
  · intro j hj
    obtain ⟨i, hi, rfl⟩ := hback j hj
    exact ⟨i, hi, (hnext i hi).symm⟩
  · intro i j hi hj he
    obtain ⟨i', hi', rfl⟩ := hback i hi
    obtain ⟨j', hj', rfl⟩ := hback j hj
    rw [hnext i' hi', hnext j' hj'] at he
    rw [hinj he]

theorem Stuck.moves (h : Stuck dst src pending) (hinj : Function.Injective dst) {i : ι}
    (hi : pending i) : src i ≠ dst i := by
  intro he
  obtain ⟨j, hj, hne, hs⟩ := h i hi
  exact hne ((h.permutes hinj).2 j i hj hi (hs.trans he.symm))

end Stuck

theorem injective_of_nodup_map {α : Type} {f : α → L} {l : List α} (h : (l.map f).Nodup) :
    Function.Injective fun i => f (l.get i) := by
  intro i j he
  have hget := @List.nodup_iff_injective_get.mp h (i.cast (by simp)) (j.cast (by simp))
    (by simpa using he)
  simpa [Fin.ext_iff] using hget

theorem countP_without {l : List ι} (hl : l.Nodup) {p q : ι → Bool} {i : ι} (hi : i ∈ l)
    (hp : p i = true) (hqi : q i = false) (hq : ∀ k, k ≠ i → q k = p k) :
    l.countP q + 1 = l.countP p := by
  induction l with
  | nil => cases hi
  | cons a l ih =>
    obtain ⟨ha, hl⟩ := List.nodup_cons.mp hl
    rcases List.mem_cons.mp hi with rfl | hi
    · rw [List.countP_cons_of_neg (by simp [hqi]), List.countP_cons_of_pos hp]
      have hsame : l.countP q = l.countP p := by
        apply List.countP_congr
        intro k hk
        rw [hq k fun he => ha (he ▸ hk)]
      rw [hsame]
    · have hne : a ≠ i := fun he => ha (he ▸ hi)
      simp only [List.countP_cons, hq a hne]
      have := ih hl hi
      omega

theorem exists_cycle [Finite ι] {R : L → L → Prop} (at_ : ι → L) {S : ι → Prop}
    (hnext : ∀ i, S i → ∃ j, S j ∧ R (at_ i) (at_ j)) {i : ι} (hi : S i) :
    ∃ l, Relation.TransGen R l l := by
  by_contra hno
  have hirrefl : ∀ l, ¬ Relation.TransGen R l l := fun l hl => hno ⟨l, hl⟩
  let lt : {i // S i} → {i // S i} → Prop := fun a b => Relation.TransGen R (at_ b.1) (at_ a.1)
  have : IsTrans {i // S i} lt := ⟨fun a b c hab hbc => hbc.trans hab⟩
  have : Std.Irrefl lt := ⟨fun a ha => hirrefl _ ha⟩
  have hwf : WellFounded lt := Finite.wellFounded_of_trans_of_irrefl lt
  obtain ⟨m, -, hmin⟩ := hwf.has_min Set.univ ⟨⟨i, hi⟩, trivial⟩
  obtain ⟨j, hj, hr⟩ := hnext m.1 m.2
  exact hmin ⟨j, hj⟩ trivial (.single hr)

end TurboJS.Foundation
