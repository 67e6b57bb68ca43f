import TurboJS.Objects.Shape
import Mathlib.Data.List.Perm.Basic

namespace TurboJS.Objects

/-! Reference counts. The holders of shapes are listed with their multiplicity, and a
reference that an operation has taken but not yet stored is one of them. -/

def Accounted (shapes : Nat → Option Shape) (holders : List Nat) : Prop :=
  ∀ a ∈ holders, ∃ sh, shapes a = some sh ∧ holders.count a ≤ sh.refCount

def Frozen (holders : List Nat) (shapes shapes' : Nat → Option Shape) : Prop :=
  ∀ a ∈ holders, ∀ sh, shapes a = some sh → ∃ sh', shapes' a = some sh' ∧ sh'.props = sh.props

variable {rt rt' : Runtime} {shapes shapes' shapes'' : Nat → Option Shape} {hs hs' : List Nat}
  {a a' a1 o atom : Nat} {flags : Fin 64} {sh sh' : Shape} {clone dest : Option Nat}

theorem Accounted.perm (h : Accounted shapes hs) (hp : hs.Perm hs') : Accounted shapes hs' := by
  intro a ha
  rw [← hp.count_eq]
  exact h a (hp.mem_iff.mpr ha)

theorem Frozen.refl : Frozen hs shapes shapes := by
  intro a _ sh hsh
  exact ⟨sh, hsh, rfl⟩

theorem Frozen.trans (h : Frozen hs shapes shapes') (h' : Frozen hs shapes' shapes'') :
    Frozen hs shapes shapes'' := by
  intro a ha sh hsh
  obtain ⟨sh1, hs1, hp1⟩ := h a ha sh hsh
  obtain ⟨sh2, hs2, hp2⟩ := h' a ha sh1 hs1
  exact ⟨sh2, hs2, hp2.trans hp1⟩

theorem Frozen.mono (h : Frozen hs shapes shapes') (hsub : ∀ a ∈ hs', a ∈ hs) :
    Frozen hs' shapes shapes' :=
  fun a ha => h a (hsub a ha)

theorem Accounted.sole (h : Accounted shapes (a :: hs)) (ha : shapes a = some sh)
    (hr : sh.refCount ≤ 1) : a ∉ hs := by
  obtain ⟨sh0, h0, hcount⟩ := h a (by simp)
  rw [ha] at h0
  cases h0
  rw [List.count_cons_self] at hcount
  intro hm
  have := List.count_pos_iff.mpr hm
  omega

theorem Accounted.update (h : Accounted shapes hs)
    (hr : ∀ b, b ≠ a → shapes' b = shapes b) (ha : shapes' a = some sh')
    (hcount : hs'.count a ≤ sh'.refCount)
    (hrest : ∀ b, b ≠ a → hs'.count b ≤ hs.count b) : Accounted shapes' hs' := by
  intro b hb
  by_cases hba : b = a
  · subst hba
    exact ⟨sh', ha, hcount⟩
  · have hpos : 0 < hs.count b :=
      Nat.lt_of_lt_of_le (List.count_pos_iff.mpr hb) (hrest b hba)
    obtain ⟨sh0, h0, hc0⟩ := h b (List.count_pos_iff.mp hpos)
    exact ⟨sh0, (hr b hba).trans h0, Nat.le_trans (hrest b hba) hc0⟩

theorem Accounted.drop (h : Accounted shapes (a :: hs)) (ha : a ∉ hs)
    (hr : ∀ b, b ≠ a → shapes' b = shapes b) : Accounted shapes' hs := by
  intro b hb
  have hba : b ≠ a := by
    rintro rfl
    exact ha hb
  obtain ⟨sh0, h0, hc0⟩ := h b (by simp [hb])
  rw [List.count_cons_of_ne (Ne.symm hba)] at hc0
  exact ⟨sh0, (hr b hba).trans h0, hc0⟩

theorem Frozen.of_not_mem (ha : a ∉ hs) (hr : ∀ b, b ≠ a → shapes' b = shapes b) :
    Frozen hs shapes shapes' := by
  intro b hb sh hsh
  have hba : b ≠ a := by
    rintro rfl
    exact ha hb
  exact ⟨sh, (hr b hba).trans hsh, rfl⟩

theorem Frozen.of_props (ha : shapes a = some sh) (hr : ∀ b, b ≠ a → shapes' b = shapes b)
    (ha' : shapes' a = some sh') (hp : sh'.props = sh.props) : Frozen hs shapes shapes' := by
  intro b _ sh0 hsh
  by_cases hba : b = a
  · subst hba
    rw [ha] at hsh
    cases hsh
    exact ⟨sh', ha', hp⟩
  · exact ⟨sh0, (hr b hba).trans hsh, rfl⟩

theorem Accounted.not_mem_of_free (h : Accounted shapes hs) (ha : shapes a = none) : a ∉ hs := by
  intro hm
  obtain ⟨sh, hsh, -⟩ := h a hm
  rw [ha] at hsh
  cases hsh

theorem Accounted.count_le (h : Accounted shapes hs) (ha : shapes a = some sh) :
    hs.count a ≤ sh.refCount := by
  by_cases hm : a ∈ hs
  · obtain ⟨sh0, h0, hc⟩ := h a hm
    rw [ha] at h0
    cases h0
    exact hc
  · rw [List.count_eq_zero_of_not_mem hm]
    exact Nat.zero_le _

theorem Accounted.dup (h : Accounted rt.shapes hs) (ha : rt.shapes a = some sh) :
    Accounted (jsDupShape rt a sh).shapes (a :: hs) ∧
      Frozen hs rt.shapes (jsDupShape rt a sh).shapes := by
  constructor
  · apply h.update (fun b hb => setShape_of_ne _ _ _ _ hb) (setShape_self _ _ _)
    · rw [List.count_cons_self]
      exact Nat.succ_le_succ (h.count_le ha)
    · intro b hb
      exact Nat.le_of_eq (List.count_cons_of_ne (Ne.symm hb))
  · exact Frozen.of_props ha (fun b hb => setShape_of_ne _ _ _ _ hb) (setShape_self _ _ _) rfl

theorem count_sole {a : Nat} {hs : List Nat} (h : a ∉ hs) : (a :: hs).count a = 1 := by
  rw [List.count_cons_self, List.count_eq_zero_of_not_mem h]

theorem Accounted.fresh (h : Accounted rt.shapes hs) (ha : rt.shapes a = none)
    (hr : sh.refCount = 1) :
    Accounted (rt.setShape a sh).shapes (a :: hs) ∧ Frozen hs rt.shapes (rt.setShape a sh).shapes := by
  have hm := h.not_mem_of_free ha
  constructor
  · apply h.update (fun b hb => setShape_of_ne _ _ _ _ hb) (setShape_self _ _ _)
    · exact Nat.le_of_eq ((count_sole hm).trans hr.symm)
    · intro b hb
      exact Nat.le_of_eq (List.count_cons_of_ne (Ne.symm hb))
  · exact Frozen.of_not_mem hm (fun b hb => setShape_of_ne _ _ _ _ hb)

theorem jsShapeHashUnlink_shapes {h : UInt32} (hr : jsShapeHashUnlink rt a h = some rt') :
    rt'.shapes = rt.shapes ∧ rt'.objects = rt.objects := by
  unfold jsShapeHashUnlink at hr
  simp only at hr
  split at hr
  · cases hr
    exact ⟨rfl, rfl⟩
  · cases hr

theorem unlinkIfHashed_shapes (hr : unlinkIfHashed rt a sh = some rt') :
    rt'.shapes = rt.shapes ∧ rt'.objects = rt.objects := by
  unfold unlinkIfHashed at hr
  split at hr
  · exact jsShapeHashUnlink_shapes hr
  · cases hr
    exact ⟨rfl, rfl⟩

theorem linkIfHashed_shapes : (linkIfHashed rt a sh).shapes = rt.shapes := by
  unfold linkIfHashed
  split
  · rfl
  · rfl

theorem linkIfHashed_objects : (linkIfHashed rt a sh).objects = rt.objects := by
  unfold linkIfHashed
  split
  · rfl
  · rfl

theorem Accounted.free (h : Accounted rt.shapes (a :: hs)) (hr : jsFreeShape rt a = some rt') :
    Accounted rt'.shapes hs ∧ Frozen hs rt.shapes rt'.shapes ∧ rt'.objects = rt.objects ∧
      ∀ b, b ≠ a → rt'.shapes b = rt.shapes b := by
  unfold jsFreeShape at hr
  obtain ⟨sh, ha, hfree⟩ := Option.bind_eq_some_iff.mp hr
  split at hfree
  · rename_i hone
    have hm := h.sole ha hone
    unfold jsFreeShape0 at hfree
    obtain ⟨rt1, h1, hdrop⟩ := Option.bind_eq_some_iff.mp hfree
    cases hdrop
    obtain ⟨hs1, ho1⟩ := unlinkIfHashed_shapes h1
    have hrest : ∀ b, b ≠ a → (rt1.dropShape a).shapes b = rt.shapes b := by
      intro b hb
      rw [dropShape_of_ne _ _ _ hb, hs1]
      rfl
    exact ⟨h.drop hm hrest, Frozen.of_not_mem hm hrest, ho1, hrest⟩
  · rename_i hmore
    cases hfree
    have hrest : ∀ b, b ≠ a → (rt.setShape a { sh with refCount := sh.refCount - 1 }).shapes b =
        rt.shapes b := fun b hb => setShape_of_ne _ _ _ _ hb
    refine ⟨?_, Frozen.of_props ha hrest (setShape_self _ _ _) rfl, rfl, hrest⟩
    have hcount := h.count_le ha
    rw [List.count_cons_self] at hcount
    apply h.update hrest (setShape_self _ _ _)
    · exact Nat.le_sub_one_of_lt hcount
    · intro b hb
      exact Nat.le_of_eq (List.count_cons_of_ne (Ne.symm hb)).symm

theorem Accounted.change (h : Accounted rt.shapes (a :: hs)) (sh' : Shape) (ha : rt.shapes a = some sh)
    (hr : sh.refCount = 1) (hr' : sh'.refCount = 1) :
    Accounted (rt.setShape a sh').shapes (a :: hs) ∧
      Frozen hs rt.shapes (rt.setShape a sh').shapes := by
  have hm := h.sole ha (Nat.le_of_eq hr)
  constructor
  · apply h.update (fun b hb => setShape_of_ne _ _ _ _ hb) (setShape_self _ _ _)
    · exact Nat.le_of_eq ((count_sole hm).trans hr'.symm)
    · intro b _
      exact Nat.le_refl _
  · exact Frozen.of_not_mem hm (fun b hb => setShape_of_ne _ _ _ _ hb)

theorem Accounted.move (h : Accounted rt.shapes (a :: hs)) (sh' : Shape) (ha : rt.shapes a = some sh)
    (hr : sh.refCount = 1) (hr' : sh'.refCount = 1) (hfree : rt.shapes a' = none) :
    Accounted ((rt.dropShape a).setShape a' sh').shapes (a' :: hs) ∧
      Frozen hs rt.shapes ((rt.dropShape a).setShape a' sh').shapes := by
  have hm := h.sole ha (Nat.le_of_eq hr)
  have hne : a' ≠ a := by
    rintro rfl
    rw [ha] at hfree
    cases hfree
  have hdrop : Accounted (rt.dropShape a).shapes hs :=
    h.drop hm (fun b hb => dropShape_of_ne _ _ _ hb)
  have hnone : (rt.dropShape a).shapes a' = none := by
    rw [dropShape_of_ne _ _ _ hne, hfree]
  obtain ⟨hacc, hfrozen⟩ := hdrop.fresh hnone hr'
  exact ⟨hacc, (Frozen.of_not_mem hm (fun b hb => dropShape_of_ne _ _ _ hb)).trans hfrozen⟩

theorem Accounted.grow (h : Accounted rt.shapes (a :: hs)) (ha : rt.shapes a = some sh)
    (hr : sh.refCount = 1) (hg : growShape rt a sh dest = some (rt', a')) :
    Accounted rt'.shapes (a' :: hs) ∧ Frozen hs rt.shapes rt'.shapes ∧
      rt'.objects = rt.objects ∧ ∃ sh', rt'.shapes a' = some sh' ∧ sh'.refCount = 1 := by
  unfold growShape at hg
  split at hg
  · unfold resizeProperties at hg
    cases dest with
    | none => cases hg
    | some d =>
      simp only at hg
      split at hg
      · split at hg
        · cases hg
          obtain ⟨hacc, hfrozen⟩ := h.change (sh.resized _) ha hr hr
          exact ⟨hacc, hfrozen, rfl, _, setShape_self _ _ _, hr⟩
        · cases hg
      · split at hg
        · rename_i hfree
          cases hg
          obtain ⟨hacc, hfrozen⟩ := h.move (sh.resized _) ha hr hr (Option.isNone_iff_eq_none.mp hfree)
          exact ⟨hacc, hfrozen, rfl, _, setShape_self _ _ _, hr⟩
        · cases hg
  · cases hg
    exact ⟨h, .refl, rfl, sh, ha, hr⟩

theorem Accounted.addShape {moved : Option Nat} (h : Accounted rt.shapes (a :: hs))
    (ha : rt.shapes a = some sh) (hr : sh.refCount = 1)
    (hadd : addShapeProperty rt a atom flags dest = some (rt', moved)) :
    Accounted rt'.shapes (moved.getD a :: hs) ∧ Frozen hs rt.shapes rt'.shapes ∧
      rt'.objects = rt.objects := by
  unfold addShapeProperty at hadd
  obtain ⟨sh0, h0, hlink⟩ := Option.bind_eq_some_iff.mp hadd
  rw [ha] at h0
  cases h0
  obtain ⟨rt1, h1, hgrow⟩ := Option.bind_eq_some_iff.mp hlink
  obtain ⟨hs1, ho1⟩ := unlinkIfHashed_shapes h1
  rw [← hs1] at h ha
  split at hgrow
  · cases hgrow
    rw [linkIfHashed_shapes, linkIfHashed_objects, hs1, ho1]
    rw [hs1] at h
    exact ⟨h, .refl, rfl⟩
  · rename_i rt2 a2 hg
    obtain ⟨hacc, hfrozen, ho2, sh', ha', hr'⟩ := h.grow ha hr hg
    rw [ha'] at hgrow
    cases hgrow
    rw [linkIfHashed_shapes, linkIfHashed_objects, setShape_objects, ho2, ho1]
    obtain ⟨hacc3, hfrozen3⟩ := hacc.change (sh'.append atom flags) ha' hr' hr'
    rw [hs1] at hfrozen
    exact ⟨hacc3, hfrozen.trans hfrozen3, rfl⟩

theorem shapeOf_eq_some : rt.shapeOf o = some a ↔ rt.objects[o]? = some (some a) := by
  unfold Runtime.shapeOf
  exact Option.join_eq_some_iff

theorem set_shapeOf (ho : rt.shapeOf o = some a) : rt.objects.set o (some a) = rt.objects := by
  obtain ⟨hlt, hget⟩ := List.getElem?_eq_some_iff.mp (shapeOf_eq_some.mp ho)
  rw [← hget, List.set_getElem_self]

theorem Accounted.weaken (h : Accounted shapes (a :: hs)) : Accounted shapes hs := by
  intro b hb
  obtain ⟨sh, hsh, hc⟩ := h b (by simp [hb])
  exact ⟨sh, hsh, Nat.le_trans List.count_le_count_cons hc⟩

theorem Accounted.takeShape (h : Accounted rt.shapes (a :: hs))
    (hr : takeShape rt o a a1 = some rt') :
    Accounted rt'.shapes (a1 :: hs) ∧ Frozen hs rt.shapes rt'.shapes ∧
      rt'.objects = rt.objects.set o (some a1) := by
  unfold Objects.takeShape at hr
  obtain ⟨sh1, hs1, hfree⟩ := Option.bind_eq_some_iff.mp hr
  obtain ⟨hdup, hfrozen⟩ := h.dup hs1
  have hswap : Accounted ((jsDupShape rt a1 sh1).setObject o (some a1)).shapes (a :: a1 :: hs) :=
    hdup.perm (.swap _ _ _)
  obtain ⟨hacc, hfrozen2, ho, -⟩ := hswap.free hfree
  refine ⟨hacc, ?_, ho⟩
  have hsub : ∀ b ∈ hs, b ∈ a1 :: hs := fun b hb => by simp [hb]
  have hsub' : ∀ b ∈ hs, b ∈ a :: hs := fun b hb => by simp [hb]
  exact (hfrozen.mono hsub').trans (hfrozen2.mono hsub)

theorem Accounted.leave {rt1 : Runtime} (h : Accounted rt.shapes (a :: hs))
    (ha : rt.shapes a = some sh) (hfree : rt.shapes a1 = none) (hr : sh'.refCount = 1)
    (h1 : rt1.shapes = (rt.setShape a1 sh').shapes) (hf : jsFreeShape rt1 a = some rt') :
    Accounted rt'.shapes (a1 :: hs) ∧ Frozen hs rt.shapes rt'.shapes ∧
      rt'.objects = rt1.objects ∧ rt'.shapes a1 = some sh' := by
  have hne : a1 ≠ a := by
    rintro rfl
    rw [ha] at hfree
    cases hfree
  obtain ⟨hnew, hfrozen⟩ := h.fresh hfree hr
  rw [← h1] at hnew hfrozen
  obtain ⟨hacc, hfrozen2, ho, hrest⟩ := (hnew.perm (.swap _ _ _)).free hf
  refine ⟨hacc, ?_, ho, ?_⟩
  · have hsub : ∀ b ∈ hs, b ∈ a1 :: hs := fun b hb => by simp [hb]
    have hsub' : ∀ b ∈ hs, b ∈ a :: hs := fun b hb => by simp [hb]
    exact (hfrozen.mono hsub').trans (hfrozen2.mono hsub)
  · rw [hrest a1 hne, h1, setShape_self]

theorem Accounted.takeHashedClone (h : Accounted rt.shapes (a :: hs))
    (ha : rt.shapes a = some sh) (hfree : rt.shapes a1 = none)
    (hr : takeHashedClone (rt.setShape a1 sh') o a sh a1 = some rt') :
    Accounted rt'.shapes (a1 :: hs) ∧ Frozen hs rt.shapes rt'.shapes ∧
      rt'.objects = rt.objects.set o (some a1) ∧
      rt'.shapes a1 = some { sh with refCount := 1 } := by
  unfold Objects.takeHashedClone at hr
  obtain ⟨rt1, h1, hset⟩ := Option.bind_eq_some_iff.mp hr
  cases hset
  have hshapes : (jsShapeHashLink ((rt.setShape a1 sh').setShape a1 { sh with refCount := 1 }) a1
      sh.hash).shapes = (rt.setShape a1 { sh with refCount := 1 }).shapes := by
    simp [jsShapeHashLink, Runtime.setChain, Runtime.setShape]
  obtain ⟨hacc, hfrozen, ho, hsh⟩ := h.leave ha hfree rfl hshapes h1
  refine ⟨hacc, hfrozen, ?_, hsh⟩
  change rt1.objects.set o (some a1) = _
  rw [ho]
  rfl

theorem Accounted.prepareUpdate (h : Accounted rt.shapes (a :: hs)) (ho : rt.shapeOf o = some a)
    (ha : rt.shapes a = some sh) (hsafe : sh.isHashed = false → sh.refCount = 1)
    (hr : jsShapePrepareUpdate rt o a sh clone = some (rt', some a1)) :
    Accounted rt'.shapes (a1 :: hs) ∧ Frozen hs rt.shapes rt'.shapes ∧
      rt'.objects = rt.objects.set o (some a1) ∧
      ∃ sh1, rt'.shapes a1 = some sh1 ∧ sh1.refCount = 1 := by
  have hsame := (set_shapeOf ho).symm
  unfold jsShapePrepareUpdate at hr
  split at hr
  · split at hr
    · split at hr
      · cases hr
      · rename_i rt1 a2 hclone
        obtain ⟨hfree, rfl⟩ := jsCloneShape_eq_some hclone
        obtain ⟨rt2, h2, hset⟩ := Option.bind_eq_some_iff.mp hr
        cases hset
        obtain ⟨hacc, hfrozen, ho2, hsh⟩ := h.leave ha hfree rfl rfl h2
        refine ⟨hacc, hfrozen, ?_, _, hsh, rfl⟩
        change rt2.objects.set o (some a1) = _
        rw [ho2]
        rfl
    · rename_i href
      obtain ⟨rt1, h1, hset⟩ := Option.bind_eq_some_iff.mp hr
      cases hset
      have hone : sh.refCount = 1 := not_not.mp href
      obtain ⟨hs1, ho1⟩ := jsShapeHashUnlink_shapes h1
      rw [← hs1] at h ha ⊢
      obtain ⟨hacc, hfrozen⟩ := h.change { sh with isHashed := false } ha hone hone
      exact ⟨hacc, hfrozen, ho1.trans hsame, _, setShape_self _ _ _, hone⟩
  · rename_i hh
    cases hr
    exact ⟨h, .refl, hsame, sh, ha, hsafe (by simpa using hh)⟩

theorem Accounted.delete {i : Nat} (h : Accounted rt.shapes (a :: hs))
    (ho : rt.shapeOf o = some a) (ha : rt.shapes a = some sh) (hr : sh.refCount = 1) :
    ∃ a', Accounted (deleteShapeProperty rt o a sh i dest).shapes (a' :: hs) ∧
      Frozen hs rt.shapes (deleteShapeProperty rt o a sh i dest).shapes ∧
      (deleteShapeProperty rt o a sh i dest).objects = rt.objects.set o (some a') := by
  have hsame := (set_shapeOf ho).symm
  obtain ⟨hacc, hfrozen⟩ := h.change (sh.deleteAt i) ha hr hr
  unfold deleteShapeProperty
  split
  · unfold compactProperties
    split
    · rename_i d
      split
      · rename_i hd
        have hfree := Option.isNone_iff_eq_none.mp hd.2
        obtain ⟨hacc2, hfrozen2⟩ :=
          hacc.move (sh.deleteAt i).compacted (setShape_self _ _ _) hr hr hfree
        exact ⟨d, hacc2, hfrozen.trans hfrozen2, rfl⟩
      · exact ⟨a, hacc, hfrozen, hsame⟩
    · exact ⟨a, hacc, hfrozen, hsame⟩
  · exact ⟨a, hacc, hfrozen, hsame⟩

def objectHolders (objects : List (Option Nat)) : List Nat := objects.flatMap Option.toList

theorem objectHolders_set (ho : rt.shapeOf o = some a) :
    ∃ rest, (objectHolders rt.objects).Perm (a :: rest) ∧
      ∀ x : Option Nat, (objectHolders (rt.objects.set o x)).Perm (x.toList ++ rest) := by
  obtain ⟨hlt, hget⟩ := List.getElem?_eq_some_iff.mp (shapeOf_eq_some.mp ho)
  refine ⟨objectHolders (rt.objects.eraseIdx o), ?_, ?_⟩
  · have hp := (List.getElem_cons_eraseIdx_perm hlt).symm.flatMap_right Option.toList
    rw [hget] at hp
    exact hp
  · intro x
    exact (List.set_perm_cons_eraseIdx hlt x).flatMap_right Option.toList

theorem shapeOf_set (ho : rt.shapeOf o = some a) (hobj : rt'.objects = rt.objects.set o (some a1)) :
    rt'.shapeOf o = some a1 := by
  obtain ⟨hlt, -⟩ := List.getElem?_eq_some_iff.mp (shapeOf_eq_some.mp ho)
  rw [shapeOf_eq_some, hobj, List.getElem?_set_self hlt]

/-- A step that changes no shape in place but one of a single owner: the code checks that for a
hashed shape and asserts it for an unhashed one that gets a property. A reference that is
released belongs to the one that releases it. -/
def ReferenceSafe (refs : List Nat) (rt : Runtime) : Op → Prop
  | .addProperty o _ _ _ _ =>
    ∀ a sh, rt.shapeOf o = some a → rt.shapes a = some sh → sh.isHashed = false →
      sh.refCount = 1
  | .deleteProperty o atom _ _ =>
    ∀ a sh i p, rt.shapeOf o = some a → rt.shapes a = some sh →
      findOwnProperty sh atom = some i → sh.props[i]? = some p → jsPropConfigurable p.flags →
      sh.isHashed = false → sh.refCount = 1
  | .updateFlags o atom flags _ =>
    ∀ a sh i p, rt.shapeOf o = some a → rt.shapes a = some sh →
      findOwnProperty sh atom = some i → sh.props[i]? = some p → flags ≠ p.flags →
      sh.isHashed = false → sh.refCount = 1
  | .release a =>
    ∀ sh, rt.shapes a = some sh → (objectHolders rt.objects ++ refs).count a < sh.refCount
  | _ => True

section

variable {refs : List Nat}

/-- What an operation on one object does: the object holds a shape afterwards, or none, in the
place of the one it held before, and no other holder sees a change. -/
def Trades (rt : Runtime) (o a : Nat) (rt' : Runtime) : Prop :=
  ∀ hs, Accounted rt.shapes (a :: hs) → ∃ x : Option Nat,
    Accounted rt'.shapes (x.toList ++ hs) ∧ Frozen hs rt.shapes rt'.shapes ∧
      rt'.objects = rt.objects.set o x

theorem Trades.refl (ho : rt.shapeOf o = some a) : Trades rt o a rt :=
  fun _ h => ⟨some a, h, .refl, (set_shapeOf ho).symm⟩

theorem Accounted.trade (h : Accounted rt.shapes (objectHolders rt.objects ++ refs))
    (ho : rt.shapeOf o = some a) (ht : Trades rt o a rt') :
    Accounted rt'.shapes (objectHolders rt'.objects ++ refs) ∧
      Frozen refs rt.shapes rt'.shapes := by
  obtain ⟨rest, hp, hset⟩ := objectHolders_set ho
  obtain ⟨x, hacc, hfrozen, hobj⟩ := ht (rest ++ refs) (h.perm (hp.append_right refs))
  constructor
  · rw [hobj]
    rw [← List.append_assoc] at hacc
    exact hacc.perm ((hset x).symm.append_right refs)
  · apply hfrozen.mono
    intro b hb
    exact List.mem_append_right rest hb

theorem inPlace_trades (ho : rt.shapeOf o = some a) (ha : rt.shapes a = some sh)
    (hr : sh.refCount = 1) (hadd : addPropertyInPlace rt o a atom flags dest = some rt') :
    Trades rt o a rt' := by
  intro hs h
  unfold addPropertyInPlace at hadd
  split at hadd
  · rename_i rt1 a1 h1
    cases hadd
    obtain ⟨hacc, hfrozen, hobj⟩ := h.addShape ha hr h1
    exact ⟨some a1, hacc, hfrozen, congrArg (·.set o (some a1)) hobj⟩
  · rename_i rt1 h1
    cases hadd
    obtain ⟨hacc, hfrozen, hobj⟩ := h.addShape ha hr h1
    exact ⟨some a, hacc, hfrozen, hobj.trans (set_shapeOf ho).symm⟩
  · cases hadd

theorem findHashedShapeProp_shapes {r : Option Nat}
    (hr : findHashedShapeProp rt a sh atom flags = (r, rt')) :
    rt'.shapes = rt.shapes ∧ rt'.objects = rt.objects := by
  have hwalk : ∀ r rt', walkHashChain rt a sh atom flags = (r, rt') →
      rt'.shapes = rt.shapes ∧ rt'.objects = rt.objects := by
    intro r rt' hw
    unfold walkHashChain at hw
    split at hw
    · cases hw
      exact ⟨rfl, rfl⟩
    · cases hw
      exact ⟨rfl, rfl⟩
  unfold findHashedShapeProp at hr
  split at hr
  · split at hr
    · cases hr
      exact ⟨rfl, rfl⟩
    · exact hwalk _ _ hr
  · exact hwalk _ _ hr

theorem addProperty_trades (ho : rt.shapeOf o = some a) (ha : rt.shapes a = some sh)
    (hsafe : sh.isHashed = false → sh.refCount = 1)
    (hr : addProperty rt o atom flags clone dest = some rt') : Trades rt o a rt' := by
  unfold addProperty at hr
  rw [ho] at hr
  obtain ⟨a0, ⟨⟩, hstep⟩ := Option.bind_eq_some_iff.mp hr
  rw [ha] at hstep
  obtain ⟨sh0, ⟨⟩, hadd⟩ := Option.bind_eq_some_iff.mp hstep
  split at hadd
  · rcases hfind : findHashedShapeProp rt a sh atom flags with ⟨r, rt1⟩
    obtain ⟨hs1, ho1⟩ := findHashedShapeProp_shapes hfind
    rw [hfind] at hadd
    have hof : rt1.shapeOf o = some a := by
      rw [shapeOf_eq_some, ho1]
      exact shapeOf_eq_some.mp ho
    rw [← hs1] at ha
    unfold Trades
    rw [← hs1, ← ho1]
    cases r with
    | some a1 =>
      intro hs h
      obtain ⟨hacc, hfrozen, hobj⟩ := h.takeShape hadd
      exact ⟨some a1, hacc, hfrozen, hobj⟩
    | none =>
      simp only at hadd
      split at hadd
      · split at hadd
        · cases hadd
          exact Trades.refl hof
        · rename_i rt2 a1 hclone
          obtain ⟨hfree, rfl⟩ := jsCloneShape_eq_some hclone
          obtain ⟨rt3, h3, hplace⟩ := Option.bind_eq_some_iff.mp hadd
          intro hs h
          obtain ⟨hacc, hfrozen, hobj, hsh⟩ := h.takeHashedClone ha hfree h3
          obtain ⟨x, hacc4, hfrozen4, hobj4⟩ :=
            inPlace_trades (shapeOf_set hof hobj) hsh rfl hplace hs hacc
          refine ⟨x, hacc4, hfrozen.trans hfrozen4, ?_⟩
          rw [hobj4, hobj, List.set_set]
      · rename_i href
        exact inPlace_trades hof ha (not_not.mp href) hadd
  · rename_i hh
    exact inPlace_trades ho ha (hsafe (by simpa using hh)) hadd

theorem prepareUpdate_failed_trades (ho : rt.shapeOf o = some a)
    (hr : jsShapePrepareUpdate rt o a sh clone = some (rt', none)) : Trades rt o a rt' := by
  unfold jsShapePrepareUpdate at hr
  split at hr
  · split at hr
    · split at hr
      · cases hr
        exact Trades.refl ho
      · obtain ⟨rt2, -, hset⟩ := Option.bind_eq_some_iff.mp hr
        cases hset
    · obtain ⟨rt1, -, hset⟩ := Option.bind_eq_some_iff.mp hr
      cases hset
  · cases hr

theorem deleteProperty_trades (ho : rt.shapeOf o = some a) (ha : rt.shapes a = some sh)
    (hsafe : ∀ i p, findOwnProperty sh atom = some i → sh.props[i]? = some p →
      jsPropConfigurable p.flags → sh.isHashed = false → sh.refCount = 1)
    (hr : deleteProperty rt o atom clone dest = some rt') : Trades rt o a rt' := by
  unfold deleteProperty at hr
  rw [ho] at hr
  obtain ⟨a0, ⟨⟩, hstep⟩ := Option.bind_eq_some_iff.mp hr
  rw [ha] at hstep
  obtain ⟨sh0, ⟨⟩, hdel⟩ := Option.bind_eq_some_iff.mp hstep
  split at hdel
  · cases hdel
    exact Trades.refl ho
  · rename_i i hi
    obtain ⟨p, hp, hdel1⟩ := Option.bind_eq_some_iff.mp hdel
    split at hdel1
    · rename_i hconf
      split at hdel1
      · cases hdel1
      · rename_i hprep
        cases hdel1
        exact prepareUpdate_failed_trades ho hprep
      · rename_i rt1 a1 hprep
        obtain ⟨sh2, hs2, hlast⟩ := Option.bind_eq_some_iff.mp hdel1
        cases hlast
        intro hs h
        obtain ⟨hacc, hfrozen, hobj, sh1, hs1, hone⟩ :=
          h.prepareUpdate ho ha (hsafe i p hi hp hconf) hprep
        rw [hs2] at hs1
        cases hs1
        obtain ⟨a2, hacc2, hfrozen2, hobj2⟩ := hacc.delete (shapeOf_set ho hobj) hs2 hone
        refine ⟨some a2, hacc2, hfrozen.trans hfrozen2, ?_⟩
        rw [hobj2, hobj, List.set_set]
    · cases hdel1
      exact Trades.refl ho

theorem updateFlags_trades (ho : rt.shapeOf o = some a) (ha : rt.shapes a = some sh)
    (hsafe : ∀ i p, findOwnProperty sh atom = some i → sh.props[i]? = some p →
      flags ≠ p.flags → sh.isHashed = false → sh.refCount = 1)
    (hr : jsUpdatePropertyFlags rt o atom flags clone = some rt') : Trades rt o a rt' := by
  unfold jsUpdatePropertyFlags at hr
  rw [ho] at hr
  obtain ⟨a0, ⟨⟩, hstep⟩ := Option.bind_eq_some_iff.mp hr
  rw [ha] at hstep
  obtain ⟨sh0, ⟨⟩, hupd⟩ := Option.bind_eq_some_iff.mp hstep
  split at hupd
  · cases hupd
    exact Trades.refl ho
  · rename_i i hi
    obtain ⟨p, hp, hupd1⟩ := Option.bind_eq_some_iff.mp hupd
    split at hupd1
    · rename_i hflags
      split at hupd1
      · cases hupd1
      · rename_i hprep
        cases hupd1
        exact prepareUpdate_failed_trades ho hprep
      · rename_i rt1 a1 hprep
        obtain ⟨sh2, hs2, hlast⟩ := Option.bind_eq_some_iff.mp hupd1
        cases hlast
        intro hs h
        obtain ⟨hacc, hfrozen, hobj, sh1, hs1, hone⟩ :=
          h.prepareUpdate ho ha (hsafe i p hi hp hflags) hprep
        rw [hs2] at hs1
        cases hs1
        obtain ⟨hacc2, hfrozen2⟩ := hacc.change (sh2.setFlagsAt i atom flags) hs2 hone hone
        exact ⟨some a1, hacc2, hfrozen.trans hfrozen2, hobj⟩
    · cases hupd1
      exact Trades.refl ho

theorem Accounted.addObject (h : Accounted shapes (a :: (objectHolders rt.objects ++ refs))) :
    Accounted shapes (objectHolders (rt.objects ++ [some a]) ++ refs) := by
  apply h.perm
  have hsplit : objectHolders (rt.objects ++ [some a]) = objectHolders rt.objects ++ [a] := by
    simp [objectHolders, List.flatMap_append]
  rw [hsplit, List.append_assoc]
  exact List.perm_middle.symm

theorem Accounted.newShape {proto : Option Nat} {grow : Bool} (h : Accounted rt.shapes hs)
    (hr : jsNewShape rt proto grow dest = some (rt', a)) :
    Accounted rt'.shapes (a :: hs) ∧ Frozen hs rt.shapes rt'.shapes ∧
      rt'.objects = rt.objects := by
  have hgrow : (growShapeHash rt grow).shapes = rt.shapes ∧
      (growShapeHash rt grow).objects = rt.objects := by
    unfold growShapeHash
    split
    · exact ⟨rfl, rfl⟩
    · exact ⟨rfl, rfl⟩
  unfold jsNewShape at hr
  simp only at hr
  split at hr
  · split at hr
    · rename_i b hfree
      cases hr
      have hnone := Option.isNone_iff_eq_none.mp hfree
      rw [← hgrow.1] at h ⊢
      have hone : (newShapeNohash proto (shapeInitialHash proto)).refCount = 1 := rfl
      obtain ⟨hacc, hfrozen⟩ := h.fresh hnone hone
      exact ⟨hacc, hfrozen, hgrow.2⟩
    · cases hr
  · cases hr

theorem Accounted.newObject {proto : Option Nat} {grow : Bool}
    (h : Accounted rt.shapes (objectHolders rt.objects ++ refs))
    (hr : jsNewObjectProto rt proto grow dest = some rt') :
    Accounted rt'.shapes (objectHolders rt'.objects ++ refs) ∧
      Frozen refs rt.shapes rt'.shapes := by
  have hsub : ∀ b ∈ refs, b ∈ objectHolders rt.objects ++ refs :=
    fun b hb => List.mem_append_right _ hb
  unfold jsNewObjectProto at hr
  split at hr
  · obtain ⟨sh, ha, hnew⟩ := Option.bind_eq_some_iff.mp hr
    cases hnew
    obtain ⟨hacc, hfrozen⟩ := h.dup ha
    exact ⟨hacc.addObject, hfrozen.mono hsub⟩
  · obtain ⟨⟨rt1, a⟩, h1, hnew⟩ := Option.bind_eq_some_iff.mp hr
    cases hnew
    obtain ⟨hacc, hfrozen, hobj⟩ := h.newShape h1
    rw [← hobj] at hacc
    exact ⟨hacc.addObject, hfrozen.mono hsub⟩

theorem Accounted.apply {op : Op} (h : Accounted rt.shapes (objectHolders rt.objects ++ refs))
    (hsafe : ReferenceSafe refs rt op) (hr : rt.apply op = some rt') :
    Accounted rt'.shapes (objectHolders rt'.objects ++ refs) ∧
      Frozen refs rt.shapes rt'.shapes := by
  have hsub : ∀ b ∈ refs, b ∈ objectHolders rt.objects ++ refs :=
    fun b hb => List.mem_append_right _ hb
  cases op with
  | newObject proto grow a => exact h.newObject hr
  | newObjectFromShape a =>
    obtain ⟨sh, ha, hnew⟩ := Option.bind_eq_some_iff.mp hr
    split at hnew
    · cases hnew
      obtain ⟨hacc, hfrozen⟩ := h.dup ha
      exact ⟨hacc.addObject, hfrozen.mono hsub⟩
    · cases hnew
  | addProperty o atom flags clone dest =>
    obtain ⟨a, ho, hstep⟩ := Option.bind_eq_some_iff.mp hr
    obtain ⟨sh, ha, -⟩ := Option.bind_eq_some_iff.mp hstep
    exact h.trade ho (addProperty_trades ho ha (hsafe a sh ho ha) hr)
  | deleteProperty o atom clone dest =>
    obtain ⟨a, ho, hstep⟩ := Option.bind_eq_some_iff.mp hr
    obtain ⟨sh, ha, -⟩ := Option.bind_eq_some_iff.mp hstep
    exact h.trade ho (deleteProperty_trades ho ha (fun i p => hsafe a sh i p ho ha) hr)
  | updateFlags o atom flags clone =>
    obtain ⟨a, ho, hstep⟩ := Option.bind_eq_some_iff.mp hr
    obtain ⟨sh, ha, -⟩ := Option.bind_eq_some_iff.mp hstep
    exact h.trade ho (updateFlags_trades ho ha (fun i p => hsafe a sh i p ho ha) hr)
  | retain a =>
    obtain ⟨sh, ha, hdup⟩ := Option.bind_eq_some_iff.mp hr
    cases hdup
    obtain ⟨hacc, hfrozen⟩ := h.dup ha
    exact ⟨hacc.weaken, hfrozen.mono hsub⟩
  | release a =>
    obtain ⟨sh, ha, -⟩ := Option.bind_eq_some_iff.mp hr
    have hextra : Accounted rt.shapes (a :: (objectHolders rt.objects ++ refs)) := by
      apply h.update (fun b _ => rfl) ha
      · rw [List.count_cons_self]
        exact hsafe sh ha
      · intro b hb
        exact Nat.le_of_eq (List.count_cons_of_ne (Ne.symm hb))
    obtain ⟨hacc, hfrozen, hobj, -⟩ := hextra.free hr
    rw [hobj]
    exact ⟨hacc, hfrozen.mono hsub⟩
  | freeObject o =>
    obtain ⟨a, ho, hfree⟩ := Option.bind_eq_some_iff.mp hr
    apply h.trade ho
    intro hs hacc
    have hgiven : Accounted (rt.setObject o none).shapes (a :: hs) := hacc
    obtain ⟨hacc1, hfrozen, hobj, -⟩ := hgiven.free hfree
    exact ⟨none, hacc1, hfrozen, hobj⟩

end

end TurboJS.Objects
