import TurboJS.Optimizing.Sound
import Mathlib.Data.List.GetD
import TurboJS.Foundation.Uses

namespace TurboJS.Optimizing

open IR Foundation

/-! What the values of a graph refer to, and the counts of it. -/

def operands (v : Value) : List Nat :=
  v.left :: v.right :: if v.opcode = .elementStore then [v.metadata] else []

def references (v : Value) : List Nat := if v.removed then [] else operands v

/-- How often the values of the graph refer to value `x`. -/
def Graph.uses (g : Graph) (x : Nat) : Nat := usesIn references g.values x

def CountsUses (g : Graph) : Prop := ∀ x, x < g.valueCount → (g.value x).useCount = g.uses x

def NoDangling (g : Graph) : Prop :=
  ∀ i x, i < g.valueCount → x ∈ references (g.value i) → x < g.valueCount →
    (g.value x).removed = false

structure Accounted (g : Graph) : Prop where
  bound : g.valueCount ≤ noValue
  ids : ∀ i, i < g.valueCount → (g.value i).id = i
  counted : ∀ x, x < g.valueCount → g.uses x ≤ (g.value x).useCount
  unused : ∀ x, x < g.valueCount → (g.value x).removed = true → g.uses x = 0

/-- Value `j` takes over the uses of value `i`, which is removed. -/
def redirect (g : Graph) (i j : Nat) : Graph := (replaceValueUses g i j).setValue i remove

/-- No live element store stores value `i`. -/
def NotStored (g : Graph) (i : Nat) : Prop :=
  ∀ k, k < g.valueCount → (g.value k).removed = false → (g.value k).opcode = .elementStore →
    (g.value k).metadata ≠ i

section

variable {g : Graph} {i j x : Nat} {f : Value → Value} {v : Value}

theorem Graph.value_mem (h : i < g.valueCount) : g.value i ∈ g.values := by
  unfold Graph.value Graph.valueCount at *
  rw [List.getD_eq_getElem _ _ h]
  exact List.getElem_mem h

theorem Graph.mem_values (h : v ∈ g.values) : ∃ i, i < g.valueCount ∧ g.value i = v := by
  obtain ⟨i, hi, rfl⟩ := List.getElem_of_mem h
  exact ⟨i, hi, List.getD_eq_getElem _ _ hi⟩

theorem Graph.uses_eq_zero :
    g.uses x = 0 ↔ ∀ i, i < g.valueCount → x ∉ references (g.value i) := by
  unfold Graph.uses
  rw [usesIn_eq_zero]
  constructor
  · intro h i hi
    exact h _ (Graph.value_mem hi)
  · intro h v hv
    obtain ⟨i, hi, rfl⟩ := Graph.mem_values hv
    exact h i hi

theorem noDangling_iff :
    NoDangling g ↔ ∀ x, x < g.valueCount → (g.value x).removed = true → g.uses x = 0 := by
  simp only [Graph.uses_eq_zero]
  constructor
  · intro h x hx hrem i hi hmem
    rw [h i x hi hmem hx] at hrem
    cases hrem
  · intro h i x hi hmem hx
    by_contra hrem
    exact h x hx (by simpa using hrem) i hi hmem

theorem Accounted.noDangling (h : Accounted g) : NoDangling g := noDangling_iff.mpr h.unused

theorem Accounted.of_counts (hb : g.valueCount ≤ noValue) (hv : ssaVerify g = true)
    (hc : CountsUses g) (hd : NoDangling g) : Accounted g where
  bound := hb
  ids := by
    intro i hi
    simp only [ssaVerify, verifyValue, Bool.and_eq_true, List.all_eq_true, List.mem_range,
      beq_iff_eq] at hv
    exact (hv.2 i hi).1.1.1
  counted := fun x hx => (hc x hx).ge
  unused := noDangling_iff.mp hd

theorem references_live (h : v.removed = false) : references v = operands v := by
  simp [references, h]

theorem references_removed (h : v.removed = true) : references v = [] := by
  simp [references, h]

theorem Accounted.operand_live (h : Accounted g) (hi : i < g.valueCount)
    (hlive : (g.value i).removed = false) (hx : x ∈ operands (g.value i))
    (hxc : x < g.valueCount) : (g.value x).removed = false :=
  h.noDangling i x hi (by rwa [references_live hlive]) hxc

theorem Graph.uses_setValue (g : Graph) (hi : i < g.valueCount) (f : Value → Value) (x : Nat) :
    (g.setValue i f).uses x + (references (g.value i)).count x =
      g.uses x + (references (f (g.value i))).count x :=
  usesIn_modify f default hi

theorem Graph.setValue_of_le (h : g.valueCount ≤ i) : g.setValue i f = g := by
  unfold Graph.setValue
  rw [List.modify_eq_self]
  exact h

theorem Graph.uses_setValue_same (h : references (f (g.value i)) = references (g.value i)) :
    (g.setValue i f).uses x = g.uses x := by
  rcases Nat.lt_or_ge i g.valueCount with hi | hi
  · have := g.uses_setValue hi f x
    rw [h] at this
    omega
  · rw [Graph.setValue_of_le hi]

@[simp] theorem references_addUse (v : Value) : references (addUse v) = references v := rfl
@[simp] theorem references_dropUse (v : Value) : references (dropUse v) = references v := rfl
@[simp] theorem references_remove (v : Value) : references (remove v) = [] := rfl

@[simp] theorem Graph.uses_dropUse : (g.setValue i dropUse).uses x = g.uses x :=
  Graph.uses_setValue_same (references_dropUse _)

@[simp] theorem Graph.uses_addUse : (g.setValue i addUse).uses x = g.uses x :=
  Graph.uses_setValue_same (references_addUse _)

theorem Graph.setValue_self (h : i < g.valueCount) : (g.setValue i f).value i = f (g.value i) := by
  rw [Graph.setValue_value, if_pos ⟨rfl, h⟩]

theorem Graph.setValue_other (h : i ≠ j) : (g.setValue i f).value j = g.value j := by
  rw [Graph.setValue_value, if_neg fun hij => h hij.1]

theorem Graph.setValue_field {α : Type*} (p : Value → α) (h : ∀ v, p (f v) = p v) (i x : Nat) :
    p ((g.setValue i f).value x) = p (g.value x) := by
  rw [Graph.setValue_value]
  split
  · exact h _
  · rfl

theorem Graph.useCount_dropUse (i : Nat) (hx : x < g.valueCount) :
    ((g.setValue i dropUse).value x).useCount =
      (g.value x).useCount - if i = x then 1 else 0 := by
  rw [Graph.setValue_value]
  by_cases h : i = x
  · rw [if_pos ⟨h, hx⟩, if_pos h]
    rfl
  · rw [if_neg fun hij => h hij.1, if_neg h]
    rfl

theorem Graph.useCount_addUse (i : Nat) (hx : x < g.valueCount) :
    ((g.setValue i addUse).value x).useCount =
      (g.value x).useCount + if i = x then 1 else 0 := by
  rw [Graph.setValue_value]
  by_cases h : i = x
  · rw [if_pos ⟨h, hx⟩, if_pos h]
    rfl
  · rw [if_neg fun hij => h hij.1, if_neg h]
    rfl

theorem Accounted.retag (h : Accounted g) (hid : ∀ v, (f v).id = v.id)
    (hrefs : ∀ v, references (f v) = references v) (hrem : ∀ v, (f v).removed = v.removed)
    (hcount : ∀ v, v.useCount ≤ (f v).useCount) (i : Nat) : Accounted (g.setValue i f) where
  bound := by rw [Graph.setValue_valueCount]; exact h.bound
  ids := by
    intro x hx
    rw [Graph.setValue_valueCount] at hx
    rw [Graph.setValue_field Value.id hid]
    exact h.ids x hx
  counted := by
    intro x hx
    rw [Graph.setValue_valueCount] at hx
    rw [Graph.uses_setValue_same (hrefs _), Graph.setValue_value]
    split
    · exact (h.counted x hx).trans (hcount _)
    · exact h.counted x hx
  unused := by
    intro x hx hr
    rw [Graph.setValue_valueCount] at hx
    rw [Graph.setValue_field Value.removed hrem] at hr
    rw [Graph.uses_setValue_same (hrefs _)]
    exact h.unused x hx hr

theorem substitute_fields (i j : Nat) (v : Value) :
    (substitute i j v).id = v.id ∧ (substitute i j v).removed = v.removed ∧
    (substitute i j v).opcode = v.opcode ∧ (substitute i j v).metadata = v.metadata ∧
    (substitute i j v).useCount = v.useCount := by
  unfold substitute
  split <;> exact ⟨rfl, rfl, rfl, rfl, rfl⟩

def movedUses (g : Graph) (i : Nat) : Nat := (g.values.map (usesOf i)).sum

theorem redirect_value (hij : i ≠ j) (hx : x < g.valueCount) :
    (redirect g i j).value x =
      if x = i then { substitute i j (g.value x) with useCount := 0, removed := true }
      else if x = j then
        { substitute i j (g.value x) with useCount := (g.value x).useCount + movedUses g i }
      else substitute i j (g.value x) := by
  have hsub := map_value g (substitute i j) hx
  have hcount : ({ g with values := g.values.map (substitute i j) } : Graph).valueCount =
      g.valueCount := by simp [Graph.valueCount]
  unfold redirect replaceValueUses
  dsimp only
  rw [Graph.setValue_value, Graph.setValue_value, Graph.setValue_value]
  simp only [Graph.setValue_valueCount, hcount, hx, and_true, hsub]
  by_cases hxi : x = i
  · subst hxi
    rw [if_pos rfl, if_pos rfl, if_neg (Ne.symm hij), if_pos rfl]
    rfl
  · rw [if_neg (Ne.symm hxi), if_neg (Ne.symm hxi), if_neg hxi]
    by_cases hxj : x = j
    · subst hxj
      rw [if_pos rfl, if_pos rfl, (substitute_fields i x (g.value x)).2.2.2.2]
      rfl
    · rw [if_neg (Ne.symm hxj), if_neg hxj]

@[simp] theorem redirect_valueCount (g : Graph) (i j : Nat) :
    (redirect g i j).valueCount = g.valueCount := by
  simp [redirect, replaceValueUses, Graph.valueCount, Graph.setValue]

theorem count_operands (v : Value) (x : Nat) :
    (operands v).count x = (if v.left = x then 1 else 0) + (if v.right = x then 1 else 0) +
      (if v.opcode = .elementStore ∧ v.metadata = x then 1 else 0) := by
  unfold operands
  by_cases he : v.opcode = .elementStore
  · simp [he, List.count_cons]
    omega
  · simp [he, List.count_cons]
    omega

theorem redirected_operand (i j a x : Nat) :
    (if (if a = i then j else a) = x then 1 else 0) ≤
      (if a = x then 1 else 0) + if x = j then (if a = i then 1 else 0) else 0 := by
  by_cases ha : a = i
  · by_cases hx : x = j
    · simp [ha, hx]
    · simp [ha, Ne.symm hx]
  · simp [ha]

theorem count_references_substitute (i j : Nat) (v : Value) (x : Nat) :
    (references (substitute i j v)).count x ≤
      (references v).count x + if x = j then usesOf i v else 0 := by
  obtain ⟨-, hrem, hop, hmeta, -⟩ := substitute_fields i j v
  unfold references
  rw [hrem]
  split
  · simp
  · rename_i hlive
    have hl : (substitute i j v).left = if v.left = i then j else v.left := by
      simp [substitute, hlive]
    have hr : (substitute i j v).right = if v.right = i then j else v.right := by
      simp [substitute, hlive]
    rw [count_operands, count_operands, hop, hmeta, hl, hr]
    have hleft := redirected_operand i j v.left x
    have hright := redirected_operand i j v.right x
    have hmoved : (if x = j then usesOf i v else 0) =
        (if x = j then (if v.left = i then 1 else 0) else 0) +
          if x = j then (if v.right = i then 1 else 0) else 0 := by
      by_cases hx : x = j <;> simp [usesOf, hlive, hx]
    rw [hmoved]
    omega

theorem redirect_uses_le (g : Graph) (i j x : Nat) :
    (redirect g i j).uses x ≤ g.uses x + if x = j then movedUses g i else 0 := by
  have hmap : ({ g with values := g.values.map (substitute i j) } : Graph).uses x ≤
      g.uses x + if x = j then movedUses g i else 0 := by
    have hle : usesIn references (g.values.map (substitute i j)) x ≤
        usesIn references g.values x +
          (g.values.map fun v => if x = j then usesOf i v else 0).sum :=
      usesIn_map_le _ _ fun v _ => count_references_substitute i j v x
    refine hle.trans (Nat.add_le_add_left ?_ _)
    by_cases hx : x = j <;> simp [hx, movedUses]
  refine Nat.le_trans ?_ hmap
  unfold redirect
  rcases Nat.lt_or_ge i g.valueCount with hi | hi
  · have hremove := (replaceValueUses g i j).uses_setValue (i := i)
      (by simpa [replaceValueUses, Graph.valueCount, Graph.setValue] using hi) remove x
    rw [references_remove, List.count_nil, Nat.add_zero] at hremove
    refine (Nat.le.intro hremove).trans ?_
    unfold replaceValueUses
    dsimp only
    rw [Graph.uses_setValue_same, Graph.uses_setValue_same] <;> rfl
  · rw [Graph.setValue_of_le
      (by simpa [replaceValueUses, Graph.valueCount, Graph.setValue] using hi)]
    unfold replaceValueUses
    dsimp only
    rw [Graph.uses_setValue_same, Graph.uses_setValue_same] <;> rfl

theorem redirect_uses_source (hij : i ≠ j) (hs : NotStored g i) : (redirect g i j).uses i = 0 := by
  rw [Graph.uses_eq_zero]
  intro k hk hmem
  rw [redirect_valueCount] at hk
  rw [redirect_value hij hk] at hmem
  have hsub : i ∉ references (substitute i j (g.value k)) := by
    obtain ⟨-, hrem, hop, hmeta, -⟩ := substitute_fields i j (g.value k)
    unfold references
    rw [hrem]
    split
    · simp
    · rename_i hlive
      have hoperand (a : Nat) : (if a = i then j else a) ≠ i := by
        split
        · exact Ne.symm hij
        · assumption
      have hl : (substitute i j (g.value k)).left ≠ i := by
        simpa [substitute, hlive] using hoperand (g.value k).left
      have hr : (substitute i j (g.value k)).right ≠ i := by
        simpa [substitute, hlive] using hoperand (g.value k).right
      unfold operands
      rw [hop, hmeta]
      have hm := hs k hk (by simpa using hlive)
      split
      · rename_i he
        simp [Ne.symm hl, Ne.symm hr, Ne.symm (hm he)]
      · simp [Ne.symm hl, Ne.symm hr]
  split at hmem
  · simp [references] at hmem
  · split at hmem
    · exact hsub hmem
    · exact hsub hmem

theorem Accounted.redirect (h : Accounted g) (hij : i ≠ j) (hi : i < g.valueCount)
    (hj : (g.value j).removed = false) (hs : NotStored g i) :
    Accounted (redirect g i j) where
  bound := by rw [redirect_valueCount]; exact h.bound
  ids := by
    intro x hx
    rw [redirect_valueCount] at hx
    rw [redirect_value hij hx]
    have hid : (substitute i j (g.value x)).id = x :=
      (substitute_fields i j _).1.trans (h.ids x hx)
    split
    · exact hid
    · split <;> exact hid
  counted := by
    intro x hx
    rw [redirect_valueCount] at hx
    have hle := redirect_uses_le g i j x
    have hcount := h.counted x hx
    rw [redirect_value hij hx]
    split
    · rename_i hxi
      rw [hxi, redirect_uses_source hij hs]
    · split
      · rename_i hxj
        rw [if_pos hxj] at hle
        exact hle.trans (Nat.add_le_add_right hcount _)
      · rename_i hxj
        rw [if_neg hxj] at hle
        rw [(substitute_fields i j _).2.2.2.2]
        exact hle.trans hcount
  unused := by
    intro x hx hr
    rw [redirect_valueCount] at hx
    rw [redirect_value hij hx] at hr
    have hle := redirect_uses_le g i j x
    by_cases hxi : x = i
    · subst hxi
      exact redirect_uses_source hij hs
    · rw [if_neg hxi] at hr
      by_cases hxj : x = j
      · subst hxj
        rw [if_pos rfl] at hr
        have hr : (substitute i x (g.value x)).removed = true := hr
        rw [(substitute_fields i x _).2.1, hj] at hr
        cases hr
      · rw [if_neg hxj, (substitute_fields i j _).2.1] at hr
        rw [if_neg hxj, h.unused x hx hr] at hle
        exact Nat.le_zero.mp hle

end

end TurboJS.Optimizing
