import TurboJS.Optimizing.Decisions

namespace TurboJS.Optimizing

open IR Foundation

/-! What one action of a pass does to the references of a graph. -/

structure Good (g : Graph) : Prop extends Accounted g where
  verified : ∀ i, i < g.valueCount → verifyValue g i (g.value i) = true

def Action.Fits (g : Graph) (i : Nat) : Action → Prop
  | .keep | .annotate _ => True
  | .takeOver j | .takeOverOnce j => (g.value i).opcode ≠ .elementStore ∧
    (Good g → i < g.valueCount → j < i ∧ (g.value j).removed = false)
  | .takeOverById j => (g.value i).opcode = .propertyLoad ∧ j < g.valueCount ∧
    (Good g → i < g.valueCount → (g.value j).removed = false)
  | .drop => (g.value i).removed = false ∧ (g.value i).opcode = .propertyStore
  | .merge l r => (g.value i).removed = false ∧ (g.value i).opcode = .propertyLoad ∧
    l < g.valueCount ∧ r < g.valueCount ∧
    (Good g → i < g.valueCount → (g.value l).removed = false ∧ (g.value r).removed = false)

def Action.SparesStored (g : Graph) (i : Nat) : Action → Prop
  | .takeOver _ | .takeOverOnce _ | .takeOverById _ => NotStored g i
  | _ => True

def Action.KeepsOrder (g : Graph) (i : Nat) : Action → Prop
  | .takeOverById l => l ≠ i ∧ ∀ k, k < g.valueCount → (g.value k).removed = false →
    (g.value k).opcode ≠ .phi → (g.value k).left = i ∨ (g.value k).right = i → l < k
  | _ => True

def Action.DropsUnused (g : Graph) (i : Nat) : Action → Prop
  | .drop => g.uses i = 0
  | _ => True

/-- The order of the operands of a value at index `i`. -/
def operandOk (g : Graph) (i : Nat) (v : Value) (x : Nat) : Prop :=
  if v.opcode = .phi then x < g.valueCount else x = noValue ∨ x < i

section

variable {g g' : Graph} {i j k x : Nat} {f : Value → Value} {v : Value} {a : Action}

theorem verifyValue_iff : verifyValue g i v = true ↔
    v.id = i ∧ v.block < g.blockCount ∧ operandOk g i v v.left ∧ operandOk g i v v.right ∧
    (v.opcode = .guardInt32 → v.hasDeoptEdge = true ∧ v.left ≠ noValue) := by
  unfold verifyValue operandOk
  by_cases hp : v.opcode = .phi
  · simp [hp, and_assoc]
  · by_cases hg : v.opcode = .guardInt32 <;> simp [hp, hg, and_assoc]

theorem Good.fields (h : Good g) (hi : i < g.valueCount) :
    (g.value i).id = i ∧ (g.value i).block < g.blockCount ∧
    operandOk g i (g.value i) (g.value i).left ∧ operandOk g i (g.value i) (g.value i).right ∧
    ((g.value i).opcode = .guardInt32 →
      (g.value i).hasDeoptEdge = true ∧ (g.value i).left ≠ noValue) :=
  verifyValue_iff.mp (h.verified i hi)

theorem verified_setValue (h : ∀ i, i < g.valueCount → verifyValue g i (g.value i) = true)
    (hf : i < g.valueCount → verifyValue g i (f (g.value i)) = true) :
    ∀ x, x < (g.setValue i f).valueCount →
      verifyValue (g.setValue i f) x ((g.setValue i f).value x) = true := by
  intro x hx
  rw [Graph.setValue_valueCount] at hx
  have hsame (v : Value) : verifyValue (g.setValue i f) x v = verifyValue g x v := by
    unfold verifyValue
    rw [Graph.setValue_valueCount]
    rfl
  rw [hsame, Graph.setValue_value]
  split
  · rename_i hix
    obtain ⟨rfl, -⟩ := hix
    exact hf hx
  · exact h x hx

theorem Good.retag (h : Good g) (hv : ∀ v, verifyValue g i (f v) = verifyValue g i v)
    (hid : ∀ v, (f v).id = v.id)
    (hrefs : ∀ v, references (f v) = references v) (hrem : ∀ v, (f v).removed = v.removed)
    (hcount : ∀ v, v.useCount ≤ (f v).useCount) : Good (g.setValue i f) where
  toAccounted := h.toAccounted.retag hid hrefs hrem hcount i
  verified := verified_setValue h.verified fun hi => (hv _).trans (h.verified i hi)

theorem Good.addUse (h : Good g) (i : Nat) : Good (g.setValue i addUse) :=
  h.retag (fun _ => rfl) (fun _ => rfl) (fun _ => rfl) (fun _ => rfl) fun _ => Nat.le_succ _

theorem operandOk_substitute (h : operandOk g k v x) (hj : j < g.valueCount)
    (hjk : v.opcode ≠ .phi → x = i → j < k) : operandOk g k v (if x = i then j else x) := by
  by_cases hx : x = i
  · rw [if_pos hx]
    unfold operandOk
    split
    · exact hj
    · rename_i hp
      exact .inr (hjk hp hx)
  · rw [if_neg hx]
    exact h

theorem Good.redirect (h : Good g) (hij : i ≠ j) (hi : i < g.valueCount) (hj : j < g.valueCount)
    (hjlive : (g.value j).removed = false) (hs : NotStored g i)
    (hord : ∀ k, k < g.valueCount → (g.value k).removed = false → (g.value k).opcode ≠ .phi →
      (g.value k).left = i ∨ (g.value k).right = i → j < k) : Good (redirect g i j) where
  toAccounted := h.toAccounted.redirect hij hi hjlive hs
  verified := by
    intro k hk
    rw [redirect_valueCount] at hk
    obtain ⟨hid, hblock, hl, hr, hguard⟩ := h.fields hk
    have hkeep : verifyValue g k (substitute i j (g.value k)) = true := by
      unfold substitute
      split
      · exact h.verified k hk
      · rename_i hlive
        rw [Bool.not_eq_true] at hlive
        refine verifyValue_iff.mpr ⟨hid, hblock, ?_, ?_, ?_⟩
        · exact operandOk_substitute hl hj fun hp hx => hord k hk hlive hp (.inl hx)
        · exact operandOk_substitute hr hj fun hp hx => hord k hk hlive hp (.inr hx)
        · intro hg
          obtain ⟨hedge, hne⟩ := hguard hg
          refine ⟨hedge, ?_⟩
          dsimp only
          split
          · have := h.bound
            omega
          · exact hne
    have hsame (v : Value) : verifyValue (Optimizing.redirect g i j) k v = verifyValue g k v := by
      simp only [verifyValue, redirect_valueCount]
      rfl
    rw [hsame, redirect_value hij hk]
    split
    · exact hkeep
    · split <;> exact hkeep

theorem Good.before_users (h : Good g) (hi : i < g.valueCount) (hji : j < i) (hk : k < g.valueCount)
    (hp : (g.value k).opcode ≠ .phi) (huse : (g.value k).left = i ∨ (g.value k).right = i) :
    j < k := by
  obtain ⟨-, -, hl, hr, -⟩ := h.fields hk
  have hb := h.bound
  unfold operandOk at hl hr
  rw [if_neg hp] at hl hr
  omega

theorem Good.takeOver (h : Good g) (hi : i < g.valueCount) (hji : j < i)
    (hjlive : (g.value j).removed = false) (hs : NotStored g i) :
    Good (Optimizing.redirect g i j) :=
  h.redirect (Nat.ne_of_gt hji) hi (hji.trans hi) hjlive hs
    fun _ hk _ hp huse => h.before_users hi hji hk hp huse

def uncounted (v : Value) : Value := { v with useCount := 0 }

theorem references_uncounted (v : Value) : references (uncounted v) = references v := rfl

theorem references_congr {v w : Value} (h : uncounted v = uncounted w) :
    references v = references w := by
  rw [← references_uncounted v, h, references_uncounted]

theorem uses_congr (hcount : g'.valueCount = g.valueCount)
    (h : ∀ x, x < g.valueCount → references (g'.value x) = references (g.value x)) :
    g'.uses x = g.uses x := by
  have hmaps : g'.values.map references = g.values.map references := by
    apply List.ext_getElem
    · rw [List.length_map, List.length_map]
      exact hcount
    · intro k hk hk'
      have hk : k < g'.values.length := by simpa using hk
      have hk' : k < g.values.length := by simpa using hk'
      have := h k hk'
      unfold Graph.value at this
      rw [List.getD_eq_getElem _ _ hk, List.getD_eq_getElem _ _ hk'] at this
      simpa using this
  have hsum (l : List Value) :
      usesIn references l x = ((l.map references).map (·.count x)).sum := by
    rw [List.map_map]
    rfl
  unfold Graph.uses
  rw [hsum, hsum, hmaps]

theorem verifyValue_congr {v w : Value} (h : uncounted v = uncounted w) :
    verifyValue g i v = verifyValue g i w := by
  have hu (v : Value) : verifyValue g i (uncounted v) = verifyValue g i v := rfl
  rw [← hu v, h, hu]

/-- Value `i` becomes `new`, and the counts are those of the result. -/
theorem Good.edit (h : Good g) (hi : i < g.valueCount) (new : Value)
    (hcount : g'.valueCount = g.valueCount) (hblocks : g'.blockCount = g.blockCount)
    (hvalue : ∀ x, x < g.valueCount →
      uncounted (g'.value x) = uncounted (if x = i then new else g.value x))
    (hcounts : ∀ x, x < g.valueCount → g.uses x + (references new).count x ≤
      (g'.value x).useCount + (references (g.value i)).count x)
    (hlive : ∀ x, x < g.valueCount → x ∈ references new → (g.value x).removed = false)
    (hself : new.removed = true → g.uses i = 0) (hverify : verifyValue g i new = true) :
    Good g' := by
  have huses (x : Nat) : g'.uses x + (references (g.value i)).count x =
      g.uses x + (references new).count x := by
    rw [← g.uses_setValue hi (fun _ => new) x]
    congr 1
    apply uses_congr (by rw [Graph.setValue_valueCount, hcount])
    intro k hk
    rw [Graph.setValue_valueCount] at hk
    rw [references_congr (hvalue k hk), Graph.setValue_value]
    by_cases hki : k = i
    · rw [if_pos hki, if_pos ⟨hki.symm, hk⟩]
    · rw [if_neg hki, if_neg fun hik => hki hik.1.symm]
  have hsame (k : Nat) (v : Value) : verifyValue g' k v = verifyValue g k v := by
    unfold verifyValue
    rw [hcount, hblocks]
  have hverified (k : Nat) (hk : k < g.valueCount) : verifyValue g k (g'.value k) = true := by
    rw [verifyValue_congr (hvalue k hk)]
    split
    · rename_i hki
      rw [hki]
      exact hverify
    · exact h.verified k hk
  refine { bound := ?_, ids := ?_, counted := ?_, unused := ?_, verified := ?_ }
  · rw [hcount]
    exact h.bound
  · intro x hx
    rw [hcount] at hx
    exact (verifyValue_iff.mp (hverified x hx)).1
  · intro x hx
    rw [hcount] at hx
    have := huses x
    have := hcounts x hx
    omega
  · intro x hx hrem
    rw [hcount] at hx
    have huse := huses x
    have hrem : (uncounted (g'.value x)).removed = true := hrem
    rw [hvalue x hx] at hrem
    by_cases hxi : x = i
    · subst hxi
      rw [if_pos rfl] at hrem
      rw [hself hrem, references_removed (v := new) hrem] at huse
      simp only [List.count_nil, Nat.add_zero] at huse
      omega
    · rw [if_neg hxi] at hrem
      have hold := h.unused x hx hrem
      have hnew : (references new).count x = 0 := by
        rw [List.count_eq_zero]
        intro hmem
        have := hlive x hx hmem
        have hrem : (g.value x).removed = true := hrem
        rw [this] at hrem
        cases hrem
      omega
  · intro x hx
    rw [hcount] at hx
    rw [hsame]
    exact hverified x hx

theorem uncounted_dropUse (g : Graph) (i x : Nat) :
    uncounted ((g.setValue i dropUse).value x) = uncounted (g.value x) :=
  Graph.setValue_field (g := g) (f := dropUse) uncounted (fun _ => rfl) i x

theorem uncounted_addUse (g : Graph) (i x : Nat) :
    uncounted ((g.setValue i addUse).value x) = uncounted (g.value x) :=
  Graph.setValue_field (g := g) (f := addUse) uncounted (fun _ => rfl) i x

theorem uncounted_setValue (hf : ∀ v, uncounted (f v) = uncounted (f (uncounted v)))
    (hcount : g'.valueCount = g.valueCount)
    (h : ∀ x, uncounted (g'.value x) = uncounted (g.value x)) (hx : x < g.valueCount) :
    uncounted ((g'.setValue i f).value x) =
      uncounted (if x = i then f (g.value i) else g.value x) := by
  rw [Graph.setValue_value]
  by_cases hxi : x = i
  · rw [if_pos ⟨hxi.symm, by rwa [hcount]⟩, if_pos hxi, hf, h, ← hf, hxi]
  · rw [if_neg fun hix => hxi hix.1.symm, if_neg hxi, h]

theorem dropIfValue_eq (g : Graph) (i : Nat) : dropIfValue g i = g.setValue i dropUse := by
  unfold dropIfValue
  split
  · rfl
  · rename_i hi
    exact (Graph.setValue_of_le (Nat.not_lt.mp hi)).symm

theorem count_references (h : v.removed = false) : (references v).count x =
    (if v.left = x then 1 else 0) + (if v.right = x then 1 else 0) +
      (if v.opcode = .elementStore ∧ v.metadata = x then 1 else 0) := by
  rw [references_live h, count_operands]

theorem useCount_setValue (i x : Nat) (hf : ∀ v, (f v).useCount = v.useCount) :
    ((g.setValue i f).value x).useCount = (g.value x).useCount :=
  Graph.setValue_field (f := f) Value.useCount hf i x

theorem Good.drop (h : Good g) (hi : i < g.valueCount) (hlive : (g.value i).removed = false)
    (hunused : g.uses i = 0) : Good (Action.perform i g .drop) := by
  unfold Action.perform
  dsimp only
  rw [dropIfValue_eq, dropIfValue_eq]
  refine h.edit hi (remove (g.value i)) (by simp) (by simp) ?_ ?_ ?_ ?_ ?_
  · intro x hx
    refine uncounted_setValue (fun _ => rfl) (by simp) ?_ hx
    intro y
    rw [uncounted_dropUse, uncounted_dropUse]
  · intro x hx
    have hcount := h.counted x hx
    rw [useCount_setValue (f := remove) i x (fun _ => rfl),
      Graph.useCount_dropUse _ (by simpa using hx), Graph.useCount_dropUse _ hx,
      count_references hlive, references_remove, List.count_nil]
    omega
  · simp
  · exact fun _ => hunused
  · exact h.verified i hi

theorem Good.merge {l r : Nat} (h : Good g) (hi : i < g.valueCount)
    (hfits : (Action.merge l r).Fits g i) : Good (Action.perform i g (.merge l r)) := by
  obtain ⟨hlive, hop, hl, hr, hoperands⟩ := hfits
  obtain ⟨hllive, hrlive⟩ := hoperands h hi
  obtain ⟨hid, hblock, -⟩ := h.fields hi
  have hdrop : (if (g.value i).left < g.valueCount then g.setValue (g.value i).left dropUse
      else g) = g.setValue (g.value i).left dropUse := dropIfValue_eq g _
  unfold Action.perform
  dsimp only
  rw [hdrop]
  set new : Value := { g.value i with
    propertyStateReceiver := (g.value i).left, opcode := .phi
    type := if (g.value l).type = (g.value r).type then (g.value l).type else .unknown
    left := l, right := r } with hnew
  have hrefs : references new = [l, r] := by
    rw [references_live (v := new) hlive]
    rfl
  refine h.edit hi new (by simp) (by simp) ?_ ?_ ?_ ?_ ?_
  · intro x hx
    refine uncounted_setValue (f := fun v => { v with
      propertyStateReceiver := v.left, opcode := .phi
      type := if (g.value l).type = (g.value r).type then (g.value l).type else .unknown
      left := l, right := r }) (fun _ => rfl) (by simp) ?_ hx
    intro y
    rw [uncounted_addUse, uncounted_addUse, uncounted_dropUse]
  · intro x hx
    have hcount := h.counted x hx
    rw [useCount_setValue, Graph.useCount_addUse _ (by simpa using hx),
      Graph.useCount_addUse _ (by simpa using hx), Graph.useCount_dropUse _ hx,
      count_references hlive, hrefs]
    · simp only [List.count_cons, List.count_nil, beq_iff_eq]
      omega
    · exact fun _ => rfl
  · intro x hx hmem
    rw [hrefs] at hmem
    simp only [List.mem_cons, List.not_mem_nil, or_false] at hmem
    rcases hmem with rfl | rfl
    · exact hllive
    · exact hrlive
  · intro hrem
    rw [show new.removed = (g.value i).removed from rfl, hlive] at hrem
    cases hrem
  · refine verifyValue_iff.mpr ⟨hid, hblock, ?_, ?_, fun hg => nomatch hg⟩
    · exact (if_pos rfl).mpr hl
    · exact (if_pos rfl).mpr hr

theorem Good.perform (h : Good g) (hi : i < g.valueCount) (hfits : a.Fits g i)
    (hspares : a.SparesStored g i) (hord : a.KeepsOrder g i) (hdrop : a.DropsUnused g i) :
    Good (a.perform i g) := by
  cases a with
  | keep => exact h
  | takeOver j =>
    obtain ⟨hji, hlive⟩ := hfits.2 h hi
    exact h.takeOver hi hji hlive hspares
  | takeOverOnce j =>
    obtain ⟨hji, hlive⟩ := hfits.2 h hi
    exact (h.takeOver hi hji hlive hspares).addUse j
  | takeOverById j =>
    obtain ⟨-, hj, hlive⟩ := hfits
    unfold Action.perform
    rw [h.ids i hi]
    exact h.redirect (Ne.symm hord.1) hi hj (hlive h hi) hspares hord.2
  | drop => exact h.drop hi hfits.1 hdrop
  | merge l r => exact h.merge hi hfits
  | annotate limit =>
    exact h.retag (fun _ => rfl) (fun _ => rfl) (fun _ => rfl) (fun _ => rfl) fun _ => Nat.le_refl _

end

end TurboJS.Optimizing
