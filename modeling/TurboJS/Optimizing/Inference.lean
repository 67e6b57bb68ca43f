import TurboJS.Optimizing.Evaluation
import Mathlib.Algebra.Order.BigOperators.Group.Finset
import Mathlib.Tactic.Linarith
import Mathlib.Tactic.Positivity

namespace TurboJS.Optimizing

open IR Foundation

/-! The rounds of type inference: when they end, and what the types then say about the words. -/

def rank : SSAType → Nat
  | .unknown => 3
  | .float64 => 2
  | .int64 => 1
  | .int32 | .boolean | .reference => 0

def visitedType (g : Graph) (v : Value) : SSAType :=
  if v.removed || inferredType g v = .unknown then v.type else inferredType g v

/-- The visit of value `i` leaves its type or narrows it. -/
def Narrows (i : Nat) (g : Graph) : Prop :=
  visitedType g (g.value i) = (g.value i).type ∨
    rank (visitedType g (g.value i)) < rank (g.value i).type

/-- One round of `TurboJS_SSAInferTypes`. -/
def inferRound (g : Graph) : Graph := forUp g.valueCount inferValue g

/-- The graph that the visit of value `i` in round `k` finds. -/
def beforeVisit (g : Graph) (k i : Nat) : Graph := forUp i inferValue (inferRound^[k] g)

def NarrowsAtLast (g : Graph) : Prop :=
  ∃ n, ∀ k i, n ≤ k → i < g.valueCount → Narrows i (beforeVisit g k i)

structure Retyped (g s : Graph) : Prop where
  count : s.valueCount = g.valueCount
  others : ∀ i, s.value i = { g.value i with type := (s.value i).type }

def SSAType.Has (t : SSAType) (w : Word) : Prop :=
  (t = .int32 → IsInt32 w.toInt) ∧ (t = .boolean → w = 0 ∨ w = 1)

def mayLeaveInt32 : SSAOpcode → Bool
  | .addI64 | .subI64 | .mulI64 | .shlI64 | .shrI64 => true
  | _ => false

/-- The condition on a step: the value that is executed keeps what the graph's own typing says of
it, and arithmetic on int32 numbers stays in their range. -/
def Place.Honest (c : Inputs) (g : Graph) (m : Place) : Prop :=
  m.executes g → ∀ w, effect c g m (g.value m.next) = some (.word w) →
    (g.value m.next).type.Has w ∧
    (mayLeaveInt32 (g.value m.next).opcode = true →
      ∀ l r, m.words (g.value m.next).left = some l → m.words (g.value m.next).right = some r →
        IsInt32 l.toInt → IsInt32 r.toInt → IsInt32 w.toInt)

/-- Every word that the evaluation gives a value is one of the value's type in `s`. -/
def TypesHold (c : Inputs) (g s : Graph) : Prop :=
  ∀ i w, Gives c g i w → (s.value i).type.Has w

section

variable {c : Inputs} {g s t : Graph} {i j k n fuel : Nat} {m : Place} {w : Word}

theorem ssaInferTypes_eq_untilFixed (fuel : Nat) (g : Graph) :
    ssaInferTypes fuel g = untilFixed inferRound fuel g := by
  induction fuel generalizing g with
  | zero => rfl
  | succ fuel ih =>
    rw [ssaInferTypes, untilFixed]
    exact if_congr Iff.rfl rfl (ih _)

theorem inferValue_value (i : Nat) (g : Graph) (j : Nat) :
    (inferValue i g).value j = if i = j ∧ j < g.valueCount
      then { g.value j with type := visitedType g (g.value j) } else g.value j := by
  have hkeep (h : visitedType g (g.value i) = (g.value i).type) :
      g.value j = if i = j ∧ j < g.valueCount
        then { g.value j with type := visitedType g (g.value j) } else g.value j := by
    split
    · rename_i hij
      rw [← hij.1, h]
    · rfl
  unfold inferValue
  dsimp only
  split
  · rename_i hsame
    apply hkeep
    unfold visitedType
    simp only [Bool.or_eq_true, decide_eq_true_eq] at hsame ⊢
    split
    · rfl
    · rename_i hnot
      exact hsame.resolve_left hnot
  · rename_i hmoves
    rw [Graph.setValue_value]
    split
    · rename_i hij
      obtain ⟨rfl, -⟩ := hij
      simp only [Bool.or_eq_true, decide_eq_true_eq, not_or] at hmoves
      unfold visitedType
      rw [if_neg (by simp [hmoves.1.1, hmoves.1.2])]
    · rfl

@[simp] theorem inferValue_valueCount (i : Nat) (g : Graph) :
    (inferValue i g).valueCount = g.valueCount := by
  unfold inferValue
  dsimp only
  split
  · rfl
  · exact Graph.setValue_valueCount _ _ _

theorem forUp_inferValue_valueCount (i : Nat) (g : Graph) :
    (forUp i inferValue g).valueCount = g.valueCount := by
  refine forUp_invariant (P := fun s : Graph => s.valueCount = g.valueCount) rfl ?_
  intro j s _ hs
  rw [inferValue_valueCount, hs]

theorem inferRound_valueCount (g : Graph) : (inferRound g).valueCount = g.valueCount :=
  forUp_inferValue_valueCount _ g

theorem rounds_valueCount (k : Nat) (g : Graph) : (inferRound^[k] g).valueCount = g.valueCount := by
  induction k with
  | zero => rfl
  | succ k ih => rw [Function.iterate_succ_apply', inferRound_valueCount, ih]

theorem inferValue_other (h : i ≠ j) : (inferValue i g).value j = g.value j := by
  rw [inferValue_value, if_neg]
  rintro ⟨hij, -⟩
  exact h hij

theorem forUp_inferValue_below (h : i < n) :
    (forUp n inferValue g).value i = (forUp (i + 1) inferValue g).value i := by
  induction n with
  | zero => omega
  | succ n ih =>
    rcases Nat.lt_succ_iff_lt_or_eq.mp h with hlt | rfl
    · rw [forUp_succ, inferValue_other (by omega), ih hlt]
    · rfl

theorem inferValue_eq_self (h : visitedType g (g.value i) = (g.value i).type) :
    inferValue i g = g := by
  unfold inferValue
  dsimp only
  unfold visitedType at h
  split
  · rfl
  · rename_i hmoves
    simp only [Bool.or_eq_true, decide_eq_true_eq, not_or] at hmoves
    rw [if_neg (by simp [hmoves.1.1, hmoves.1.2])] at h
    exact absurd h hmoves.2

theorem forUp_inferValue_of_fixed (h : inferRound g = g) (hi : i ≤ g.valueCount) :
    forUp i inferValue g = g := by
  induction i with
  | zero => rfl
  | succ i ih =>
    have hbefore := ih (by omega)
    have hvalue : (inferValue i g).value i = g.value i := by
      have hround : (forUp g.valueCount inferValue g).value i = g.value i := congrArg (·.value i) h
      rw [forUp_inferValue_below (by omega), forUp_succ, hbefore] at hround
      exact hround
    rw [forUp_succ, hbefore]
    apply inferValue_eq_self
    rw [inferValue_value, if_pos ⟨rfl, by omega⟩] at hvalue
    exact congrArg Value.type hvalue

def totalRank (g : Graph) : Nat := ∑ i ∈ Finset.range g.valueCount, rank (g.value i).type

theorem inferValue_totalRank (hi : i < g.valueCount) (h : Narrows i g) :
    inferValue i g = g ∨ totalRank (inferValue i g) < totalRank g := by
  rcases h with hsame | hless
  · exact .inl (inferValue_eq_self hsame)
  · right
    unfold totalRank
    rw [inferValue_valueCount]
    apply Finset.sum_lt_sum
    · intro j hj
      rw [inferValue_value]
      split
      · rename_i hij
        obtain ⟨rfl, -⟩ := hij
        exact hless.le
      · exact Nat.le_refl _
    · refine ⟨i, Finset.mem_range.mpr hi, ?_⟩
      rw [inferValue_value, if_pos ⟨rfl, hi⟩]
      exact hless

theorem inferRound_totalRank (h : ∀ i, i < g.valueCount → Narrows i (forUp i inferValue g)) :
    inferRound g = g ∨ totalRank (inferRound g) < totalRank g := by
  have hvisits (i : Nat) (hi : i ≤ g.valueCount) :
      forUp i inferValue g = g ∨ totalRank (forUp i inferValue g) < totalRank g := by
    induction i with
    | zero => exact .inl rfl
    | succ i ih =>
      have hstep := inferValue_totalRank (g := forUp i inferValue g)
        (by rw [forUp_inferValue_valueCount]; exact hi) (h i hi)
      rw [forUp_succ]
      rcases ih (by omega) with hsame | hless
      · rw [hsame] at hstep ⊢
        exact hstep
      · rcases hstep with hkeep | hlower
        · rw [hkeep]
          exact .inr hless
        · exact .inr (hlower.trans hless)
  exact hvisits g.valueCount (Nat.le_refl _)

theorem settles_iff_narrowsAtLast : Settles inferRound g ↔ NarrowsAtLast g := by
  constructor
  · intro h
    obtain ⟨n, hfix⟩ := settles_iff.mp h
    refine ⟨n, ?_⟩
    intro k i hk hi
    have hround : inferRound^[k] g = inferRound^[n] g := iterate_of_fixed hfix hk
    have hi' : i < (inferRound^[n] g).valueCount := by rw [rounds_valueCount]; exact hi
    have hvisit : inferValue i (inferRound^[n] g) = inferRound^[n] g := by
      have := forUp_inferValue_of_fixed hfix (i := i + 1) hi'
      rwa [forUp_succ, forUp_inferValue_of_fixed hfix hi'.le] at this
    unfold beforeVisit
    rw [hround, forUp_inferValue_of_fixed hfix hi'.le]
    left
    have hvalue := congrArg (fun s : Graph => (s.value i).type) hvisit
    rwa [inferValue_value, if_pos ⟨rfl, hi'⟩] at hvalue
  · rintro ⟨n, h⟩
    apply settles_of_measure totalRank n
    intro k hk
    apply inferRound_totalRank
    intro i hi
    rw [rounds_valueCount] at hi
    exact h k i hk hi

theorem Retyped.refl (g : Graph) : Retyped g g := ⟨rfl, fun _ => rfl⟩

theorem Retyped.inferValue (h : Retyped g s) (i : Nat) : Retyped g (inferValue i s) := by
  refine ⟨(inferValue_valueCount i s).trans h.count, ?_⟩
  intro j
  rw [inferValue_value]
  split
  · rw [h.others j]
  · exact h.others j

theorem isInt32_iff_signExtend : IsInt32 w.toInt ↔ (w.setWidth 32).signExtend 64 = w := by
  rw [← fitsInt32_iff, fitsInt32_signExtend, beq_iff_eq, eq_comm]

theorem isInt32_sshiftRight (h : IsInt32 w.toInt) (k : Nat) :
    IsInt32 (w.sshiftRight k).toInt := by
  obtain ⟨hlo, hhi⟩ := h
  have hpow : (0 : Int) < 2 ^ k := by positivity
  rw [BitVec.toInt_sshiftRight, Int.shiftRight_eq_div_pow]
  constructor
  · exact Int.le_ediv_of_mul_le (by exact_mod_cast hpow) (by push_cast; nlinarith)
  · apply Int.le_of_lt_add_one
    exact Int.ediv_lt_of_lt_mul (by exact_mod_cast hpow) (by push_cast; nlinarith)

theorem evalBinary_isInt32 {op : SSAOpcode} {l r : Word} (hop : mayLeaveInt32 op = false)
    (h : evalBinary op l r = some w) (hl : IsInt32 l.toInt) (hr : IsInt32 r.toInt) :
    IsInt32 w.toInt := by
  have hbool (b : Bool) : IsInt32 (ofBool b).toInt := by cases b <;> decide
  have hl' := isInt32_iff_signExtend.mp hl
  have hr' := isInt32_iff_signExtend.mp hr
  cases op <;> cases hop <;> cases h
  case sarI64 => exact isInt32_sshiftRight hl _
  case andI64 =>
    rw [isInt32_iff_signExtend, BitVec.setWidth_and, BitVec.signExtend_and, hl', hr']
  case orI64 =>
    rw [isInt32_iff_signExtend, BitVec.setWidth_or, BitVec.signExtend_or, hl', hr']
  case xorI64 =>
    rw [isInt32_iff_signExtend, BitVec.setWidth_xor, BitVec.signExtend_xor, hl', hr']
  all_goals exact hbool _

theorem mergeNumericType_int32 {l r : SSAType} (h : mergeNumericType l r = .int32) :
    l = .int32 ∧ r = .int32 := by
  cases l <;> cases r <;> first
    | exact ⟨rfl, rfl⟩
    | cases h

theorem mergeNumericType_ne_boolean (l r : SSAType) : mergeNumericType l r ≠ .boolean := by
  cases l <;> cases r <;> decide

def isArithmetic : SSAOpcode → Bool
  | .addI64 | .subI64 | .mulI64 | .andI64 | .orI64 | .xorI64 | .shlI64 | .sarI64 | .shrI64 => true
  | _ => false

theorem inferredType_arithmetic {v : Value} (h : isArithmetic v.opcode = true) :
    inferredType g v = if v.left < g.valueCount && v.right < g.valueCount
      then mergeNumericType (g.value v.left).type (g.value v.right).type else v.type := by
  unfold inferredType
  cases ho : v.opcode <;> first
    | rfl
    | (rw [ho] at h; cases h)

theorem ofBool_cases (b : Bool) : ofBool b = 0 ∨ ofBool b = 1 := by
  cases b
  · exact .inl rfl
  · exact .inr rfl

theorem merged_has {v : Value} {l r : SSAType} (hv : isBinary v.opcode = true)
    (heff : effect c g m v = some (.word w))
    (hl : ∀ x, m.words v.left = some x → l.Has x) (hr : ∀ x, m.words v.right = some x → r.Has x)
    (hstays : mayLeaveInt32 v.opcode = true → ∀ x y, m.words v.left = some x →
      m.words v.right = some y → IsInt32 x.toInt → IsInt32 y.toInt → IsInt32 w.toInt) :
    (mergeNumericType l r).Has w := by
  rw [effect_binary hv] at heff
  obtain ⟨x, hx, heff⟩ := Option.bind_eq_some_iff.mp heff
  obtain ⟨y, hy, heff⟩ := Option.bind_eq_some_iff.mp heff
  obtain ⟨z, hz, heff⟩ := Option.map_eq_some_iff.mp heff
  cases heff
  refine ⟨?_, fun h => absurd h (mergeNumericType_ne_boolean l r)⟩
  intro hmerge
  obtain ⟨hl', hr'⟩ := mergeNumericType_int32 hmerge
  have hx32 := (hl x hx).1 hl'
  have hy32 := (hr y hy).1 hr'
  cases hop : mayLeaveInt32 v.opcode with
  | true => exact hstays hop x y hx hy hx32 hy32
  | false => exact evalBinary_isInt32 hop hz hx32 hy32

theorem phi_has {l r : SSAType} (h : l.Has w ∨ r.Has w) :
    (if l = r then l else mergeNumericType l r).Has w := by
  split
  · rename_i hlr
    rcases h with h | h
    · exact h
    · exact hlr ▸ h
  · refine ⟨?_, fun h => absurd h (mergeNumericType_ne_boolean l r)⟩
    intro hmerge
    obtain ⟨hl, hr⟩ := mergeNumericType_int32 hmerge
    exact h.elim (·.1 hl) (·.1 hr)

theorem effect_phi {v : Value} (hv : v.opcode = .phi) (h : effect c g m v = some (.word w)) :
    ∃ x, (x = v.left ∨ x = v.right) ∧ (if c.inOrder then m.words else m.entry) x = some w := by
  unfold effect at h
  rw [hv] at h
  obtain ⟨x, hx, h⟩ := Option.bind_eq_some_iff.mp h
  obtain ⟨y, hy, h⟩ := Option.map_eq_some_iff.mp h
  cases h
  refine ⟨x, ?_, hy⟩
  unfold phiOperand at hx
  split at hx
  · exact .inl (Option.some.inj hx).symm
  · exact .inr (Option.some.inj hx).symm
  · cases hx

/-- What inference reads off a value holds of its words. -/
theorem inferredType_has (hr : Retyped g s) (hs : TypesHold c g s)
    (honest : ∀ n m, evaluate c g n = some (.running m) → m.Honest c g) (hg : Gives c g i w) :
    (inferredType s (s.value i)).Has w := by
  have hown := hs i w hg
  obtain ⟨n, m, hm, hexec, rfl, heff⟩ := hg
  obtain ⟨hwords, hentry⟩ := words_given hm
  obtain ⟨-, hstays⟩ := honest n m hm hexec w heff
  rw [hr.others m.next]
  set v : Value := g.value m.next with hv
  cases ho : v.opcode
  case phi =>
    obtain ⟨x, hx, hw⟩ := effect_phi ho heff
    have hhas : (s.value x).type.Has w := by
      apply hs x w
      split at hw
      · exact hwords x w hw
      · exact hentry x w hw
    simp only [inferredType, ho]
    split
    · apply phi_has
      rcases hx with rfl | rfl
      · exact .inl hhas
      · exact .inr hhas
    · exact hown
  case constantI64 =>
    simp only [effect, ho, Option.some.injEq, Effect.word.injEq] at heff
    subst heff
    simp only [inferredType, ho]
    split
    · rename_i hfits
      exact ⟨fun _ => fitsInt32_iff.mp hfits, by simp⟩
    · simp [SSAType.Has]
  case guardInt32 =>
    simp only [effect, ho] at heff
    obtain ⟨x, -, heff⟩ := Option.bind_eq_some_iff.mp heff
    split at heff
    · rename_i hfits
      cases heff
      simp only [inferredType, ho]
      exact ⟨fun _ => fitsInt32_iff.mp hfits, by simp⟩
    · cases heff
  case addI64 | subI64 | mulI64 | andI64 | orI64 | xorI64 | shlI64 | sarI64 | shrI64 =>
    rw [inferredType_arithmetic (by simp [ho, isArithmetic])]
    split
    · exact merged_has (by simp [ho, isBinary]) heff (fun x hx => hs _ x (hwords _ x hx))
        (fun x hx => hs _ x (hwords _ x hx)) hstays
    · exact hown
  case lessThanI64 | lessEqualI64 | greaterThanI64 | greaterEqualI64 | equalI64 =>
    rw [effect_binary (by simp [ho, isBinary])] at heff
    obtain ⟨x, -, heff⟩ := Option.bind_eq_some_iff.mp heff
    obtain ⟨y, -, heff⟩ := Option.bind_eq_some_iff.mp heff
    obtain ⟨z, hz, heff⟩ := Option.map_eq_some_iff.mp heff
    cases heff
    rw [ho] at hz
    cases hz
    simp only [inferredType, ho]
    exact ⟨by simp, fun _ => ofBool_cases _⟩
  case branchTrue | branchFalse =>
    simp [effect, ho] at heff
  case virtualObject | virtualFieldStore =>
    simp only [inferredType, ho]
    simp [SSAType.Has]
  all_goals
    simp only [inferredType, ho]
    exact hown

theorem TypesHold.inferValue (hs : TypesHold c g s) (hr : Retyped g s)
    (honest : ∀ n m, evaluate c g n = some (.running m) → m.Honest c g) (i : Nat) :
    TypesHold c g (inferValue i s) := by
  intro j w hg
  rw [inferValue_value]
  split
  · show (visitedType s (s.value j)).Has w
    unfold visitedType
    split
    · exact hs j w hg
    · exact inferredType_has hr hs honest hg
  · exact hs j w hg

theorem TypesHold.inferRound (hs : TypesHold c g s) (hr : Retyped g s)
    (honest : ∀ n m, evaluate c g n = some (.running m) → m.Honest c g) :
    TypesHold c g (inferRound s) ∧ Retyped g (inferRound s) := by
  refine forUp_invariant (P := fun t => TypesHold c g t ∧ Retyped g t) ⟨hs, hr⟩ ?_
  intro i t _ ht
  exact ⟨ht.1.inferValue ht.2 honest i, ht.2.inferValue i⟩

theorem TypesHold.ssaInferTypes (hs : TypesHold c g g)
    (honest : ∀ n m, evaluate c g n = some (.running m) → m.Honest c g)
    (h : ssaInferTypes fuel g = some t) : TypesHold c g t := by
  rw [ssaInferTypes_eq_untilFixed] at h
  have hboth := untilFixed_invariant (P := fun t => TypesHold c g t ∧ Retyped g t)
    ⟨hs, .refl g⟩ (fun s hs => hs.1.inferRound hs.2 honest) h
  exact hboth.1

end

def phiRing : Graph :=
  { values :=
      [{ opcode := .jump, id := 0, block := 0, immediate := 1 },
       { opcode := .phi, type := .int64, id := 1, block := 1, left := 2, right := 2,
         useCount := 2 },
       { opcode := .phi, type := .float64, id := 2, block := 1, left := 3, right := 3,
         useCount := 2 },
       { opcode := .phi, type := .int64, id := 3, block := 1, left := 1, right := 1,
         useCount := 2 },
       { opcode := .jump, id := 4, block := 1, immediate := 1 }]
    blocks :=
      [{ id := 0, valueCount := 1, successors := [1] },
       { id := 1, firstValue := 1, valueCount := 4, predecessors := [0, 1], successors := [1] }]
    entryBlock := 0 }

/-- `argument + 1`, with an argument that is an int32 number. -/
def incremented : Graph :=
  { values :=
      [{ opcode := .argument, type := .int32, id := 0, useCount := 1 },
       { opcode := .constantI64, type := .int64, id := 1, immediate := 1, useCount := 1 },
       { opcode := .addI64, type := .int64, id := 2, left := 0, right := 1, useCount := 1 },
       { opcode := .ret, id := 3, left := 2 }]
    blocks := [{ id := 0, valueCount := 4 }]
    entryBlock := 0 }

end TurboJS.Optimizing
