import TurboJS.Leaf.Evaluate
import TurboJS.OSR.ClosedForm
import Mathlib.Algebra.BigOperators.Group.Finset.Basic
import Mathlib.Data.BitVec

namespace TurboJS.Leaf
open Bytecode Foundation Float64

/-! The affine range proof of a leaf, and the one-shot sum that rests on it. -/

/-! ## The analysis -/

structure AffineExpression (α : Type) where
  multiplier : α
  addend : α
  deriving DecidableEq, Repr

def exactLimit : ℤ := 9007199254740991

/-- The value at `x`. -/
def AffineExpression.at (v : AffineExpression Float64) (x : ℤ) : Float64 :=
  v.multiplier * (x : Float64) + v.addend

def AffineExpression.endsIn (first last minimum maximum : ℤ) (v : AffineExpression Float64) :
    Bool :=
  v.multiplier.isInteger && v.addend.isInteger && (v.at first).integerIn minimum maximum &&
    (v.at last).integerIn minimum maximum

def AffineExpression.safe (first last : ℤ) : AffineExpression Float64 → Bool :=
  endsIn first last (-exactLimit) exactLimit

/-- `turbojs_affine_expression_in_range`, for the range of an int32. -/
def AffineExpression.inInt32 (first last : ℤ) : AffineExpression Float64 → Bool :=
  endsIn first last int32Min int32Max

section

variable {α : Type} [Add α] [Sub α] [Mul α] [Neg α] [IntCast α] [DecidableEq α]

def keepIf (check : AffineExpression α → Bool) (v : AffineExpression α)
    (rest : List (AffineExpression α)) : Option (List (AffineExpression α)) :=
  if check v then some (v :: rest) else none

def rangeStep (argc : Nat) (fixed : α) (safe inInt32 : AffineExpression α → Bool)
    (i : Instruction) (stack : List (AffineExpression α)) :
    Option (List (AffineExpression α)) :=
  let zero : α := ((0 : ℤ) : α)
  match i.opcode, stack with
  | .arg, stack =>
    if stack.length ≥ 16 ∨ i.argument ≥ argc then none
    else if i.argument = 0 then some (⟨((1 : ℤ) : α), zero⟩ :: stack)
    else if i.argument = 1 ∧ argc = 2 then some (⟨zero, fixed⟩ :: stack)
    else none
  | .constant, stack =>
    if stack.length ≥ 16 ∨ |i.constant| > exactLimit then none
    else some (⟨zero, (i.constant : α)⟩ :: stack)
  | .add, right :: left :: rest =>
    keepIf safe ⟨left.multiplier + right.multiplier, left.addend + right.addend⟩ rest
  | .sub, right :: left :: rest =>
    keepIf safe ⟨left.multiplier - right.multiplier, left.addend - right.addend⟩ rest
  | .mul, right :: left :: rest =>
    if left.multiplier ≠ zero ∧ right.multiplier ≠ zero then none
    else if right.multiplier = zero then
      keepIf safe ⟨left.multiplier * right.addend, left.addend * right.addend⟩ rest
    else keepIf safe ⟨right.multiplier * left.addend, right.addend * left.addend⟩ rest
  | .neg, value :: rest => keepIf safe ⟨-value.multiplier, -value.addend⟩ rest
  | .or, right :: left :: rest =>
    if right.multiplier = zero ∧ right.addend = zero then keepIf inInt32 left rest
    else if left.multiplier = zero ∧ left.addend = zero then keepIf inInt32 right rest
    else none
  | _, _ => none

def rangeRun (argc : Nat) (fixed : α) (safe inInt32 : AffineExpression α → Bool) :
    List Instruction → List (AffineExpression α) → Option (List (AffineExpression α))
  | [], stack => some stack
  | i :: is, stack =>
    (rangeStep argc fixed safe inInt32 i stack).bind (rangeRun argc fixed safe inInt32 is)

end

/-- `(int64_t)value`, where it is defined. -/
def toInt64 : Float64 → Option ℤ
  | .finite q =>
    if -2 ^ 63 ≤ truncate q ∧ truncate q < 2 ^ 63 then some (truncate q) else none
  | _ => none

/-- `turbojs_tiny_leaf_affine_for_range`: the slope and the intercept. -/
def affineForRange (plan : Plan) (argc : Nat) (fixed : Float64) (first last : ℤ) :
    Option (ℤ × ℤ) :=
  if argc < 1 ∨ argc > 2 ∨ first < 0 ∨ last < first ∨
      ¬ fixed.integerIn (-exactLimit) exactLimit then none
  else
    match rangeRun argc fixed (AffineExpression.safe first last)
        (AffineExpression.inInt32 first last) plan.instructions [] with
    | some [v] =>
      if v.inInt32 first last then do
        let slope ← toInt64 v.multiplier
        let intercept ← toInt64 v.addend
        some (slope, intercept)
      else none
    | _ => none

/-- `delta` in the leaf-call loop. -/
def leafDelta (slope intercept i limit : ℤ) : BitVec 32 :=
  toBits slope * toBits (OSR.seriesSum i limit) + toBits intercept * toBits (limit - i)

namespace AffineExpression

def cast (v : AffineExpression ℤ) : AffineExpression Float64 := ⟨v.multiplier, v.addend⟩

/-- The exact value at `x`. -/
def value (v : AffineExpression ℤ) (x : ℤ) : ℤ := v.multiplier * x + v.addend

def Exact (first last : ℤ) (v : AffineExpression ℤ) : Prop :=
  Float64.Exact v.multiplier ∧ Float64.Exact v.addend ∧
    Float64.Exact (v.multiplier * first) ∧ Float64.Exact (v.value first) ∧
    Float64.Exact (v.multiplier * last) ∧ Float64.Exact (v.value last)

instance (first last : ℤ) (v : AffineExpression ℤ) : Decidable (v.Exact first last) :=
  inferInstanceAs (Decidable (_ ∧ _))

def Bounded (first last minimum maximum : ℤ) (v : AffineExpression ℤ) : Prop :=
  (minimum ≤ v.value first ∧ v.value first ≤ maximum) ∧
    minimum ≤ v.value last ∧ v.value last ≤ maximum

variable {first last minimum maximum x : ℤ} {v : AffineExpression ℤ}

theorem Bounded.inside (h : v.Bounded first last minimum maximum) (hf : first ≤ x)
    (hl : x ≤ last) : minimum ≤ v.value x ∧ v.value x ≤ maximum := by
  obtain ⟨⟨h1, h2⟩, h3, h4⟩ := h
  unfold value at *
  rcases le_total 0 v.multiplier with hm | hm
  · have hlo := mul_le_mul_of_nonneg_left hf hm
    have hhi := mul_le_mul_of_nonneg_left hl hm
    omega
  · have hlo := mul_le_mul_of_nonpos_left hl hm
    have hhi := mul_le_mul_of_nonpos_left hf hm
    omega

theorem at_cast {y : ℤ} (hmul : Float64.Exact (v.multiplier * y))
    (hvalue : Float64.Exact (v.value y)) : v.cast.at y = (v.value y : Float64) := by
  rw [AffineExpression.at, cast, mul_intCast hmul, add_intCast hvalue]
  rfl

theorem integerIn_intCast (n : ℤ) :
    (n : Float64).integerIn minimum maximum = true ↔ minimum ≤ n ∧ n ≤ maximum := by
  have hfloor : ⌊(n : ℚ)⌋ = n := Int.floor_intCast n
  change decide (((⌊(n : ℚ)⌋ : ℤ) : ℚ) = n ∧ minimum ≤ ⌊(n : ℚ)⌋ ∧ ⌊(n : ℚ)⌋ ≤ maximum) = true ↔ _
  rw [hfloor]
  simp

theorem Exact.bounded (he : v.Exact first last)
    (h : v.cast.endsIn first last minimum maximum = true) :
    v.Bounded first last minimum maximum := by
  obtain ⟨-, -, h1, h2, h3, h4⟩ := he
  simp only [endsIn, Bool.and_eq_true, at_cast h1 h2, at_cast h3 h4, integerIn_intCast] at h
  exact ⟨h.1.2, h.2⟩

end AffineExpression

def rangeExact (argc : Nat) (fixed first last : ℤ) :
    List Instruction → List (AffineExpression ℤ) → Bool
  | [], _ => true
  | i :: is, stack =>
    match rangeStep argc fixed (fun _ => true) (fun _ => true) i stack with
    | some stack =>
      stack.all (fun v => decide (v.Exact first last)) && rangeExact argc fixed first last is stack
    | none => true

def InLimit (first last : ℤ) (v : AffineExpression ℤ) : Prop :=
  v.Bounded first last (-exactLimit) exactLimit

section

variable {argc : Nat} {fixed first last : ℤ} {i : Instruction} {v left right : AffineExpression ℤ}
  {rest stack ws : List (AffineExpression ℤ)} {us : List (AffineExpression Float64)}

theorem keepIf_cast (rest : List (AffineExpression ℤ)) {minimum maximum : ℤ} {u : AffineExpression Float64} (hu : u = v.cast)
    (he : v.Exact first last)
    (h : keepIf (AffineExpression.endsIn first last minimum maximum) u
      (rest.map AffineExpression.cast) = some us) :
    us = (v :: rest).map AffineExpression.cast ∧ v.Bounded first last minimum maximum := by
  subst hu
  unfold keepIf at h
  split at h
  · rename_i hc
    cases h
    exact ⟨rfl, he.bounded hc⟩
  · cases h

theorem cast_eq_zero {n : ℤ} : (n : Float64) = ((0 : ℤ) : Float64) ↔ n = 0 :=
  ⟨intCast_injective, congrArg fun n : ℤ => (n : Float64)⟩

theorem rangeStep_cast (hfirst : 0 ≤ first) (hle : first ≤ last) (hlast : last ≤ int32Max)
    (hfixed : -exactLimit ≤ fixed ∧ fixed ≤ exactLimit)
    (hstack : ∀ v ∈ stack, InLimit first last v)
    (hexact : ∀ ws, rangeStep argc fixed (fun _ => true) (fun _ => true) i stack = some ws →
      ∀ w ∈ ws, w.Exact first last)
    (h : rangeStep argc (fixed : Float64) (AffineExpression.safe first last)
      (AffineExpression.inInt32 first last) i (stack.map AffineExpression.cast) = some us) :
    ∃ ws, rangeStep argc fixed (fun _ => true) (fun _ => true) i stack = some ws ∧
      us = ws.map AffineExpression.cast ∧ (∀ w ∈ ws, InLimit first last w) ∧
      (i.opcode = .or → ∃ w rest, ws = w :: rest ∧ w.Bounded first last int32Min int32Max) := by
  cases hop : i.opcode
  case arg =>
    simp only [rangeStep, hop, List.length_map] at h ⊢
    split at h
    · cases h
    · rename_i hc
      rw [if_neg hc]
      split at h
      · rename_i hzero
        cases h
        refine ⟨_, if_pos hzero, rfl, List.forall_mem_cons.mpr ⟨?_, hstack⟩, fun h => by cases h⟩
        simp only [InLimit, AffineExpression.Bounded, AffineExpression.value, exactLimit, int32Max,
          Int.cast_id, one_mul, add_zero] at *
        omega
      · rename_i hzero
        rw [if_neg hzero]
        split at h
        · rename_i hone
          cases h
          refine ⟨_, if_pos hone, rfl, List.forall_mem_cons.mpr ⟨?_, hstack⟩, fun h => by cases h⟩
          simpa [InLimit, AffineExpression.Bounded, AffineExpression.value] using hfixed
        · cases h
  case constant =>
    simp only [rangeStep, hop, List.length_map] at h ⊢
    split at h
    · cases h
    · rename_i hc
      cases h
      refine ⟨_, if_neg hc, rfl, List.forall_mem_cons.mpr ⟨?_, hstack⟩, fun h => by cases h⟩
      rw [not_or, not_lt, abs_le] at hc
      simpa [InLimit, AffineExpression.Bounded, AffineExpression.value] using hc.2
  all_goals
    rcases stack with _ | ⟨right, _ | ⟨left, rest⟩⟩ <;>
      simp only [rangeStep, hop, List.map_nil, List.map_cons, reduceCtorEq] at h hexact ⊢
  case add.cons.cons =>
    have he := hexact _ rfl _ List.mem_cons_self
    obtain ⟨hus, hb⟩ := keepIf_cast rest (congrArg₂ AffineExpression.mk (add_intCast he.1)
      (add_intCast he.2.1)) he h
    exact ⟨_, rfl, hus, List.forall_mem_cons.mpr ⟨hb, fun v hv => hstack v (by simp [hv])⟩,
      fun h => by cases h⟩
  case sub.cons.cons =>
    have he := hexact _ rfl _ List.mem_cons_self
    obtain ⟨hus, hb⟩ := keepIf_cast rest (congrArg₂ AffineExpression.mk (sub_intCast he.1)
      (sub_intCast he.2.1)) he h
    exact ⟨_, rfl, hus, List.forall_mem_cons.mpr ⟨hb, fun v hv => hstack v (by simp [hv])⟩,
      fun h => by cases h⟩
  case neg.cons.nil =>
    have he := hexact _ rfl _ List.mem_cons_self
    obtain ⟨hus, hb⟩ := keepIf_cast [] (congrArg₂ AffineExpression.mk (neg_intCast _)
      (neg_intCast _)) he h
    exact ⟨_, rfl, hus, List.forall_mem_cons.mpr ⟨hb, fun v hv => hstack v (by simp [hv])⟩,
      fun h => by cases h⟩
  case neg.cons.cons =>
    have he := hexact _ rfl _ List.mem_cons_self
    obtain ⟨hus, hb⟩ := keepIf_cast (left :: rest) (congrArg₂ AffineExpression.mk
      (neg_intCast _) (neg_intCast _)) he h
    exact ⟨_, rfl, hus, List.forall_mem_cons.mpr ⟨hb, fun v hv => hstack v (by simp [hv])⟩,
      fun h => by cases h⟩
  case mul.cons.cons =>
    simp only [AffineExpression.cast, ne_eq, cast_eq_zero, Int.cast_id] at h hexact ⊢
    split at h
    · cases h
    · rename_i hc
      rw [if_neg hc] at hexact ⊢
      split at h
      · rename_i hr
        rw [if_pos hr] at hexact ⊢
        have he := hexact _ rfl _ List.mem_cons_self
        obtain ⟨hus, hb⟩ := keepIf_cast rest (congrArg₂ AffineExpression.mk (mul_intCast he.1)
          (mul_intCast he.2.1)) he h
        exact ⟨_, rfl, hus, List.forall_mem_cons.mpr ⟨hb, fun v hv => hstack v (by simp [hv])⟩,
          fun h => by cases h⟩
      · rename_i hr
        rw [if_neg hr] at hexact ⊢
        have he := hexact _ rfl _ List.mem_cons_self
        obtain ⟨hus, hb⟩ := keepIf_cast rest (congrArg₂ AffineExpression.mk (mul_intCast he.1)
          (mul_intCast he.2.1)) he h
        exact ⟨_, rfl, hus, List.forall_mem_cons.mpr ⟨hb, fun v hv => hstack v (by simp [hv])⟩,
          fun h => by cases h⟩
  case or.cons.cons =>
    simp only [AffineExpression.cast, cast_eq_zero, Int.cast_id] at h hexact ⊢
    split at h
    · rename_i hz
      rw [if_pos hz] at hexact ⊢
      have he := hexact _ rfl _ List.mem_cons_self
      obtain ⟨hus, hb⟩ := keepIf_cast rest rfl he h
      exact ⟨_, rfl, hus, fun v hv => hstack v (List.mem_cons_of_mem _ hv),
        fun _ => ⟨left, rest, rfl, hb⟩⟩
    · rename_i hz
      rw [if_neg hz] at hexact ⊢
      split at h
      · rename_i hz'
        rw [if_pos hz'] at hexact ⊢
        have he := hexact _ rfl _ List.mem_cons_self
        obtain ⟨hus, hb⟩ := keepIf_cast rest rfl he h
        refine ⟨_, rfl, hus, ?_, fun _ => ⟨right, rest, rfl, hb⟩⟩
        intro v hv
        rcases List.mem_cons.mp hv with rfl | hv
        · exact hstack v List.mem_cons_self
        · exact hstack v (by simp [hv])
      · cases h

end

/-- A stack of values at `x`. -/
def valuesAt (x : ℤ) (stack : List (AffineExpression ℤ)) : List Float64 :=
  stack.map fun v => (v.value x : Float64)

section

variable {argc : Nat} {fixed first last x : ℤ} {i : Instruction} {v left right : AffineExpression ℤ}
  {rest stack ws : List (AffineExpression ℤ)} {s : Evaluation} {env : CallEnv} {count : Nat}

theorem InLimit.exact (h : InLimit first last v) (hf : first ≤ x) (hl : x ≤ last) :
    Float64.Exact (v.value x) := by
  have hin := h.inside hf hl
  refine exact_of_lt (abs_lt.mpr ?_)
  unfold exactLimit at hin
  omega

theorem evaluates_arithmetic {w : AffineExpression ℤ}
    (hop : i.opcode ∈ [Opcode.add, .sub, .mul, .div, .mod])
    (hw : Evaluation.arithmetic i.opcode (left.value x) (right.value x) = (w.value x : Float64)) :
    Evaluation.step env count i { s with stack := valuesAt x (right :: left :: rest) } =
      some (.next { s with stack := valuesAt x (w :: rest) }) := by
  have hstep : Evaluation.step env count i { s with stack := valuesAt x (right :: left :: rest) } =
      some (.next { s with stack := (Evaluation.arithmetic i.opcode (left.value x)
        (right.value x) :: valuesAt x rest) }) :=
    Evaluation.step_arithmetic hop rfl rfl
  rw [hstep, hw]
  rfl

/-- One instruction of the analysis, at `x`, is that instruction of the evaluator. -/
theorem rangeStep_evaluates (hf : first ≤ x) (hl : x ≤ last) (hzero : s.arguments 0 = some (x : Float64))
    (hone : argc = 2 → s.arguments 1 = some (fixed : Float64))
    (h : rangeStep argc fixed (fun _ => true) (fun _ => true) i stack = some ws)
    (hws : ∀ w ∈ ws, InLimit first last w)
    (hor : i.opcode = .or → ∃ w rest, ws = w :: rest ∧ w.Bounded first last int32Min int32Max) :
    Evaluation.step env count i { s with stack := valuesAt x stack } =
      some (.next { s with stack := valuesAt x ws }) := by
  have hexact : ∀ {w}, w ∈ ws → Float64.Exact (w.value x) := fun hw => (hws _ hw).exact hf hl
  cases hop : i.opcode
  case arg =>
    simp only [rangeStep, hop, Int.cast_id] at h
    split at h
    · cases h
    · rename_i hc
      have hlen : (valuesAt x stack).length < 32 := by
        rw [valuesAt, List.length_map]
        omega
      split at h
      · rename_i harg
        cases h
        simp only [Evaluation.step, hop, Evaluation.pushChecked, harg, hzero, hlen, if_true]
        simp [valuesAt, AffineExpression.value]
      · split at h
        · rename_i harg
          cases h
          simp only [Evaluation.step, hop, Evaluation.pushChecked, harg, hone harg.2, hlen, if_true]
          simp [valuesAt, AffineExpression.value]
        · cases h
  case constant =>
    simp only [rangeStep, hop, Int.cast_id] at h
    split at h
    · cases h
    · rename_i hc
      have hlen : (valuesAt x stack).length < 32 := by
        rw [valuesAt, List.length_map]
        omega
      cases h
      simp only [Evaluation.step, hop, hlen, if_true]
      simp [valuesAt, AffineExpression.value]
  all_goals
    rcases stack with _ | ⟨right, _ | ⟨left, rest⟩⟩ <;>
      simp only [rangeStep, hop, reduceCtorEq, keepIf, if_true, Int.cast_id] at h
  case neg.cons.nil =>
    cases h
    simp only [Evaluation.step, hop, valuesAt, List.map_cons, List.map_nil, neg_intCast]
    simp only [AffineExpression.value]
    rw [show -(right.multiplier * x + right.addend) = -right.multiplier * x + -right.addend by ring]
  case neg.cons.cons =>
    cases h
    simp only [Evaluation.step, hop, valuesAt, List.map_cons, neg_intCast]
    simp only [AffineExpression.value]
    rw [show -(right.multiplier * x + right.addend) = -right.multiplier * x + -right.addend by ring]
  case add.cons.cons =>
    cases h
    have hsum : AffineExpression.value
        ⟨left.multiplier + right.multiplier, left.addend + right.addend⟩ x =
        left.value x + right.value x := by
      simp only [AffineExpression.value]
      ring
    have hv := hexact List.mem_cons_self
    rw [hsum] at hv
    refine evaluates_arithmetic (by simp [hop]) ?_
    rw [hop, hsum]
    exact add_intCast hv
  case sub.cons.cons =>
    cases h
    have hsum : AffineExpression.value
        ⟨left.multiplier - right.multiplier, left.addend - right.addend⟩ x =
        left.value x - right.value x := by
      simp only [AffineExpression.value]
      ring
    have hv := hexact List.mem_cons_self
    rw [hsum] at hv
    refine evaluates_arithmetic (by simp [hop]) ?_
    rw [hop, hsum]
    exact sub_intCast hv
  case mul.cons.cons =>
    split at h
    · cases h
    · rename_i hc
      -- One of the factors is a constant.
      have hprod : ∃ w, ws = w :: rest ∧ w.value x = left.value x * right.value x := by
        split at h
        · rename_i hr
          cases h
          refine ⟨_, rfl, ?_⟩
          simp only [AffineExpression.value, hr]
          ring
        · rename_i hr
          cases h
          refine ⟨_, rfl, ?_⟩
          have hl : left.multiplier = 0 := by
            by_contra hne
            exact hc ⟨hne, hr⟩
          simp only [AffineExpression.value, hl]
          ring
      obtain ⟨w, rfl, hprod⟩ := hprod
      have hv := hexact List.mem_cons_self
      rw [hprod] at hv
      refine evaluates_arithmetic (by simp [hop]) ?_
      rw [hop, hprod]
      exact mul_intCast hv
  case or.cons.cons =>
    -- One of the operands is zero, and the other an int32.
    obtain ⟨w, rest', rfl, hb⟩ := hor hop
    have hint := hb.inside hf hl
    have hvalue : rest' = rest ∧
        toBits (left.value x) ||| toBits (right.value x) = toBits (w.value x) := by
      split at h
      · rename_i hz
        cases h
        refine ⟨rfl, ?_⟩
        have hright : right.value x = 0 := by
          simp [AffineExpression.value, hz.1, hz.2]
        rw [hright, show toBits 0 = 0#32 from rfl, BitVec.or_zero]
      · split at h
        · rename_i hz
          cases h
          refine ⟨rfl, ?_⟩
          have hleft : left.value x = 0 := by
            simp [AffineExpression.value, hz.1, hz.2]
          rw [hleft, show toBits 0 = 0#32 from rfl, BitVec.zero_or]
        · cases h
    obtain ⟨rfl, hbits⟩ := hvalue
    have hstep : Evaluation.step env count i
        { s with stack := valuesAt x (right :: left :: rest') } =
        some (.next { s with stack := (((Evaluation.bitwise i.opcode
          (left.value x : Float64).toInt32 (right.value x : Float64).toInt32).toInt : Float64) ::
            valuesAt x rest') }) :=
      Evaluation.step_bitwise (by simp [hop])
    rw [hstep, hop, toInt32_intCast, toInt32_intCast, Evaluation.bitwise, hbits,
      OSR.toInt_toBits hint]
    rfl

theorem rangeRun_evaluates (plan : Plan) (hfirst : 0 ≤ first) (hle : first ≤ last)
    (hlast : last ≤ int32Max) (hfixed : -exactLimit ≤ fixed ∧ fixed ≤ exactLimit)
    {is : List Instruction} {us : List (AffineExpression Float64)}
    (hstack : ∀ v ∈ stack, InLimit first last v ∧ v.Exact first last)
    (hexact : rangeExact argc fixed first last is stack = true)
    (h : rangeRun argc (fixed : Float64) (AffineExpression.safe first last)
      (AffineExpression.inInt32 first last) is (stack.map AffineExpression.cast) = some us) :
    ∃ ws, us = ws.map AffineExpression.cast ∧
      (∀ w ∈ ws, InLimit first last w ∧ w.Exact first last) ∧
      ∀ (x : ℤ) (env : CallEnv) (s : Evaluation) (fuel k : Nat), first ≤ x → x ≤ last →
        s.arguments 0 = some (x : Float64) → (argc = 2 → s.arguments 1 = some (fixed : Float64)) →
        plan.instructions.drop k = is →
        plan.evaluateFrom env (is.length + fuel) k { s with stack := valuesAt x stack } =
          plan.evaluateFrom env fuel (k + is.length) { s with stack := valuesAt x ws } := by
  induction is generalizing stack with
  | nil =>
    cases h
    refine ⟨stack, rfl, hstack, ?_⟩
    intro x env s fuel k _ _ _ _ _
    rw [List.length_nil, Nat.zero_add, Nat.add_zero]
  | cons i is ih =>
    obtain ⟨mid, hmid, h⟩ := Option.bind_eq_some_iff.mp h
    have hstep : ∀ ws, rangeStep argc fixed (fun _ => true) (fun _ => true) i stack = some ws →
        (∀ w ∈ ws, w.Exact first last) ∧ rangeExact argc fixed first last is ws = true := by
      intro ws hws
      simpa [rangeExact, hws] using hexact
    obtain ⟨ws, hws, rfl, hlimit, hor⟩ := rangeStep_cast hfirst hle hlast hfixed
      (fun v hv => (hstack v hv).1) (fun ws hws => (hstep ws hws).1) hmid
    obtain ⟨vs, hvs, hlimit', hrun⟩ :=
      ih (fun w hw => ⟨hlimit w hw, (hstep ws hws).1 w hw⟩) (hstep ws hws).2 h
    refine ⟨vs, hvs, hlimit', ?_⟩
    intro x env s fuel k hf hl hzero hone hdrop
    have hget : plan.instructions[k]? = some i := by
      rw [← List.head?_drop, hdrop, List.head?_cons]
    have hrest : plan.instructions.drop (k + 1) = is := by
      rw [← List.tail_drop, hdrop, List.tail_cons]
    have hnext : plan.evaluateFrom env (is.length + fuel + 1) k { s with stack := valuesAt x stack } =
        plan.evaluateFrom env (is.length + fuel) (k + 1) { s with stack := valuesAt x ws } :=
      Plan.evaluateFrom_next hget (rangeStep_evaluates hf hl hzero hone hws hlimit hor) _
    rw [List.length_cons, show is.length + 1 + fuel = is.length + fuel + 1 by omega, hnext,
      hrun x env s fuel (k + 1) hf hl hzero hone hrest,
      show k + 1 + is.length = k + (is.length + 1) by omega]

end

def PassesArguments (argc : Nat) (fixed x : ℤ) (env : CallEnv) : Prop :=
  env.args[0]?.bind LeafValue.number = some (x : Float64) ∧
    (argc = 2 → env.args[1]?.bind LeafValue.number = some (fixed : Float64))

def Plan.term (plan : Plan) (env : CallEnv) : BitVec 32 :=
  match plan.evaluate env (fun _ => none) with
  | some (.handled r _) => (r.number.map Float64.toInt32).getD 0
  | _ => 0

section

variable {plan : Plan} {argc : Nat} {fixed first last slope intercept : ℤ}

theorem toInt64_intCast {m n : ℤ} (h : toInt64 (m : Float64) = some n) : m = n := by
  have hv : toInt64 (m : Float64) =
      if -2 ^ 63 ≤ truncate (m : ℚ) ∧ truncate (m : ℚ) < 2 ^ 63 then some (truncate (m : ℚ))
      else none := rfl
  rw [hv, truncate_intCast] at h
  split at h
  · cases h
    rfl
  · cases h

theorem affineForRange_found (hlast : last ≤ int32Max)
    (h : affineForRange plan argc (fixed : Float64) first last = some (slope, intercept))
    (hexact : rangeExact argc fixed first last plan.instructions [] = true) :
    0 ≤ first ∧ first ≤ last ∧
      AffineExpression.Bounded first last int32Min int32Max ⟨slope, intercept⟩ ∧
      ∀ (x : ℤ) (env : CallEnv) (cells : Cells), first ≤ x → x ≤ last →
        PassesArguments argc fixed x env →
        plan.evaluate env cells =
          some (.handled (plan.result ((slope * x + intercept : ℤ) : Float64)) cells) := by
  unfold affineForRange at h
  split at h
  · cases h
  · rename_i hc
    simp only [not_or, not_lt, not_not] at hc
    obtain ⟨-, -, h0, hle, hfixed⟩ := hc
    split at h
    · rename_i v hrun
      split at h
      · rename_i hv
        simp only [Option.bind_eq_bind, Option.bind_eq_some_iff] at h
        obtain ⟨m, hm, a, ha, he⟩ := h
        cases he
        have hnil : ∀ v ∈ ([] : List (AffineExpression ℤ)),
            InLimit first last v ∧ v.Exact first last := nofun
        obtain ⟨ws, hws, hlimit, heval⟩ := rangeRun_evaluates plan h0 hle hlast
          ((AffineExpression.integerIn_intCast fixed).mp hfixed) hnil hexact hrun
        obtain ⟨w, rfl, rfl⟩ : ∃ w, ws = [w] ∧ v = w.cast := by
          rcases ws with _ | ⟨w, _ | ⟨w', ws⟩⟩
          · cases hws
          · cases hws
            exact ⟨w, rfl, rfl⟩
          · cases hws
        obtain rfl : w.multiplier = slope := toInt64_intCast hm
        obtain rfl : w.addend = intercept := toInt64_intCast ha
        refine ⟨h0, hle, (hlimit w List.mem_cons_self).2.bounded hv, ?_⟩
        intro x env cells hf hl hargs
        have hlen : plan.instructions[plan.instructions.length]? = none := by simp
        have hsteps := heval x env (.start env cells) 1 0 hf hl hargs.1 hargs.2 rfl
        rw [Nat.zero_add] at hsteps
        exact hsteps.trans (Plan.evaluateFrom_end hlen rfl 0)
      · cases h
    · cases h

theorem leafDelta_eq (slope intercept i : ℤ) (n : Nat) :
    leafDelta slope intercept i (i + n) =
      ∑ k ∈ Finset.range n, toBits (slope * (i + k) + intercept) := by
  rw [leafDelta, OSR.seriesSum_eq, show i + (n : ℤ) - i = n by omega]
  induction n with
  | zero => simp [OSR.rangeSum, toBits]
  | succ n ih =>
    have hmul : toBits (slope * (i + n)) = toBits slope * toBits (i + n) := BitVec.ofInt_mul _ _
    rw [Finset.sum_range_succ, ← ih, OSR.rangeSum, OSR.toBits_add (OSR.rangeSum i n),
      OSR.toBits_add (slope * (i + n)), hmul, Nat.cast_succ, OSR.toBits_add n 1,
      show toBits 1 = 1 from rfl]
    ring

end

def unaryLeaf (code : List UInt8) : LeafFunction :=
  { code := code, cpool := [], argCount := 1, varCount := 0, normal := true, varRefCount := 0,
    closureVarCount := 0, stackSize := 2 }

def unaryCall (x : BitVec 32) : CallEnv := ⟨bareRealm, [.int x], fun _ _ => none, fun _ => none⟩

/-- `x => x * 3 + 1`. -/
def line : LeafFunction := unaryLeaf [216, 190, 154, 188, 157, 40]

/-- `x => (x - 1073741825) * 1073741825`. -/
def steepLine : LeafFunction :=
  unaryLeaf [216, 1, 1, 0, 0, 64, 158, 1, 1, 0, 0, 64, 154, 40]

end TurboJS.Leaf
