import TurboJS.Bytecode.Interpreter
import TurboJS.Foundation.Bits

namespace TurboJS.Leaf
open Bytecode Foundation

/-! The doubles of the leaf evaluator. Zero has no sign. -/

/-- A double. A NaN whose payload marks a virtual object is told apart from the others, with the
sign bit that `-x` flips. -/
inductive Float64 where
  | finite (q : ℚ)
  | infinite (negative : Bool)
  | nan
  | virtual (index : Nat) (negative : Bool)
  deriving DecidableEq, Repr

namespace Float64

def ofRat (q : ℚ) : Float64 :=
  let r := roundTo 53 (-1074) q
  if |r| < 2 ^ 1024 then .finite r else .infinite (r < 0)

/-- `(double)n` of a 32-bit integer. -/
def ofInt (n : ℤ) : Float64 := .finite n

def isFinite : Float64 → Bool
  | .finite _ => true
  | _ => false

def neg : Float64 → Float64
  | .finite a => .finite (-a)
  | .infinite s => .infinite (!s)
  | .nan => .nan
  | .virtual k s => .virtual k (!s)

def add : Float64 → Float64 → Float64
  | .finite a, .finite b => ofRat (a + b)
  | .infinite s, .finite _ => .infinite s
  | .finite _, .infinite s => .infinite s
  | .infinite s, .infinite t => if s = t then .infinite s else .nan
  | _, _ => .nan

def sub (a b : Float64) : Float64 := a.add b.neg

def mul : Float64 → Float64 → Float64
  | .finite a, .finite b => ofRat (a * b)
  | .infinite s, .finite b => if b = 0 then .nan else .infinite (s ^^ decide (b < 0))
  | .finite a, .infinite s => if a = 0 then .nan else .infinite (s ^^ decide (a < 0))
  | .infinite s, .infinite t => .infinite (s ^^ t)
  | _, _ => .nan

def div : Float64 → Float64 → Float64
  | .finite a, .finite b =>
    if b ≠ 0 then ofRat (a / b) else if a = 0 then .nan else .infinite (a < 0)
  | .infinite s, .finite b => .infinite (s ^^ decide (b < 0))
  | .finite _, .infinite _ => .finite 0
  | _, _ => .nan

def truncate (q : ℚ) : ℤ := if q < 0 then ⌈q⌉ else ⌊q⌋

/-- `fmod`, whose result is exact. -/
def mod : Float64 → Float64 → Float64
  | .finite a, .finite b => if b = 0 then .nan else .finite (a - b * truncate (a / b))
  | .finite a, .infinite _ => .finite a
  | _, _ => .nan

def order : Float64 → Float64 → Option Ordering
  | .finite a, .finite b => some (compare a b)
  | .infinite s, .finite _ => some (if s then .lt else .gt)
  | .finite _, .infinite s => some (if s then .gt else .lt)
  | .infinite s, .infinite t => some (compare t s)
  | _, _ => none

/-- `value != 0.0 && !isnan(value)`. -/
def truthy : Float64 → Bool
  | .finite q => q ≠ 0
  | .infinite _ => true
  | _ => false

instance : IntCast Float64 := ⟨ofInt⟩
instance : Neg Float64 := ⟨neg⟩
instance : Add Float64 := ⟨add⟩
instance : Sub Float64 := ⟨sub⟩
instance : Mul Float64 := ⟨mul⟩

def toInt32 : Float64 → BitVec 32
  | .finite q =>
    if q = 0 then 0
    else
      let wrapped := (truncate q).tmod 4294967296
      let wrapped := if wrapped < 0 then wrapped + 4294967296 else wrapped
      BitVec.ofNat 32 wrapped.toNat
  | _ => 0

/-- `minimum <= value && value <= maximum` for a finite integer, as by `floor(value) == value`. -/
def integerIn (minimum maximum : ℤ) : Float64 → Bool
  | .finite q => ⌊q⌋ = q ∧ minimum ≤ ⌊q⌋ ∧ ⌊q⌋ ≤ maximum
  | _ => false

def isInteger : Float64 → Bool
  | .finite q => ⌊q⌋ = q
  | _ => false

def virtualObjectIndex : Float64 → Option Nat
  | .virtual k false => if k < 4 then some k else none
  | _ => none

theorem toInt32_finite (q : ℚ) : toInt32 (.finite q) = toBits (truncate q) := by
  by_cases hq : q = 0
  · subst hq
    rfl
  · simp only [toInt32, if_neg hq, toBits]
    generalize truncate q = n
    have hmod : n.tmod 4294967296 = if 0 ≤ n then n % 4294967296 else -(-n % 4294967296) := by
      split
      · exact Int.tmod_eq_emod_of_nonneg ‹_›
      · rw [← Int.tmod_eq_emod_of_nonneg (by omega), Int.neg_tmod, neg_neg]
    apply BitVec.eq_of_toNat_eq
    rw [BitVec.toNat_ofNat, BitVec.toNat_ofInt]
    omega

theorem truncate_intCast (n : ℤ) : truncate n = n := by
  unfold truncate
  split
  · exact Int.ceil_intCast n
  · exact Int.floor_intCast n

@[simp] theorem toInt32_intCast (n : ℤ) : toInt32 n = toBits n :=
  (toInt32_finite n).trans (congrArg toBits (truncate_intCast n))

theorem intCast_injective {m n : ℤ} (h : (m : Float64) = n) : m = n := by
  injection h with h
  exact_mod_cast h

def Exact (n : ℤ) : Prop := ofRat n = n

instance (n : ℤ) : Decidable (Exact n) := inferInstanceAs (Decidable (_ = _))

theorem exact_of_lt {n : ℤ} (h : |n| < 2 ^ 53) : Exact n := by
  have hlt : |(n : ℚ)| < 2 ^ 1024 := by
    have h53 : |(n : ℚ)| < 2 ^ 53 := by exact_mod_cast h
    exact h53.trans (pow_lt_pow_right₀ (by norm_num) (by norm_num))
  simp only [Exact, ofRat, roundTo_intCast h (show (-1074 : ℤ) ≤ 0 by decide), if_pos hlt]
  rfl

theorem neg_intCast (n : ℤ) : -(n : Float64) = ((-n : ℤ) : Float64) :=
  congrArg finite (Int.cast_neg n).symm

theorem add_intCast {m n : ℤ} (h : Exact (m + n)) : (m + n : Float64) = ((m + n : ℤ) : Float64) := by
  rw [← show ofRat (m + n : ℤ) = ((m + n : ℤ) : Float64) from h, Int.cast_add]
  rfl

theorem sub_intCast {m n : ℤ} (h : Exact (m - n)) : (m - n : Float64) = ((m - n : ℤ) : Float64) := by
  have hadd := add_intCast (m := m) (n := -n) (by rwa [← sub_eq_add_neg])
  rw [← neg_intCast, ← sub_eq_add_neg] at hadd
  exact hadd

theorem mul_intCast {m n : ℤ} (h : Exact (m * n)) : (m * n : Float64) = ((m * n : ℤ) : Float64) := by
  rw [← show ofRat (m * n : ℤ) = ((m * n : ℤ) : Float64) from h, Int.cast_mul]
  rfl

end Float64

inductive LeafValue where
  | int (n : BitVec 32)
  | float (x : Float64)
  | object (o : Nat)
  | foreign (id : Nat)
  deriving DecidableEq, Repr

def LeafValue.number : LeafValue → Option Float64
  | .int n => some n.toInt
  | .float x => some x
  | _ => none

end TurboJS.Leaf

namespace TurboJS.Leaf
open Bytecode

/-! Tiny-leaf plans, and the two closed forms that the builder looks for in their instructions. -/

inductive Opcode where
  | arg | constant | add | sub | mul | neg | toI32 | xor | or | and | argProperty | imul
  | argPut | argSet | shl | shr | sar | local | localPut | localSet | div | mod
  | lt | lte | gt | gte | eq | neq | jump | jumpIfTrue | jumpIfFalse
  | virtualObject | virtualDefine | virtualGetField | virtualPutField
  | closure | closurePut | closureSet | dup | drop | return
  deriving DecidableEq, Repr

/-- `TurboJSTinyLeafInstruction`. All constants come from integer operands. -/
structure Instruction where
  opcode : Opcode
  argument : Nat
  atom : Nat
  constant : ℤ
  sourceOffset : Nat
  targetIndex : Option Nat
  deriving DecidableEq, Repr

/-- `kind`: 0 to 3. -/
inductive Kind where
  | general | affine | stateful | stringHash
  deriving DecidableEq, Repr

structure ImulGuard where
  mathAtom : Nat
  imulAtom : Nat
  mathObject : Nat
  imulFunction : Nat
  deriving DecidableEq, Repr

structure StringHash where
  stringPrototype : Nat
  charcodeFunction : Nat
  charcodeAtom : Nat
  seed : BitVec 32
  multiplier : BitVec 32
  deriving DecidableEq, Repr

structure Plan where
  instructions : List Instruction
  returnsInt32 : Bool
  kind : Kind
  affineArgument : Nat
  hasControlFlow : Bool
  usesExtendedControlPlan : Bool
  virtualObjectCount : Nat
  statefulSteps : List (Opcode × Nat)
  affineMultiplier : Float64
  affineAddend : Float64
  guard : Option ImulGuard
  hash : Option StringHash
  deriving DecidableEq, Repr

def Plan.empty : Plan :=
  ⟨[], false, .general, 0, false, false, 0, [], .finite 0, .finite 0, none, none⟩

/-- `TurboJSAffineValue`: a multiple of an argument and an addend. -/
structure AffineValue (α : Type) where
  argument : Option Nat
  multiplier : α
  addend : α
  deriving DecidableEq, Repr

section

variable {α : Type} [Add α] [Sub α] [Mul α] [Neg α] [IntCast α] [DecidableEq α]

def AffineValue.combine (op : α → α → α) (left right : AffineValue α) :
    Option (AffineValue α) :=
  if left.argument.isSome ∧ right.argument.isSome ∧ left.argument ≠ right.argument then none
  else some ⟨left.argument <|> right.argument, op left.multiplier right.multiplier,
    op left.addend right.addend⟩

def AffineValue.scale (left right : AffineValue α) : Option (AffineValue α) :=
  match left.argument, right.argument with
  | some _, some _ => none
  | _, none => some ⟨left.argument, left.multiplier * right.addend, left.addend * right.addend⟩
  | none, some _ =>
    some ⟨right.argument, right.multiplier * left.addend, right.addend * left.addend⟩

def affineStep (i : Instruction) (values : List (AffineValue α)) :
    Option (List (AffineValue α)) :=
  match i.opcode, values with
  | .arg, values =>
    if values.length < 16 then
      some (⟨some i.argument, ((1 : ℤ) : α), ((0 : ℤ) : α)⟩ :: values) else none
  | .constant, values =>
    if values.length < 16 then
      some (⟨none, ((0 : ℤ) : α), ((i.constant : ℤ) : α)⟩ :: values) else none
  | .add, right :: left :: rest => (left.combine (· + ·) right).map (· :: rest)
  | .sub, right :: left :: rest => (left.combine (· - ·) right).map (· :: rest)
  | .mul, right :: left :: rest => (left.scale right).map (· :: rest)
  | .neg, value :: rest => some (⟨value.argument, -value.multiplier, -value.addend⟩ :: rest)
  | .or, right :: left :: rest =>
    if right.argument.isSome ∨ right.addend ≠ ((0 : ℤ) : α) then none else some (left :: rest)
  | _, _ => none

def affineValues : List Instruction → List (AffineValue α) → Option (List (AffineValue α))
  | [], values => some values
  | i :: is, values => (affineStep i values).bind (affineValues is)

def affineSummary (is : List Instruction) : Option (Nat × α × α) :=
  match affineValues (α := α) is [] with
  | some [⟨some argument, multiplier, addend⟩] => some (argument, multiplier, addend)
  | _ => none

end

/-- The summary of the finished instructions in a plan. `| 0` has already been noted in
`returnsInt32` when it was decoded. -/
def Plan.summarise (plan : Plan) : Plan :=
  match affineSummary (α := Float64) plan.instructions with
  | some (argument, multiplier, addend) =>
    { plan with kind := .affine, affineArgument := argument, affineMultiplier := multiplier,
                affineAddend := addend }
  | none => plan

def Plan.result (plan : Plan) (x : Float64) : LeafValue :=
  if plan.returnsInt32 then .int x.toInt32 else .float x

def Plan.executeAffine (plan : Plan) (args : List LeafValue) : Option LeafValue := do
  let x ← (← args[plan.affineArgument]?).number
  some (plan.result (x * plan.affineMultiplier + plan.affineAddend))

def skip (opcodes : List Opcode) : List Instruction → List Instruction
  | [] => []
  | i :: is => if i.opcode ∈ opcodes then is else i :: is

/-- A step `x ^ (x << n)` at the front, with what follows its store. Two more instructions have to
follow the five. -/
def statefulStep : List Instruction → Option ((Opcode × Nat) × List Instruction)
  | a :: b :: c :: shift :: x :: next :: last :: rest =>
    if a.opcode = .closure ∧ b.opcode = .closure ∧ c.opcode = .constant ∧
        shift.opcode ∈ [.shl, .shr, .sar] ∧ x.opcode = .xor then
      some ((shift.opcode, (toBits c.constant).toNat % 256),
        skip [.drop] (skip [.closurePut, .closureSet] (skip [.dup] (next :: last :: rest))))
    else none
  | _ => none

/-- The steps of a list: at most `room` of them, then the rest is not looked at. -/
def statefulSteps (room fuel : Nat) (is : List Instruction) : Option (List (Opcode × Nat)) :=
  match room, fuel, is with
  | 0, _, _ | _, 0, _ | _, _, [] => some []
  | room + 1, fuel + 1, i :: is =>
    match statefulStep (i :: is) with
    | some (step, rest) => (statefulSteps room fuel rest).map (step :: ·)
    | none =>
      if i.opcode ∈ [.closure, .return, .toI32, .or, .constant] then statefulSteps (room + 1) fuel is
      else none

def Plan.recognise (plan : Plan) (closureVarCount : Nat) : Plan :=
  if closureVarCount = 1 ∧ 8 ≤ plan.instructions.length then
    match Leaf.statefulSteps 4 plan.instructions.length plan.instructions with
    | some steps =>
      if 2 ≤ steps.length then
        { plan with kind := .stateful, statefulSteps := steps, returnsInt32 := true }
      else plan
    | none => plan
  else plan

end TurboJS.Leaf

namespace TurboJS.Leaf
open Bytecode

/-! What a list of instructions means in JavaScript as long as its numbers are integers: exact
arithmetic, and 32 bits only where an operator takes its operands to int32. -/

structure ExactState where
  stack : List ℤ
  cells : Nat → ℤ

def exactBinary (opcode : Opcode) (left right : ℤ) : Option ℤ :=
  match opcode with
  | .add => some (left + right)
  | .sub => some (left - right)
  | .mul => some (left * right)
  | .xor => some (toBits left ^^^ toBits right).toInt
  | .or => some (toBits left ||| toBits right).toInt
  | .and => some (toBits left &&& toBits right).toInt
  | .imul => some (toBits left * toBits right).toInt
  | .shl => some (toBits left <<< ((toBits right).toNat % 32)).toInt
  | .sar => some ((toBits left).sshiftRight ((toBits right).toNat % 32)).toInt
  | .shr => some ((toBits left).toNat >>> ((toBits right).toNat % 32) : Nat)
  | _ => none

/-- One instruction; `args` are the arguments that are there. -/
def exactStep (args : Nat → Option ℤ) (i : Instruction) (s : ExactState) : Option ExactState :=
  match i.opcode, s.stack with
  | .arg, _ => (args i.argument).map fun v => { s with stack := v :: s.stack }
  | .constant, _ => some { s with stack := i.constant :: s.stack }
  | .neg, v :: rest => some { s with stack := -v :: rest }
  | .dup, v :: rest => some { s with stack := v :: v :: rest }
  | .drop, _ :: rest => some { s with stack := rest }
  | .closure, _ => some { s with stack := s.cells i.argument :: s.stack }
  | .closurePut, v :: rest => some ⟨rest, Function.update s.cells i.argument v⟩
  | .closureSet, v :: rest => some ⟨v :: rest, Function.update s.cells i.argument v⟩
  | opcode, right :: left :: rest =>
    (exactBinary opcode left right).map fun v => { s with stack := v :: rest }
  | _, _ => none

def exactRun (args : Nat → Option ℤ) : List Instruction → ExactState → Option ExactState
  | [], s => some s
  | i :: is, s => (exactStep args i s).bind (exactRun args is)

theorem exactRun_cons {args : Nat → Option ℤ} {i : Instruction} {is : List Instruction}
    {s t : ExactState} (h : exactStep args i s = some t) :
    exactRun args (i :: is) s = exactRun args is t := by
  rw [exactRun, h, Option.bind_some]

end TurboJS.Leaf
