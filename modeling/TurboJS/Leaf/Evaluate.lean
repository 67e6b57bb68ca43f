import TurboJS.Leaf.Builder

namespace TurboJS.Leaf
open Bytecode

/-! `turbojs_try_inline_leaf_call_object`, the evaluator of tiny-leaf plans. -/

structure CallEnv where
  realm : Realm
  args : List LeafValue
  property : Nat → Nat → Option LeafValue
  codeUnits : LeafValue → Option (List (BitVec 16))

abbrev Cells := Nat → Option LeafValue

/-- `stack`, the slots with their valid bits, the closure cells and the virtual objects. -/
structure Evaluation where
  stack : List Float64
  arguments : Nat → Option Float64
  locals : Nat → Option Float64
  cells : Cells
  fields : Nat → List (Nat × Float64)

inductive Step where
  | next (s : Evaluation)
  | jump (target : Nat) (s : Evaluation)
  | leave (s : Evaluation)
  | decline (s : Evaluation)

inductive Outcome where
  | handled (result : LeafValue) (cells : Cells)
  | declined (cells : Cells)

def Outcome.result : Outcome → Option LeafValue
  | .handled result _ => some result
  | .declined _ => none

theorem Outcome.result_eq {o : Outcome} {r : LeafValue} (h : o.result = some r) :
    ∃ cells, o = .handled r cells := by
  cases o with
  | handled result cells =>
    cases h
    exact ⟨cells, rfl⟩
  | declined cells => cases h

namespace Evaluation

/-- `argument_slots`, from the arguments of the call. -/
def start (env : CallEnv) (cells : Cells) : Evaluation where
  stack := []
  arguments := fun k => if k < 16 then env.args[k]?.bind LeafValue.number else none
  locals := fun _ => none
  cells := cells
  fields := fun _ => []

def pushChecked (s : Evaluation) (v : Option Float64) : Step :=
  match v with
  | some v => if s.stack.length < 32 then .next { s with stack := v :: s.stack } else .decline s
  | none => .decline s

/-- `replacement`. -/
def cellValue (x : Float64) : LeafValue :=
  if x = (x.toInt32.toInt : Float64) then .int x.toInt32 else .float x

def arithmetic (opcode : Opcode) (left right : Float64) : Float64 :=
  match opcode with
  | .add => left + right
  | .sub => left - right
  | .mul => left * right
  | .div => left.div right
  | _ => left.mod right

def bitwise (opcode : Opcode) (left right : BitVec 32) : BitVec 32 :=
  match opcode with
  | .imul => left * right
  | .xor => left ^^^ right
  | .or => left ||| right
  | _ => left &&& right

def shift (opcode : Opcode) (left right : BitVec 32) : ℤ :=
  match opcode with
  | .shl => (left <<< (right.toNat % 32)).toInt
  | .sar => (left.sshiftRight (right.toNat % 32)).toInt
  | _ => (left >>> (right.toNat % 32)).toNat

def compares (opcode : Opcode) (left right : Float64) : Bool :=
  match opcode with
  | .lt => left.order right = some .lt
  | .lte => left.order right = some .lt ∨ left.order right = some .eq
  | .gt => left.order right = some .gt
  | .gte => left.order right = some .gt ∨ left.order right = some .eq
  | .eq => left.order right = some .eq
  | _ => left.order right ≠ some .eq

def setField (fields : List (Nat × Float64)) (atom : Nat) (v : Float64) : List (Nat × Float64) :=
  match fields with
  | [] => [(atom, v)]
  | (a, w) :: rest => if a = atom then (a, v) :: rest else (a, w) :: setField rest atom v

def stepVirtual (i : Instruction) (s : Evaluation) : Step :=
  match i.opcode, s.stack with
  | .virtualObject, _ =>
    s.pushChecked (if i.argument < 4 then some (.virtual i.argument false) else none)
  | .virtualDefine, v :: o :: rest =>
    match v.isFinite, o.virtualObjectIndex with
    | true, some k =>
      if (s.fields k).length ≥ 8 then .decline s
      else .next { s with stack := o :: rest,
                          fields := Function.update s.fields k (s.fields k ++ [(i.atom, v)]) }
    | _, _ => .decline s
  | .virtualGetField, o :: rest =>
    match o.virtualObjectIndex.bind fun k => (s.fields k).lookup i.atom with
    | some v => .next { s with stack := v :: rest }
    | none => .decline s
  | .virtualPutField, v :: o :: rest =>
    match v.isFinite, o.virtualObjectIndex with
    | true, some k =>
      if (s.fields k).lookup i.atom = none ∧ (s.fields k).length ≥ 8 then .decline s
      else .next { s with stack := rest,
                          fields := Function.update s.fields k (setField (s.fields k) i.atom v) }
    | _, _ => .decline s
  | _, _ => .decline s

/-- A jump to one of the `count` instructions. -/
def jumpTo (s : Evaluation) (count : Nat) (i : Instruction) (taken : Bool)
    (after : Evaluation) : Step :=
  match i.targetIndex with
  | some k => if k ≥ count then .decline s else if taken then .jump k after else .next after
  | none => .decline s

/-- One of `count` instructions; nothing where the evaluator reads below its stack or writes above
it. -/
def step (env : CallEnv) (count : Nat) (i : Instruction) (s : Evaluation) : Option Step :=
  match i.opcode, s.stack with
  | .arg, _ => some (s.pushChecked (if i.argument < 16 then s.arguments i.argument else none))
  | .argPut, v :: rest =>
    some (if i.argument ≥ 16 then .decline s
      else .next { s with stack := rest,
                          arguments := Function.update s.arguments i.argument (some v) })
  | .argSet, v :: _ =>
    some (if i.argument ≥ 16 then .decline s
      else .next { s with arguments := Function.update s.arguments i.argument (some v) })
  | .local, _ => some (s.pushChecked (if i.argument < 16 then s.locals i.argument else none))
  | .localPut, v :: rest =>
    some (if i.argument ≥ 16 then .decline s
      else .next { s with stack := rest,
                          locals := Function.update s.locals i.argument (some v) })
  | .localSet, v :: _ =>
    some (if i.argument ≥ 16 then .decline s
      else .next { s with locals := Function.update s.locals i.argument (some v) })
  | .argProperty, _ =>
    match env.args[i.argument]? with
    | some (.object o) => some (s.pushChecked ((env.property o i.atom).bind LeafValue.number))
    | _ => some (.decline s)
  | .dup, v :: _ => some (s.pushChecked (some v))
  | .drop, _ :: rest => some (.next { s with stack := rest })
  | .closure, _ =>
    some (s.pushChecked (if i.argument < 4 then (s.cells i.argument).bind LeafValue.number
      else none))
  | .closurePut, v :: rest =>
    some (if i.argument < 4 ∧ (s.cells i.argument).isSome then
      .next { s with stack := rest,
                     cells := Function.update s.cells i.argument (some (cellValue v)) }
      else .decline s)
  | .closureSet, v :: _ =>
    some (if i.argument < 4 ∧ (s.cells i.argument).isSome then
      .next { s with cells := Function.update s.cells i.argument (some (cellValue v)) }
      else .decline s)
  | .constant, _ =>
    if s.stack.length < 32 then some (.next { s with stack := (i.constant : Float64) :: s.stack })
    else none
  | .neg, v :: rest => some (.next { s with stack := -v :: rest })
  | .neg, [] => none
  | .jump, _ => some (s.jumpTo count i true s)
  | .jumpIfTrue, v :: rest => some (s.jumpTo count i v.truthy { s with stack := rest })
  | .jumpIfFalse, v :: rest => some (s.jumpTo count i (!v.truthy) { s with stack := rest })
  | .return, [v] => some (if v.virtualObjectIndex.isSome then .decline s else .leave s)
  | opcode, right :: left :: rest =>
    if opcode ∈ [.virtualObject, .virtualDefine, .virtualGetField, .virtualPutField] then
      some (s.stepVirtual i)
    else if opcode ∈ [.add, .sub, .mul, .div, .mod] then
      some (if left.isFinite ∧ right.isFinite then
        .next { s with stack := arithmetic opcode left right :: rest } else .decline s)
    else if opcode ∈ [.imul, .xor, .or, .and] then
      some (.next { s with
        stack := ((bitwise opcode left.toInt32 right.toInt32).toInt : Float64) :: rest })
    else if opcode ∈ [.shl, .shr, .sar] then
      some (.next { s with
        stack := (shift opcode left.toInt32 right.toInt32 : Float64) :: rest })
    else if opcode ∈ [.lt, .lte, .gt, .gte, .eq, .neq] then
      some (.next { s with
        stack := ((if compares opcode left right then 1 else 0 : ℤ) : Float64) :: rest })
    else some (.decline s)
  | opcode, _ =>
    if opcode ∈ [.imul, .xor, .or, .and] then none
    else if opcode ∈ [.virtualObject, .virtualGetField] then some (s.stepVirtual i)
    else some (.decline s)

section

variable {env : CallEnv} {count : Nat} {i : Instruction} {s : Evaluation} {left right : Float64}
  {rest : List Float64}

theorem step_arithmetic (hop : i.opcode ∈ [Opcode.add, .sub, .mul, .div, .mod])
    (hl : left.isFinite = true) (hr : right.isFinite = true) :
    step env count i { s with stack := right :: left :: rest } =
      some (.next { s with stack := arithmetic i.opcode left right :: rest }) := by
  simp only [List.mem_cons, List.not_mem_nil, or_false] at hop
  rcases hop with hop | hop | hop | hop | hop <;> simp [step, hop, hl, hr]

theorem step_bitwise (hop : i.opcode ∈ [Opcode.imul, .xor, .or, .and]) :
    step env count i { s with stack := right :: left :: rest } =
      some (.next { s with
        stack := ((bitwise i.opcode left.toInt32 right.toInt32).toInt : Float64) :: rest }) := by
  simp only [List.mem_cons, List.not_mem_nil, or_false] at hop
  rcases hop with hop | hop | hop | hop <;> simp [step, hop]

end

end Evaluation

/-- The instructions from index `i` on; nothing when the fuel runs out. -/
def Plan.evaluateFrom (plan : Plan) (env : CallEnv) : Nat → Nat → Evaluation → Option Outcome
  | 0, _, _ => none
  | fuel + 1, i, s =>
    match plan.instructions[i]? with
    | none =>
      match s.stack with
      | [v] => some (.handled (plan.result v) s.cells)
      | _ => some (.declined s.cells)
    | some instruction => do
      match ← s.step env plan.instructions.length instruction with
      | .next s => plan.evaluateFrom env fuel (i + 1) s
      | .jump k s => plan.evaluateFrom env fuel k s
      | .leave s => s.stack.head?.map fun v => .handled (plan.result v) s.cells
      | .decline s => some (.declined s.cells)

def Plan.evaluate (plan : Plan) (env : CallEnv) (cells : Cells) : Option Outcome :=
  plan.evaluateFrom env (plan.instructions.length + 1) 0 (.start env cells)

section

variable {plan : Plan} {env : CallEnv} {i : Nat} {s t : Evaluation}

theorem Plan.evaluateFrom_next {instruction : Instruction}
    (hi : plan.instructions[i]? = some instruction)
    (hs : s.step env plan.instructions.length instruction = some (.next t)) (fuel : Nat) :
    plan.evaluateFrom env (fuel + 1) i s = plan.evaluateFrom env fuel (i + 1) t := by
  rw [evaluateFrom]
  simp only [hi, hs]
  rfl

theorem Plan.evaluateFrom_end {v : Float64} (hi : plan.instructions[i]? = none)
    (hs : s.stack = [v]) (fuel : Nat) :
    plan.evaluateFrom env (fuel + 1) i s = some (.handled (plan.result v) s.cells) := by
  rw [evaluateFrom]
  simp only [hi, hs]

end

end TurboJS.Leaf
