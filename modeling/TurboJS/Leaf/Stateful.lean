import TurboJS.Leaf.Built
import TurboJS.OSR.Parse
import TurboJS.Leaf.Evaluate

namespace TurboJS.Leaf
open Bytecode

/-! Stateful xorshift closures against the meaning of their instructions. -/

/-! ## The fast path -/

def shifted (step : Opcode × Nat) (x : BitVec 32) : BitVec 32 :=
  match step.1 with
  | .shl => x <<< (step.2 % 32)
  | .sar => x.sshiftRight (step.2 % 32)
  | _ => x >>> (step.2 % 32)

def applyStep (x : BitVec 32) (step : Opcode × Nat) : BitVec 32 := x ^^^ shifted step x

def Plan.executeStateful (plan : Plan) (cell : Option LeafValue) :
    Option (LeafValue × LeafValue) :=
  match cell with
  | some (.int x) =>
    let x := plan.statefulSteps.foldl applyStep x
    some (.int x, .int x)
  | _ => none

inductive Symbol where
  | state (k : Nat)
  | shifted (k : Nat) (step : Opcode × Nat)
  | constant (c : ℤ)
  deriving DecidableEq, Repr

structure SymbolicState where
  stack : List Symbol
  cell : Nat
  deriving DecidableEq, Repr

def symbolicStep (steps : List (Opcode × Nat)) (i : Instruction) (s : SymbolicState) :
    Option SymbolicState :=
  match i.opcode, s.stack with
  | .constant, stack => some { s with stack := .constant i.constant :: stack }
  | .closure, stack =>
    if i.argument = 0 then some { s with stack := .state s.cell :: stack } else none
  | .closurePut, .state k :: rest => if i.argument = 0 then some ⟨rest, k⟩ else none
  | .closureSet, .state k :: rest => if i.argument = 0 then some ⟨.state k :: rest, k⟩ else none
  | .dup, v :: rest => some { s with stack := v :: v :: rest }
  | .drop, _ :: rest => some { s with stack := rest }
  | .xor, .shifted k step :: .state k' :: rest =>
    if k = k' ∧ steps[k]? = some step then some { s with stack := .state (k + 1) :: rest } else none
  | .or, .constant c :: .state k :: rest =>
    if c = 0 then some { s with stack := .state k :: rest } else none
  | opcode, .constant c :: .state k :: rest =>
    if opcode = .shl ∨ opcode = .shr ∨ opcode = .sar then
      some { s with stack := .shifted k (opcode, (toBits c).toNat % 256) :: rest }
    else none
  | _, _ => none

def symbolicRun (steps : List (Opcode × Nat)) : List Instruction → SymbolicState →
    Option SymbolicState
  | [], s => some s
  | i :: is, s => (symbolicStep steps i s).bind (symbolicRun steps is)

/-- The instructions make the steps one after the other, each on the stored state of the one
before, and store and return the last state. -/
def Plan.Threaded (plan : Plan) : Prop :=
  symbolicRun plan.statefulSteps plan.instructions ⟨[], 0⟩ =
    some ⟨[.state plan.statefulSteps.length], plan.statefulSteps.length⟩

instance (plan : Plan) : Decidable plan.Threaded := inferInstanceAs (Decidable (_ = _))

section

variable (steps : List (Opcode × Nat)) (x : BitVec 32)

/-- The cell after the first `k` steps. -/
def stateAfter (k : Nat) : BitVec 32 := (steps.take k).foldl applyStep x

/-- A shifted state is an unsigned number after `>>>`. -/
def Symbol.value : Symbol → ℤ
  | .state k => (stateAfter steps x k).toInt
  | .shifted k step =>
    if step.1 = .shr then (Leaf.shifted step (stateAfter steps x k)).toNat
    else (Leaf.shifted step (stateAfter steps x k)).toInt
  | .constant c => c

theorem stateAfter_succ {k : Nat} {step : Opcode × Nat} (h : steps[k]? = some step) :
    stateAfter steps x (k + 1) = applyStep (stateAfter steps x k) step := by
  rw [stateAfter, List.take_add_one, h, Option.toList_some, List.foldl_append]
  rfl

def SymbolicState.exact (cells : Nat → ℤ) (s : SymbolicState) : ExactState :=
  ⟨s.stack.map (Symbol.value steps x),
    Function.update cells 0 (stateAfter steps x s.cell).toInt⟩

end

section

variable {steps : List (Opcode × Nat)} {x : BitVec 32} {args : Nat → Option ℤ} {cells : Nat → ℤ}
  {i : Instruction} {is : List Instruction} {s t : SymbolicState}

theorem toBits_natCast_toNat (y : BitVec 32) : toBits (y.toNat : ℤ) = y := by
  rw [toBits, BitVec.ofInt_natCast, BitVec.ofNat_toNat, BitVec.setWidth_eq]

theorem toBits_shifted (k : Nat) (step : Opcode × Nat) :
    toBits (Symbol.value steps x (.shifted k step)) = shifted step (stateAfter steps x k) := by
  simp only [Symbol.value]
  split
  · exact toBits_natCast_toNat _
  · exact OSR.toBits_toInt _

/-- One instruction means what its symbols say. -/
theorem symbolicStep_exact (h : symbolicStep steps i s = some t) :
    exactStep args i (s.exact steps x cells) = some (t.exact steps x cells) := by
  obtain ⟨stack, cell⟩ := s
  unfold symbolicStep at h
  split at h
  · rename_i hop
    cases h
    simp [exactStep, hop, SymbolicState.exact, Symbol.value]
  · rename_i hop
    split at h
    · rename_i harg
      cases h
      simp [exactStep, hop, harg, SymbolicState.exact, Symbol.value]
    · cases h
  · rename_i k rest hop hstack
    subst hstack
    split at h
    · rename_i harg
      cases h
      simp [exactStep, hop, harg, SymbolicState.exact, Symbol.value]
    · cases h
  · rename_i k rest hop hstack
    subst hstack
    split at h
    · rename_i harg
      cases h
      simp [exactStep, hop, harg, SymbolicState.exact, Symbol.value]
    · cases h
  · rename_i v rest hop hstack
    subst hstack
    cases h
    simp [exactStep, hop, SymbolicState.exact]
  · rename_i v rest hop hstack
    subst hstack
    cases h
    simp [exactStep, hop, SymbolicState.exact]
  · rename_i k step k' rest hop hstack
    subst hstack
    split at h
    · rename_i hstep
      obtain ⟨rfl, hstep⟩ := hstep
      cases h
      have hvalue : (toBits (Symbol.value steps x (.state k)) ^^^
          toBits (Symbol.value steps x (.shifted k step))).toInt =
          Symbol.value steps x (.state (k + 1)) := by
        rw [toBits_shifted, Symbol.value, OSR.toBits_toInt, Symbol.value, stateAfter_succ steps x hstep]
        rfl
      simp only [exactStep, hop, SymbolicState.exact, List.map_cons, exactBinary, Option.map_some,
        hvalue]
    · cases h
  · rename_i c k rest hop hstack
    subst hstack
    split at h
    · rename_i hc
      subst hc
      cases h
      have hvalue : (toBits (Symbol.value steps x (.state k)) |||
          toBits (Symbol.value steps x (.constant 0))).toInt = Symbol.value steps x (.state k) := by
        simp only [Symbol.value, OSR.toBits_toInt]
        rw [show toBits 0 = 0#32 from rfl, BitVec.or_zero]
      simp only [exactStep, hop, SymbolicState.exact, List.map_cons, exactBinary, Option.map_some,
        hvalue]
    · cases h
  · rename_i c k rest hstack _ _ _ _ _
    simp only at hstack
    subst hstack
    split at h
    · rename_i hop
      cases h
      have hcount : (toBits c).toNat % 256 % 32 = (toBits c).toNat % 32 :=
        Nat.mod_mod_of_dvd _ (by decide)
      rcases hop with hop | hop | hop <;>
        simp [exactStep, hop, SymbolicState.exact, exactBinary, Symbol.value, shifted, hcount,
          OSR.toBits_toInt]
    · cases h
  · cases h

theorem symbolicRun_exact (h : symbolicRun steps is s = some t) :
    exactRun args is (s.exact steps x cells) = some (t.exact steps x cells) := by
  induction is generalizing s with
  | nil =>
    cases h
    rfl
  | cons i is ih =>
    obtain ⟨u, hu, h⟩ := Option.bind_eq_some_iff.mp h
    rw [exactRun_cons (symbolicStep_exact hu)]
    exact ih h

end

def closureOf (code : List UInt8) : LeafFunction :=
  { code := code, cpool := [], argCount := 0, varCount := 0, normal := true, varRefCount := 0,
    closureVarCount := 1, stackSize := 3 }

/-- `() => { x ^= x << 13; x ^= x >> 17; return x | 0; }`. -/
def xorshift : LeafFunction :=
  closureOf [228, 228, 195, 13, 159, 163, 17, 232, 14, 228, 228, 195, 17, 160, 163, 17, 232, 14, 228,
    187, 164, 40]

/-- `() => { x ^ (x << 13); x ^= x >> 17; return x; }`. -/
def unstoredStep : LeafFunction :=
  closureOf [228, 228, 195, 13, 159, 163, 14, 228, 228, 195, 17, 160, 163, 17, 232, 14, 228, 40]

end TurboJS.Leaf

namespace TurboJS.Leaf

/-! A whole call of a planned leaf, and the evaluator of the loops over two functions. -/

def ImulGuard.Holds (g : ImulGuard) (realm : Realm) : Prop :=
  realm.ownObject realm.globalObject g.mathAtom = some g.mathObject ∧
    realm.ownObject g.mathObject g.imulAtom = some g.imulFunction

instance (g : ImulGuard) (realm : Realm) : Decidable (g.Holds realm) :=
  inferInstanceAs (Decidable (_ ∧ _))

def StringHash.of (h : StringHash) (units : List (BitVec 16)) : BitVec 32 :=
  units.foldl (fun x unit => (x ^^^ unit.setWidth 32) * h.multiplier) h.seed

def Plan.hashedUnits (plan : Plan) (env : CallEnv) : Option (StringHash × List (BitVec 16)) := do
  let hash ← plan.hash
  let guard ← plan.guard
  let units ← env.args[0]?.bind env.codeUnits
  if guard.Holds env.realm ∧
      env.realm.ownObject hash.stringPrototype hash.charcodeAtom = some hash.charcodeFunction then
    some (hash, units)
  else none

def Plan.Admits (plan : Plan) (realm : Realm) : Prop :=
  ∀ g ∈ plan.guard, g.Holds realm

instance (plan : Plan) (realm : Realm) : Decidable (plan.Admits realm) :=
  inferInstanceAs (Decidable (∀ g ∈ plan.guard, _))

/-- `turbojs_try_inline_leaf_call_object`, with the plan of the function; nothing while the evaluator
needs more fuel. -/
def Plan.call (plan : Plan) (fuel : Nat) (env : CallEnv) (cells : Cells) : Option Outcome :=
  match plan.kind with
  | .affine =>
    match plan.executeAffine env.args with
    | some result => some (.handled result cells)
    | none => some (.declined cells)
  | .stateful =>
    match plan.executeStateful (cells 0) with
    | some (result, cell) => some (.handled result (Function.update cells 0 (some cell)))
    | none => some (.declined cells)
  | .stringHash =>
    match plan.hashedUnits env with
    | some (hash, units) => some (.handled (.int (hash.of units)) cells)
    | none => some (.declined cells)
  | .general =>
    if plan.Admits env.realm then plan.evaluateFrom env fuel 0 (.start env cells)
    else some (.declined cells)

/-- An instruction, as `turbojs_execute_tiny_leaf_i32` takes it. -/
def unaryStep (argument : BitVec 32) (i : Instruction) (stack : List Float64) :
    Option (List Float64) :=
  match i.opcode, stack with
  | .arg, stack =>
    if i.argument = 0 ∧ stack.length < 16 then some ((argument.toInt : Float64) :: stack) else none
  | .constant, stack =>
    if stack.length < 16 then some ((i.constant : Float64) :: stack) else none
  | .add, right :: left :: rest | .sub, right :: left :: rest | .mul, right :: left :: rest =>
    some (Evaluation.arithmetic i.opcode left right :: rest)
  | .neg, value :: rest => some (-value :: rest)
  | .xor, right :: left :: rest | .or, right :: left :: rest | .and, right :: left :: rest
  | .imul, right :: left :: rest =>
    some (((Evaluation.bitwise i.opcode left.toInt32 right.toInt32).toInt : Float64) :: rest)
  | _, _ => none

def unaryRun (argument : BitVec 32) : List Instruction → List Float64 → Option (List Float64)
  | [], stack => some stack
  | i :: is, stack => (unaryStep argument i stack).bind (unaryRun argument is)

/-- `turbojs_execute_tiny_leaf_i32`. It does not ask for the guard of the plan. -/
def Plan.executeI32 (plan : Plan) (argument : BitVec 32) : Option (BitVec 32) :=
  if plan.kind = .affine then
    some ((argument.toInt : Float64) * plan.affineMultiplier + plan.affineAddend).toInt32
  else
    match unaryRun argument plan.instructions [] with
    | some [value] => some value.toInt32
    | _ => none

/-- The chunk of a loop over two functions: `n` iterations from `i` on. -/
def polymorphicChunk (first second : Plan) (mask : BitVec 32) :
    Nat → BitVec 32 → BitVec 32 → Option (BitVec 32)
  | 0, _, value => some value
  | n + 1, i, value => do
    let term ← (if i &&& mask ≠ 0 then first else second).executeI32 i
    polymorphicChunk first second mask n (i + 1) (value + term)

end TurboJS.Leaf
