import Mathlib.Algebra.Order.Ring.Int

namespace TurboJS.IR

abbrev Word := BitVec 64

def maxRegisters : Nat := 64
def noRegister : Nat := 65535
def clutchMaxArguments : Nat := 4

inductive Opcode where
  | nop | argument | constantI64 | constantF64
  | addI64 | subI64 | mulI64
  | addF64 | subF64 | mulF64 | divF64
  | lessThanF64 | lessEqualF64 | equalF64 | i64ToF64 | f64ToI64Trunc
  | addI32Checked | subI32Checked | mulI32Checked | divI32Checked | remI32Checked
  | runtimeHelper
  | valueArgument | valueUndefined | valueConstantI32 | valueMove
  | valueLocalGet | valueLocalSet | valueToBoolean | valueCallableConstant
  | valueCallI64 | valueCallF64 | valueReturn
  | lessThanI64 | localGet | localSet | jump | branchTrue | branchFalse
  | callNativeI64 | callNativeF64 | returnI64 | returnF64
  deriving DecidableEq, Repr

inductive Status where
  | ok | invalidArgument | outOfMemory | invalidOpcode | invalidRegister | invalidTarget
  | missingReturn | executionLimit | bailout | exception | unsupported
  deriving DecidableEq, Repr

inductive EntryKind where
  | none | int32 | float64
  deriving DecidableEq, Repr

structure NativeEntryHandle where
  function : Option Nat
  generation : Nat
  argumentCount : Nat
  kind : EntryKind
  deriving DecidableEq, Repr

/-- The call metadata that a native call names. The target is the handle the
site points to, `none` for a null pointer. -/
structure ClutchCallSite where
  target : Option NativeEntryHandle
  expectedGeneration : Nat
  argumentCount : Nat
  expectedKind : EntryKind
  hasReceiverShapeGuard : Bool
  receiverShapeIdentity : Word
  receiverShapeOffset : Nat
  receiverRegister : Nat
  argumentRegisters : Vector Nat clutchMaxArguments
  deriving DecidableEq, Repr

structure Instruction where
  opcode : Opcode
  destination : Nat := noRegister
  left : Nat := noRegister
  right : Nat := noRegister
  immediate : Word := 0
  target : Nat := 0
  bytecodeOffset : Nat := 0
  site : Option ClutchCallSite := none
  deriving DecidableEq, Repr

structure Function where
  instructions : List Instruction
  registerCount : Nat
  argumentCount : Nat
  localCount : Nat
  deriving DecidableEq, Repr

structure Diagnostic where
  status : Status
  instructionIndex : Nat
  message : String
  deriving DecidableEq, Repr

def validRegister (f : Function) (reg : Nat) : Bool := reg < f.registerCount

/-- The immediate is a nonnegative index below `count`. -/
def validIndex (immediate : Word) (count : Nat) : Bool :=
  !immediate.slt 0 && immediate.toNat < count

def ClutchCallSite.arguments (site : ClutchCallSite) : List Nat :=
  site.argumentRegisters.toList.take site.argumentCount

/-- The check of one instruction; `none` means that it is accepted. -/
def checkInstruction (f : Function) (i : Instruction) : Option (Status × String) :=
  match i.opcode with
  | .nop => none
  | .argument | .valueArgument =>
    if !validRegister f i.destination then some (.invalidRegister, "invalid destination register")
    else if !validIndex i.immediate f.argumentCount then
      some (.invalidArgument, "argument index out of range")
    else none
  | .constantI64 | .constantF64 | .valueUndefined | .valueConstantI32 | .valueCallableConstant =>
    if !validRegister f i.destination then some (.invalidRegister, "invalid destination register")
    else none
  | .addI64 | .subI64 | .mulI64 | .addF64 | .subF64 | .mulF64 | .divF64
  | .lessThanF64 | .lessEqualF64 | .equalF64
  | .addI32Checked | .subI32Checked | .mulI32Checked | .divI32Checked | .remI32Checked
  | .lessThanI64 =>
    if !validRegister f i.destination || !validRegister f i.left || !validRegister f i.right then
      some (.invalidRegister, "invalid arithmetic register")
    else none
  | .i64ToF64 | .f64ToI64Trunc | .valueMove | .valueToBoolean =>
    if !validRegister f i.destination || !validRegister f i.left then
      some (.invalidRegister, "invalid conversion register")
    else none
  | .valueCallI64 | .valueCallF64 =>
    if !validRegister f i.destination || !validRegister f i.left || i.immediate.slt 0 ||
        clutchMaxArguments < i.immediate.toNat ||
        f.registerCount < i.right + i.immediate.toNat then
      some (.invalidArgument, "invalid tagged callable invocation")
    else none
  | .callNativeI64 | .callNativeF64 =>
    match i.site with
    | none => some (.invalidArgument, "invalid Clutch native call")
    | some site =>
      if !validRegister f i.destination || clutchMaxArguments < site.argumentCount then
        some (.invalidArgument, "invalid Clutch native call")
      else if !site.arguments.all (validRegister f) then
        some (.invalidRegister, "invalid Clutch argument register")
      else none
  | .runtimeHelper =>
    if !validRegister f i.destination || !validRegister f i.left || !validRegister f i.right ||
        i.immediate.slt 0 then
      some (.invalidArgument, "invalid runtime helper call")
    else none
  | .localGet | .valueLocalGet =>
    if !validRegister f i.destination || !validIndex i.immediate f.localCount then
      some (.invalidRegister, "invalid local load")
    else none
  | .localSet | .valueLocalSet =>
    if !validRegister f i.left || !validIndex i.immediate f.localCount then
      some (.invalidRegister, "invalid local store")
    else none
  | .jump =>
    if f.instructions.length ≤ i.target then some (.invalidTarget, "jump target out of range")
    else none
  | .branchTrue | .branchFalse =>
    if !validRegister f i.left then some (.invalidRegister, "invalid condition register")
    else if f.instructions.length ≤ i.target then
      some (.invalidTarget, "branch target out of range")
    else none
  | .returnI64 | .returnF64 | .valueReturn =>
    if !validRegister f i.left then some (.invalidRegister, "invalid return register") else none

def isReturn (op : Opcode) : Bool :=
  op = .returnI64 || op = .returnF64 || op = .valueReturn

/-- The scan of the verifier from `index`, over the instructions left. -/
def verifyFrom (f : Function) : List Instruction → Nat → Bool → Diagnostic
  | [], index, hasReturn =>
    if hasReturn then ⟨.ok, 0, "ok"⟩ else ⟨.missingReturn, index, "function has no return"⟩
  | i :: rest, index, hasReturn =>
    match checkInstruction f i with
    | some (status, message) => ⟨status, index, message⟩
    | none => verifyFrom f rest (index + 1) (hasReturn || isReturn i.opcode)

/-- `TurboJS_IRVerify`, with the diagnostic it fills in. -/
def irVerify (f : Function) : Diagnostic :=
  if maxRegisters < f.registerCount then ⟨.invalidRegister, 0, "register limit exceeded"⟩
  else verifyFrom f f.instructions 0 false

theorem check_passed {α : Type} {c : Prop} [Decidable c] {x : α} {rest : Option α} :
    (if c then some x else rest) = none ↔ ¬ c ∧ rest = none := by
  split
  · rename_i hc
    simp [hc]
  · rename_i hc
    simp [hc]

theorem checkInstruction_target {f : Function} {i : Instruction} (h : checkInstruction f i = none)
    (hop : i.opcode = .jump ∨ i.opcode = .branchTrue ∨ i.opcode = .branchFalse) :
    i.target < f.instructions.length := by
  unfold checkInstruction at h
  rcases hop with hop | hop | hop
  · simp only [hop, check_passed] at h
    omega
  · simp only [hop, check_passed] at h
    omega
  · simp only [hop, check_passed] at h
    omega

theorem checkInstruction_status {f : Function} {i : Instruction} {s : Status} {m : String}
    (h : checkInstruction f i = some (s, m)) : s ≠ .ok := by
  unfold checkInstruction at h
  repeat' split at h
  all_goals simp only [Option.some.injEq, Prod.mk.injEq, reduceCtorEq] at h
  all_goals rw [← h.1]; simp

theorem verifyFrom_ok {f : Function} {is : List Instruction} {index : Nat} {hasReturn : Bool} :
    (verifyFrom f is index hasReturn).status = .ok ↔
      (∀ i ∈ is, checkInstruction f i = none) ∧
      (hasReturn = true ∨ ∃ i ∈ is, isReturn i.opcode = true) := by
  induction is generalizing index hasReturn with
  | nil => cases hasReturn <;> simp [verifyFrom]
  | cons i rest ih =>
    cases hc : checkInstruction f i with
    | none => simp [verifyFrom, hc, ih, or_assoc]
    | some p =>
      obtain ⟨s, m⟩ := p
      simp [verifyFrom, hc, checkInstruction_status hc]

theorem irVerify_ok {f : Function} :
    (irVerify f).status = .ok ↔
      f.registerCount ≤ maxRegisters ∧ (∀ i ∈ f.instructions, checkInstruction f i = none) ∧
      ∃ i ∈ f.instructions, isReturn i.opcode = true := by
  unfold irVerify
  split
  · rename_i h
    simp [Nat.not_le.mpr h]
  · rename_i h
    simp [verifyFrom_ok, Nat.not_lt.mp h]

end TurboJS.IR
