import TurboJS.IR.Interpreter

namespace TurboJS.IR

/-! The interpreter of tagged values, which calls through callable references. -/

/-- `TurboJSCallableReference`, without the environment of a closure. -/
structure CallableReference where
  targetIdentity : Word
  target : Option NativeEntryHandle
  expectedGeneration : Nat
  argumentCount : Nat
  expectedKind : EntryKind
  deriving DecidableEq, Repr

/-- The memory of the process, as far as callable values refer to it: the reference at an address,
`none` for a null pointer. -/
abbrev CallableMemory := Word → Option CallableReference

def CallableReference.isLive (reference : CallableReference) : Bool :=
  reference.targetIdentity != 0 &&
    match reference.target with
    | none => false
    | some target => reference.argumentCount == target.argumentCount &&
        target.isLive reference.expectedGeneration reference.expectedKind

/-- `TurboJSBoxedValue`: a tag with what the union holds under it; doubles as their bits. -/
inductive BoxedValue where
  | undefined
  | int32 (integer : Word)
  | int64 (integer : Word)
  | boolean (integer : Word)
  | float64 (bits : Word)
  | heapReference (reference : Word)
  | callableReference (callable : Word)
  deriving DecidableEq, Repr

def BoxedValue.number : BoxedValue → Option Word
  | int32 n | int64 n | float64 n => some n
  | _ => none

structure NativeCall where
  kind : EntryKind
  entry : NativeEntryHandle
  arguments : List Word
  deriving DecidableEq, Repr

/-- `TurboJS_NativeEntryInvokeI64` and its Float64 twin, down to `TurboJS_NativeInvoke`. -/
def nativeEntryInvoke (env : Env) (kind : EntryKind) (handle : NativeEntryHandle)
    (generation : Nat) (arguments : List Word) : Except Status Word :=
  if !handle.isLive generation kind then .error .unsupported
  else if arguments.length < handle.argumentCount then .error .invalidArgument
  else
    match handle.function with
    | none => .error .invalidArgument
    | some id =>
      if arguments.length < env.arity id then .error .invalidArgument
      else
        match env.native id (arguments.take (env.arity id)) with
        | none => .error .bailout
        | some v => .ok v

/-- `TurboJS_CallableReferenceInvokeI64` and its Float64 twin, with the call that is made. -/
def callableReferenceInvoke (env : Env) (kind : EntryKind) (reference : CallableReference)
    (arguments : List Word) : Except Status (Word × NativeCall) :=
  if reference.expectedKind ≠ kind then .error .invalidArgument
  else if !reference.isLive then .error .unsupported
  else
    match reference.target with
    | none => .error .unsupported
    | some target =>
      match nativeEntryInvoke env kind target reference.expectedGeneration arguments with
      | .error s => .error s
      | .ok v => .ok (v, ⟨kind, target, arguments⟩)

def taggedTruthy (env : Env) (mem : CallableMemory) : BoxedValue → Bool
  | .undefined => false
  | .boolean n | .int32 n | .int64 n => n != 0
  | .float64 b => !env.equalF64 b 0 && env.equalF64 b b
  | .heapReference p => p != 0
  | .callableReference p =>
    match mem p with
    | none => false
    | some reference => reference.isLive

structure TaggedFrame where
  registers : Nat → BoxedValue
  locals : Nat → BoxedValue

def TaggedFrame.undefined : TaggedFrame := ⟨fun _ => .undefined, fun _ => .undefined⟩

def TaggedFrame.setRegister (fr : TaggedFrame) (r : Nat) (v : BoxedValue) : TaggedFrame :=
  { fr with registers := Function.update fr.registers r v }

def TaggedFrame.setLocal (fr : TaggedFrame) (l : Nat) (v : BoxedValue) : TaggedFrame :=
  { fr with locals := Function.update fr.locals l v }

@[simp] theorem TaggedFrame.setRegister_registers (fr : TaggedFrame) (r : Nat) (v : BoxedValue) :
    (fr.setRegister r v).registers = Function.update fr.registers r v := rfl

@[simp] theorem TaggedFrame.setRegister_locals (fr : TaggedFrame) (r : Nat) (v : BoxedValue) :
    (fr.setRegister r v).locals = fr.locals := rfl

@[simp] theorem TaggedFrame.setLocal_registers (fr : TaggedFrame) (l : Nat) (v : BoxedValue) :
    (fr.setLocal l v).registers = fr.registers := rfl

@[simp] theorem TaggedFrame.setLocal_locals (fr : TaggedFrame) (l : Nat) (v : BoxedValue) :
    (fr.setLocal l v).locals = Function.update fr.locals l v := rfl

def integerArgument : BoxedValue → Option Word
  | .int32 n | .int64 n | .boolean n => some n
  | _ => none

def doubleArgument (env : Env) : BoxedValue → Option Word
  | .float64 b => some b
  | .int32 n | .int64 n => some (env.i64ToF64 n)
  | _ => none

def argumentRegisters (i : Instruction) : List Nat :=
  (List.range i.immediate.toNat).map (i.right + ·)

inductive TaggedEffect where
  | next (fr : TaggedFrame)
  | called (call : NativeCall) (fr : TaggedFrame)
  | goto (pc : Nat)
  | done (v : BoxedValue)
  | fail (s : Status)

def taggedCall (env : Env) (mem : CallableMemory) (f : Function) (i : Instruction)
    (kind : EntryKind) (argument : BoxedValue → Option Word) (result : Word → BoxedValue)
    (fr : TaggedFrame) : TaggedEffect :=
  match fr.registers i.left with
  | .callableReference p =>
    match mem p with
    | none => .fail .unsupported
    | some callable =>
      if clutchMaxArguments < i.immediate.toNat ∨
          f.registerCount < i.right + i.immediate.toNat then .fail .unsupported
      else
        match (argumentRegisters i).mapM fun r => argument (fr.registers r) with
        | none => .fail .unsupported
        | some arguments =>
          match callableReferenceInvoke env kind callable arguments with
          | .error s => .fail s
          | .ok (v, call) => .called call (fr.setRegister i.destination (result v))
  | _ => .fail .unsupported

/-- The body of the loop of `TurboJS_IRExecuteTagged`. -/
def taggedEffect (env : Env) (mem : CallableMemory) (f : Function) (arguments : List BoxedValue)
    (i : Instruction) (fr : TaggedFrame) : TaggedEffect :=
  let set (v : BoxedValue) : TaggedEffect := .next (fr.setRegister i.destination v)
  match i.opcode with
  | .nop => .next fr
  | .valueArgument => set (arguments.getD i.immediate.toNat .undefined)
  | .valueUndefined => set .undefined
  | .valueConstantI32 => set (.int32 ((i.immediate.setWidth 32).signExtend 64))
  | .valueMove => set (fr.registers i.left)
  | .valueLocalGet => set (fr.locals i.immediate.toNat)
  | .valueLocalSet => .next (fr.setLocal i.immediate.toNat (fr.registers i.left))
  | .valueToBoolean => set (.boolean (ofBool (taggedTruthy env mem (fr.registers i.left))))
  | .valueCallableConstant => set (.callableReference i.immediate)
  | .valueCallI64 => taggedCall env mem f i .int32 integerArgument .int64 fr
  | .valueCallF64 => taggedCall env mem f i .float64 (doubleArgument env) .float64 fr
  | .jump => .goto i.target
  | .branchTrue =>
    if taggedTruthy env mem (fr.registers i.left) then .goto i.target else .next fr
  | .branchFalse =>
    if taggedTruthy env mem (fr.registers i.left) then .next fr else .goto i.target
  | .valueReturn => .done (fr.registers i.left)
  | _ => .fail .unsupported

/-- The loop of `TurboJS_IRExecuteTagged`: the value that is returned and the calls that were made
on the way; `steps` counts down from the step limit. -/
def taggedFrom (env : Env) (mem : CallableMemory) (f : Function) (arguments : List BoxedValue) :
    Nat → TaggedFrame → Nat → Except Status (BoxedValue × List NativeCall)
  | steps, fr, pc =>
    match f.instructions[pc]?, steps with
    | none, _ => .error .missingReturn
    | some _, 0 => .error .executionLimit
    | some i, steps + 1 =>
      match taggedEffect env mem f arguments i fr with
      | .next fr' => taggedFrom env mem f arguments steps fr' (pc + 1)
      | .called call fr' =>
        match taggedFrom env mem f arguments steps fr' (pc + 1) with
        | .error s => .error s
        | .ok (v, calls) => .ok (v, call :: calls)
      | .goto pc' => taggedFrom env mem f arguments steps fr pc'
      | .done v => .ok (v, [])
      | .fail s => .error s

/-- `TurboJS_IRExecuteTagged`, when the two arrays are allocated. -/
def executeTagged (env : Env) (mem : CallableMemory) (f : Function)
    (arguments : List BoxedValue) : Except Status (BoxedValue × List NativeCall) :=
  if arguments.length ≠ f.argumentCount then .error .invalidArgument
  else if (irVerify f).status ≠ .ok then .error (irVerify f).status
  else taggedFrom env mem f arguments (stepLimit f) .undefined 0

def nativeCall (i : Instruction) (fr : Frame) : List NativeCall :=
  match i.opcode, i.site with
  | .callNativeI64, some site | .callNativeF64, some site =>
    match site.target with
    | none => []
    | some target => [⟨site.expectedKind, target, site.arguments.map fr.registers⟩]
  | _, _ => []

/-- The calls that `execute_from` makes. -/
def callsFrom (env : Env) (f : Function) : Nat → Frame → Nat → List NativeCall
  | steps, fr, pc =>
    match f.instructions[pc]?, steps with
    | none, _ => []
    | some _, 0 => []
    | some i, steps + 1 =>
      if !localsInBounds i then []
      else
        nativeCall i fr ++
          match effect env f i fr with
          | .next fr' => callsFrom env f steps fr' (pc + 1)
          | .goto pc' fr' => callsFrom env f steps fr' pc'
          | _ => []

/-- The calls of `TurboJS_IRExecute`. -/
def executeCalls (env : Env) (f : Function) (arguments : List Word) : List NativeCall :=
  let (fr, pc) := loadArguments arguments f.instructions .zero 0
  callsFrom env f (stepLimit f) fr pc

end TurboJS.IR
