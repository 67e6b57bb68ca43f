import TurboJS.IR.Interpreter

namespace TurboJS.IR

/-! What the interpreters access: every array element, division and shift of a run, in order. A run
ends with the first access that C gives no meaning. -/

inductive ArrayName where
  | instructions | registers | locals | arguments | siteRegisters | callArguments
  | frameRegisters | frameLocals | registerKinds | localKinds | helpers | boxed
  deriving DecidableEq, Repr

inductive Access where
  | index (array : ArrayName) (i size : Nat)
  | divide (left right : Word)
  | shift (amount : Nat)
  deriving DecidableEq, Repr

def int64Min : Word := BitVec.intMin 64

def Access.safe : Access → Bool
  | .index _ i size => i < size
  | .divide left right => right ≠ 0 && !(left = int64Min && right = -1)
  | .shift amount => amount < 64

def andThen (before after : List Access) : List Access :=
  if before.all Access.safe then before ++ after else before

/-- The accesses of a native call once its site is known to be there. The interpreter leaves the
loop over the arguments at the first register that is none of the function's. -/
def siteAccesses (f : Function) (i : Instruction) (site : ClutchCallSite)
    (register : Nat → Access) : List Access :=
  if clutchMaxArguments < site.argumentCount then []
  else
    let sources := site.arguments.takeWhile (validRegister f)
    ((List.range site.argumentCount).take (sources.length + 1)).map
        (Access.index .siteRegisters · clutchMaxArguments) ++
      sources.map register ++
      (List.range sources.length).map (Access.index .callArguments · clutchMaxArguments) ++
      if site.arguments.all (validRegister f) then [register i.destination] else []

def instructionAccesses (f : Function) (registers locals : Nat) (i : Instruction) (fr : Frame) :
    List Access :=
  let register (r : Nat) : Access := .index .registers r registers
  let l := fr.registers i.left
  let r := fr.registers i.right
  let checked (value : Word) : List Access :=
    [register i.left, register i.right] ++
      if fitsInt32 value then [register i.destination] else []
  match i.opcode with
  | .nop | .argument | .runtimeHelper | .jump => []
  | .constantI64 | .constantF64 => [register i.destination]
  | .addI64 | .subI64 | .mulI64 | .addF64 | .subF64 | .mulF64 | .divF64
  | .lessThanF64 | .lessEqualF64 | .equalF64 | .lessThanI64 =>
    [register i.left, register i.right, register i.destination]
  | .i64ToF64 | .f64ToI64Trunc => [register i.left, register i.destination]
  | .addI32Checked => checked (l + r)
  | .subI32Checked => checked (l - r)
  | .mulI32Checked => checked (l * r)
  | .divI32Checked =>
    [register i.left, register i.right] ++
      if r = 0 ∨ (l = int32Min ∧ r = -1) then [] else [.divide l r, register i.destination]
  | .remI32Checked =>
    [register i.left, register i.right] ++
      if r = 0 then [] else [.divide l r, register i.destination]
  | .callNativeI64 | .callNativeF64 =>
    match i.site with
    | none => []
    | some site => siteAccesses f i site register
  | .localGet => [.index .locals i.immediate.toNat locals, register i.destination]
  | .localSet => [register i.left, .index .locals i.immediate.toNat locals]
  | .branchTrue | .branchFalse | .returnI64 | .returnF64 => [register i.left]
  | .valueArgument | .valueUndefined | .valueConstantI32 | .valueMove | .valueLocalGet
  | .valueLocalSet | .valueToBoolean | .valueCallableConstant | .valueCallI64 | .valueCallF64
  | .valueReturn => []

/-- The accesses of `execute_from`, whose arrays have 64 elements each. -/
def accessesFrom (env : Env) (f : Function) : Nat → Frame → Nat → List Access
  | steps, fr, pc =>
    match f.instructions[pc]?, steps with
    | none, _ => []
    | some _, 0 => []
    | some i, steps + 1 =>
      andThen (.index .instructions pc f.instructions.length ::
          instructionAccesses f maxRegisters maxRegisters i fr)
        (match effect env f i fr with
          | .next fr' => accessesFrom env f steps fr' (pc + 1)
          | .goto pc' fr' => accessesFrom env f steps fr' pc'
          | _ => [])

def argumentAccesses (f : Function) (argumentCount : Nat) : List Instruction → Nat → List Access
  | [], _ => []
  | i :: rest, pc =>
    .index .instructions pc f.instructions.length ::
      if i.opcode = .argument then
        andThen [.index .arguments i.immediate.toNat argumentCount,
          .index .registers i.destination maxRegisters] (argumentAccesses f argumentCount rest (pc + 1))
      else []

/-- The accesses of `TurboJS_IRExecute`. -/
def executeAccesses (env : Env) (f : Function) (arguments : List Word) : List Access :=
  if arguments.length < f.argumentCount then []
  else if (irVerify f).status ≠ .ok then []
  else
    let (fr, pc) := loadArguments arguments f.instructions .zero 0
    andThen (argumentAccesses f arguments.length f.instructions 0)
      (accessesFrom env f (stepLimit f) fr pc)

/-- `TurboJSDeoptFrame`, with the values and the number of the kinds that its pointers lead to. -/
structure DeoptFrame where
  reason : BailoutReason
  instructionIndex : Nat
  registerCount : Nat
  localCount : Nat
  registerMask : Word
  localMask : Word
  registerValues : List Word
  localValues : List Word
  registerKinds : Nat
  localKinds : Nat

structure DeoptFrame.Valid (frame : DeoptFrame) : Prop where
  registerValues : frame.registerCount ≤ frame.registerValues.length
  localValues : frame.localCount ≤ frame.localValues.length
  registerKinds : frame.registerCount ≤ frame.registerKinds
  localKinds : frame.localCount ≤ frame.localKinds

def restoreAccesses (count : Nat) (mask : Word) (source : ArrayName) (sourceSize : Nat)
    (target : ArrayName) (targetSize : Nat) : List Access :=
  (List.range count).flatMap fun i =>
    .shift i :: if mask.getLsbD i then
      [.index source i sourceSize, .index target i targetSize] else []

def restoreFrameAccesses (f : Function) (frame : DeoptFrame) (registers locals : Nat) :
    List Access :=
  andThen
    (restoreAccesses f.registerCount frame.registerMask .frameRegisters
      frame.registerValues.length .registers registers)
    (restoreAccesses f.localCount frame.localMask .frameLocals frame.localValues.length
      .locals locals)

def DeoptFrame.restore (frame : DeoptFrame) (fr : Frame) : Frame where
  registers r := if r < frame.registerCount ∧ frame.registerMask.getLsbD r then
    frame.registerValues.getD r 0 else fr.registers r
  locals l := if l < frame.localCount ∧ frame.localMask.getLsbD l then
    frame.localValues.getD l 0 else fr.locals l

def resumes (f : Function) (frame : DeoptFrame) : Bool :=
  frame.reason ≠ .none ∧ frame.instructionIndex < f.instructions.length ∧
    (irVerify f).status = .ok ∧ frame.registerCount = f.registerCount ∧
    frame.localCount = f.localCount

def resumable (op : Opcode) : Bool :=
  op = .addI32Checked || op = .subI32Checked || op = .mulI32Checked || op = .divI32Checked ||
    op = .remI32Checked || op = .runtimeHelper || op = .callNativeI64

/-- The accesses of `TurboJS_IRResumeAfterBailout`. -/
def resumeAccesses (env : Env) (f : Function) (frame : DeoptFrame) (slowPathResult : Word) :
    List Access :=
  if !resumes f frame then []
  else
    andThen (restoreFrameAccesses f frame maxRegisters maxRegisters)
      (match f.instructions[frame.instructionIndex]? with
        | none => []
        | some failed =>
          .index .instructions frame.instructionIndex f.instructions.length ::
            if resumable failed.opcode then
              andThen [.index .registers failed.destination maxRegisters]
                (accessesFrom env f (stepLimit f)
                  ((frame.restore .zero).setRegister failed.destination slowPathResult)
                  (frame.instructionIndex + 1))
            else [])

def runtimeHelperLimit : Nat := 256

/-- How the native code for what follows a helper call ends: it cannot be had, it returns or fails,
it bails out, or it bails out for another helper with a frame, `offset` instructions further on. -/
inductive Continuation where
  | unsupported
  | finished
  | bailout
  | helper (offset : Nat) (frame : DeoptFrame)

structure HelperAnswers where
  /-- The status or the value of a helper; `none` if there is no callback for it. -/
  helper : Nat → Frame → Option (Except Status Word)
  continuation : Nat → Frame → Continuation

/-- The accesses of the loop of `TurboJS_BoxDeoptFrameRooted` over one array, all of whose
elements are materialized as far as the mask of 64 bits goes. -/
def boxAccesses (count : Nat) (values : ArrayName) (size : Nat) (kinds : ArrayName)
    (kindCount : Nat) : List Access :=
  (List.range count).flatMap fun i =>
    .shift i :: if i < 64 then
      [.index values i size, .index kinds i kindCount, .index .boxed i count] else []

/-- The accesses of `TurboJS_RuntimeHelperInvokeAt` for a helper that has a callback. -/
def boxFrameAccesses (f : Function) (frame : DeoptFrame) : List Access :=
  andThen (boxAccesses f.registerCount .registers (max f.registerCount 1) .registerKinds
      frame.registerKinds)
    (boxAccesses f.localCount .locals (max f.localCount 1) .localKinds frame.localKinds)

/-- The opcodes that the loop of `TurboJS_IRResumeWithRuntimeHelpers` runs like `execute_from`. -/
def runsWithHelpers (op : Opcode) : Bool :=
  op = .nop || op = .constantI64 || op = .constantF64 || op = .addI64 || op = .subI64 ||
    op = .mulI64 || op = .lessThanI64 || op = .localGet || op = .localSet || op = .jump ||
    op = .branchTrue || op = .branchFalse || op = .returnI64 || op = .returnF64

/-- The accesses of `execute_clutch_call`. -/
def clutchCallAccesses (f : Function) (i : Instruction) : List Access :=
  match i.site with
  | none => []
  | some site =>
    if clutchMaxArguments < site.argumentCount then []
    else
      (List.range site.argumentCount).map (Access.index .siteRegisters · clutchMaxArguments) ++
        site.arguments.map (Access.index .registers · (max f.registerCount 1)) ++
        (List.range site.argumentCount).map (Access.index .callArguments · clutchMaxArguments) ++
        [.index .registers i.destination (max f.registerCount 1)]

def buildArgumentsAccesses (f : Function) : List Access :=
  (List.range f.registerCount).map (Access.index .registers · (max f.registerCount 1)) ++
    (List.range f.localCount).map (Access.index .locals · (max f.localCount 1))

/-- The accesses of the loop of `TurboJS_IRResumeWithRuntimeHelpers`. -/
def helperAccessesFrom (env : Env) (f : Function) (kinds : DeoptFrame) (answers : HelperAnswers) :
    Nat → Frame → Nat → List Access
  | steps, fr, pc =>
    match f.instructions[pc]?, steps with
    | none, _ => []
    | some _, 0 => [.index .instructions pc f.instructions.length]
    | some i, steps + 1 =>
      .index .instructions pc f.instructions.length ::
        if i.opcode = .runtimeHelper then
          if runtimeHelperLimit ≤ i.immediate.toNat then []
          else
            .index .helpers i.immediate.toNat runtimeHelperLimit ::
              match answers.helper steps fr with
              | none => []
              | some (.error _) => boxFrameAccesses f kinds
              | some (.ok v) =>
                let fr := fr.setRegister i.destination v
                andThen (boxFrameAccesses f kinds)
                  (andThen (.index .registers i.destination (max f.registerCount 1) ::
                      buildArgumentsAccesses f)
                    (match answers.continuation steps fr with
                      | .unsupported | .bailout =>
                        helperAccessesFrom env f kinds answers steps fr (pc + 1)
                      | .finished => []
                      | .helper offset frame =>
                        if pc + 1 + offset < f.instructions.length then
                          andThen (restoreFrameAccesses f frame (max f.registerCount 1)
                              (max f.localCount 1))
                            (helperAccessesFrom env f kinds answers steps (frame.restore fr)
                              (pc + 1 + offset))
                        else []))
        else if i.opcode = .callNativeI64 then
          andThen (clutchCallAccesses f i)
            (match effect env f i fr with
              | .next fr' => helperAccessesFrom env f kinds answers steps fr' (pc + 1)
              | _ => [])
        else if runsWithHelpers i.opcode then
          andThen (instructionAccesses f (max f.registerCount 1) (max f.localCount 1) i fr)
            (match effect env f i fr with
              | .next fr' => helperAccessesFrom env f kinds answers steps fr' (pc + 1)
              | .goto pc' fr' => helperAccessesFrom env f kinds answers steps fr' pc'
              | _ => [])
        else []

/-- The accesses of `TurboJS_IRResumeWithRuntimeHelpers`, when its allocations succeed. -/
def resumeWithHelpersAccesses (env : Env) (f : Function) (frame : DeoptFrame)
    (answers : HelperAnswers) : List Access :=
  if !(resumes f frame ∧ frame.reason = .runtimeHelper) then []
  else
    andThen (restoreFrameAccesses f frame (max f.registerCount 1) (max f.localCount 1))
      (helperAccessesFrom env f frame answers (stepLimit f) (frame.restore .zero)
        frame.instructionIndex)

end TurboJS.IR
