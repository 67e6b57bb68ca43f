import TurboJS.Frontend.Opcodes

namespace TurboJS.Frontend

open IR (Word Status Diagnostic ClutchCallSite maxRegisters clutchMaxArguments noRegister)

/-! `engine_bytecode_to_ir.c`: the translation of bytecode to the baseline IR. -/

inductive NumericMode where
  | int32 | float64
  deriving DecidableEq, Repr

inductive CallableLoadKind where
  | global | closure
  deriving DecidableEq, Repr

structure ResolvedSite where
  site : ClutchCallSite
  hasReceiver : Bool
  deriving DecidableEq, Repr

/-- `TurboJSEngineBytecodeInfo`. A resolver that answers nothing has not returned OK. The word
of a callable is the address of the reference that the translation owns. -/
structure EngineBytecodeInfo extends BytecodeInfo where
  argumentCount : Nat
  numericMode : NumericMode
  callResolver : Option (Nat → Nat → NumericMode → Option ResolvedSite)
  callableResolver : Option (Nat → CallableLoadKind → Nat → Option Word)
  methodPropertyResolver : Option (Nat → Nat → Option (Word × Nat × Word))

inductive Arithmetic where
  | add | sub | mul | div | mod | lt
  deriving DecidableEq, Repr

inductive BranchKind where
  | goto | ifTrue | ifFalse
  deriving DecidableEq, Repr

inductive Operation where
  | nop
  | pushI32 (n : Int)
  | getArg (index : Nat)
  | getLoc (index : Nat)
  | putLoc (index : Nat)
  | setLoc (index : Nat)
  | getField2 (atom : Nat)
  | callableLoad (kind : CallableLoadKind) (index : Nat)
  | arithmetic (op : Arithmetic)
  | branch (kind : BranchKind) (target : Int)
  | callMethod (argc : Nat) (tail : Bool)
  | call (argc : Nat)
  | ret
  | other
  deriving DecidableEq, Repr

def operation (code : List UInt8) (offset op : Nat) : Operation :=
  let p := offset + 1
  if op = 185 then .nop
  else if op = 1 then .pushI32 (signedAt code p 4)
  else if op = 90 then .getArg (unsignedAt code p 2)
  else if 216 ≤ op ∧ op ≤ 219 then .getArg (op - 216)
  else if op = 87 then .getLoc (unsignedAt code p 2)
  else if op = 200 then .getLoc (unsignedAt code p 1)
  else if 204 ≤ op ∧ op ≤ 207 then .getLoc (op - 204)
  else if op = 88 then .putLoc (unsignedAt code p 2)
  else if op = 201 then .putLoc (unsignedAt code p 1)
  else if 208 ≤ op ∧ op ≤ 211 then .putLoc (op - 208)
  else if op = 89 then .setLoc (unsignedAt code p 2)
  else if op = 202 then .setLoc (unsignedAt code p 1)
  else if 212 ≤ op ∧ op ≤ 215 then .setLoc (op - 212)
  else if op = 65 then .getField2 (unsignedAt code p 4)
  else if op = 55 ∨ op = 56 then .callableLoad .global (unsignedAt code p 4)
  else if op = 93 ∨ op = 100 then .callableLoad .closure (unsignedAt code p 2)
  else if 228 ≤ op ∧ op ≤ 231 then .callableLoad .closure (op - 228)
  else if op = 157 then .arithmetic .add
  else if op = 158 then .arithmetic .sub
  else if op = 154 then .arithmetic .mul
  else if op = 155 then .arithmetic .div
  else if op = 156 then .arithmetic .mod
  else if op = 166 then .arithmetic .lt
  else if op = Op.goto then .branch .goto (p + signedAt code p 4)
  else if op = Op.goto16 then .branch .goto (p + signedAt code p 2)
  else if op = Op.goto8 then .branch .goto (p + signedAt code p 1)
  else if op = Op.ifTrue then .branch .ifTrue (p + signedAt code p 4)
  else if op = Op.ifTrue8 then .branch .ifTrue (p + signedAt code p 1)
  else if op = Op.ifFalse then .branch .ifFalse (p + signedAt code p 4)
  else if op = Op.ifFalse8 then .branch .ifFalse (p + signedAt code p 1)
  else if op = Op.callMethod then .callMethod (unsignedAt code p 2) false
  else if op = Op.tailCallMethod then .callMethod (unsignedAt code p 2) true
  else if op = Op.call then .call (unsignedAt code p 2)
  else if Op.call0 ≤ op ∧ op ≤ Op.call0 + 3 then .call (op - Op.call0)
  else if op = Op.return then .ret
  else .other

/-- The instruction at an offset and the offset behind it, when its opcode is in the table and
its bytes lie inside the code. -/
def fetch (code : List UInt8) (offset : Nat) : Option (Nat × Nat) := do
  let byte ← code[offset]?
  let row ← opcodeInfo[byte.toNat]?
  if row.size = 0 ∨ code.length < offset + row.size then none
  else some (byte.toNat, offset + row.size)

structure StackEffect where
  popCount : Nat
  pushCount : Nat
  nextOffset : Nat
  branchTarget : Option Nat
  hasFallthrough : Bool
  deriving DecidableEq, Repr

/-- The counts of the table, which `set_loc` and the calls do not use. -/
def stackCounts (op : Nat) : Operation → Nat × Nat
  | .nop | .setLoc _ => (0, 0)
  | .pushI32 _ | .getArg _ | .getLoc _ | .callableLoad _ _ => (0, 1)
  | .putLoc _ | .ret => (1, 0)
  | .arithmetic _ => (2, 1)
  | .branch .goto _ => (0, 0)
  | .branch _ _ => (1, 0)
  | .call argc => ((argc + 1) % 65536, 1)
  | .getField2 _ | .callMethod _ _ | .other =>
    ((opcodeInfo.getD op ⟨0, 0, 0, .none⟩).pop, (opcodeInfo.getD op ⟨0, 0, 0, .none⟩).push)

def Operation.target : Operation → Option Int
  | .branch _ target => some target
  | _ => none

def Operation.fallsThrough : Operation → Bool
  | .branch .goto _ | .ret => false
  | _ => true

def engineStackEffect (code : List UInt8) (offset : Nat) : Except Status StackEffect :=
  if code.length ≤ offset then .error .invalidArgument
  else
    match fetch code offset with
    | none => .error .invalidOpcode
    | some (op, next) =>
      let o := operation code offset op
      let counts := stackCounts op o
      match o.target with
      | none => .ok ⟨counts.1, counts.2, next, none, o.fallsThrough⟩
      | some t =>
        if t < 0 ∨ code.length ≤ t then .error .invalidTarget
        else .ok ⟨counts.1, counts.2, next, some t.toNat, o.fallsThrough⟩

/-- What `analyze_stack_depths` works on: the depths found so far, the offsets that a branch
goes to, the worklist and the largest depth. -/
structure Analysis where
  depths : Nat → Option Nat
  branchTargets : Nat → Bool
  work : List Nat
  maximum : Nat

def mergeSuccessor (outDepth : Nat) (a : Analysis) (successor : Nat) :
    Except (Status × Nat) Analysis :=
  match a.depths successor with
  | none =>
    .ok { a with depths := Function.update a.depths successor (some outDepth),
                 work := a.work ++ [successor] }
  | some d => if d ≠ outDepth then .error (.unsupported, successor) else .ok a

def StackEffect.successors (e : StackEffect) (length : Nat) : List Nat :=
  e.branchTarget.toList ++ if e.hasFallthrough ∧ e.nextOffset < length then [e.nextOffset] else []

def analyzeOffset (code : List UInt8) (offset : Nat) (a : Analysis) :
    Except (Status × Nat) Analysis :=
  match engineStackEffect code offset with
  | .error status => .error (status, offset)
  | .ok e =>
    let depth := (a.depths offset).getD 0
    if depth < e.popCount then .error (.invalidOpcode, offset)
    else
      let outDepth := depth - e.popCount + e.pushCount
      (e.successors code.length).foldlM (mergeSuccessor outDepth)
        { a with maximum := max a.maximum outDepth,
                 branchTargets := fun o => a.branchTargets o || e.branchTarget == some o }

def analyzeOffsets (code : List UInt8) : Nat → Analysis → Except (Status × Nat) Analysis
  | 0, a => .ok a
  | fuel + 1, a =>
    match a.work with
    | [] => .ok a
    | offset :: rest => do
      let a ← analyzeOffset code offset { a with work := rest }
      analyzeOffsets code fuel a

def analyzeStackDepths (code : List UInt8) : Except (Status × Nat) Analysis :=
  analyzeOffsets code (code.length + 1)
    ⟨Function.update (fun _ => none) 0 (some 0), fun _ => false, [0], 0⟩

def truncated (offset : Nat) : Diagnostic :=
  ⟨.invalidOpcode, offset, "truncated engine bytecode operand"⟩

def stackUnderflow (offset : Nat) : Diagnostic :=
  ⟨.invalidOpcode, offset, "engine operand stack underflow"⟩

def stackOverflow (offset : Nat) : Diagnostic :=
  ⟨.invalidRegister, offset, "engine operand stack exceeds baseline limit"⟩

def registerLimit (offset : Nat) : Diagnostic :=
  ⟨.invalidRegister, offset, "engine bytecode requires too many IR registers"⟩

def invalidLocalIndex (offset : Nat) : Diagnostic :=
  ⟨.invalidRegister, offset, "engine bytecode local index is out of range"⟩

def invalidArgumentIndex (offset : Nat) : Diagnostic :=
  ⟨.invalidRegister, offset, "engine bytecode argument index is out of range"⟩

def unsupportedPropertyMethod (offset : Nat) : Diagnostic :=
  ⟨.unsupported, offset, "property method load lacks monomorphic shape feedback"⟩

def unsupportedCallableLoad (offset : Nat) : Diagnostic :=
  ⟨.unsupported, offset, "callable load lacks stable rooted CallableRef metadata"⟩

def unsupportedCall (offset : Nat) : Diagnostic :=
  ⟨.unsupported, offset, "call site lacks stable monomorphic Clutch metadata"⟩

def unsupportedNumericMode (offset : Nat) : Diagnostic :=
  ⟨.unsupported, offset, "numeric opcode is unsupported in selected specialization"⟩

def invalidBranchTarget (offset : Nat) : Diagnostic :=
  ⟨.invalidTarget, offset, "engine branch target is invalid"⟩

def incompatibleStackState (offset : Nat) : Diagnostic :=
  ⟨.unsupported, offset, "control-flow predecessors disagree on operand-stack depth"⟩

def analysisFailure : Status × Nat → Diagnostic
  | (.unsupported, offset) => incompatibleStackState offset
  | (.invalidTarget, offset) => invalidBranchTarget offset
  | (_, offset) => truncated offset

/-- What the translation loop works on. The operand stack, of registers, has its top first.
A fixup names a branch of the IR and the bytecode offset that it goes to. -/
structure Lowering where
  pc : Nat
  offset : Nat
  instructions : List IR.Instruction
  registerCount : Nat
  stack : List Nat
  methodShape : Nat → Word × Nat
  bytecodeToIR : Nat → Option Nat
  fixups : List (Nat × Nat)
  sawReturn : Bool
  fallthroughReachable : Bool

def Lowering.emit (st : Lowering) (is : List IR.Instruction) : Lowering :=
  { st with instructions := st.instructions ++ is }

/-- `spill_stack_to_locals`, from the bottom of the stack. -/
def spillStackToLocals (base offset : Nat) : List Nat → List IR.Instruction
  | [] => []
  | r :: rest =>
    spillStackToLocals base offset rest ++
      [{ opcode := .localSet, left := r, immediate := BitVec.ofNat 64 (base + rest.length),
         bytecodeOffset := offset }]

/-- The loads of `reload_stack_from_locals` into the registers from `first` on. -/
def reloadStackFromLocals (base offset first : Nat) : Nat → List IR.Instruction
  | 0 => []
  | n + 1 =>
    reloadStackFromLocals base offset first n ++
      [{ opcode := .localGet, destination := first + n, immediate := BitVec.ofNat 64 (base + n),
         bytecodeOffset := offset }]

/-- The registers of `n` reloaded entries, the top first. -/
def reloadedStack (first : Nat) : Nat → List Nat
  | 0 => []
  | n + 1 => (first + n) :: reloadedStack first n

/-- The start of an instruction in the loop: where branches meet, the operand stack goes
through the locals behind those of the source. -/
def openOffset (info : EngineBytecodeInfo) (a : Analysis) (st : Lowering) (depth : Nat) :
    Except Diagnostic Lowering :=
  let offset := st.pc
  let base := info.localCount
  if a.branchTargets offset then
    if st.fallthroughReachable ∧ st.stack.length ≠ depth then
      .error (incompatibleStackState offset)
    else
      let spilled :=
        if st.fallthroughReachable then st.emit (spillStackToLocals base offset st.stack) else st
      if maxRegisters < st.registerCount + depth then
        .error ⟨.invalidRegister, offset, "branch stack reload exceeds IR register limit"⟩
      else
        .ok { spilled with
          bytecodeToIR := Function.update st.bytecodeToIR offset (some spilled.instructions.length)
          instructions := spilled.instructions ++
            reloadStackFromLocals base offset st.registerCount depth
          registerCount := st.registerCount + depth
          stack := reloadedStack st.registerCount depth
          fallthroughReachable := true }
  else
    .ok { st with
      bytecodeToIR := Function.update st.bytecodeToIR offset (some st.instructions.length) }

/-- An instruction whose result goes to a new register and onto the stack `rest`. -/
def Lowering.produce (st : Lowering) (offset : Nat) (i : IR.Instruction) (rest : List Nat) :
    Except Diagnostic Lowering :=
  if maxRegisters ≤ st.registerCount then .error (registerLimit offset)
  else if maxRegisters ≤ rest.length then .error (stackOverflow offset)
  else
    .ok { st.emit [{ i with destination := st.registerCount, bytecodeOffset := offset }] with
      registerCount := st.registerCount + 1
      stack := st.registerCount :: rest }

def arithmeticOpcode : NumericMode → Arithmetic → Option IR.Opcode
  | .float64, .add => some .addF64
  | .float64, .sub => some .subF64
  | .float64, .mul => some .mulF64
  | .float64, .div => some .divF64
  | .float64, .mod | .float64, .lt => none
  | .int32, .add => some .addI32Checked
  | .int32, .sub => some .subI32Checked
  | .int32, .mul => some .mulI32Checked
  | .int32, .div => some .divI32Checked
  | .int32, .mod => some .remI32Checked
  | .int32, .lt => some .lessThanI64

def callOpcode : NumericMode → IR.Opcode
  | .int32 => .callNativeI64
  | .float64 => .callNativeF64

def returnOpcode : NumericMode → IR.Opcode
  | .int32 => .returnI64
  | .float64 => .returnF64

/-- A store to a local from the top of the stack, which stays when `keep` is set. -/
def lowerStore (info : EngineBytecodeInfo) (st : Lowering) (offset index : Nat) (keep : Bool) :
    Except Diagnostic Lowering :=
  if info.localCount ≤ index then .error (invalidLocalIndex offset)
  else
    match st.stack with
    | [] => .error (stackUnderflow offset)
    | top :: rest =>
      .ok { st.emit [{ opcode := .localSet, left := top, immediate := BitVec.ofNat 64 index,
                       bytecodeOffset := offset }] with
        stack := if keep then top :: rest else rest }

/-- `sizeof(fixups) / sizeof(fixups[0])`. -/
def maxFixups : Nat := maxRegisters * 4

def lowerBranch (info : EngineBytecodeInfo) (st : Lowering) (offset : Nat) (kind : BranchKind)
    (target : Int) : Except Diagnostic Lowering :=
  if target < 0 ∨ info.bytecode.length ≤ target then .error (invalidBranchTarget offset)
  else
    let finish (i : IR.Instruction) (rest : List Nat) : Except Diagnostic Lowering :=
      let spilled := st.emit (spillStackToLocals info.localCount offset rest)
      if maxFixups ≤ st.fixups.length then .error (registerLimit offset)
      else
        .ok { spilled.emit [i] with
          stack := rest
          fixups := st.fixups ++ [(spilled.instructions.length, target.toNat)]
          fallthroughReachable := st.fallthroughReachable && kind != .goto }
    match kind, st.stack with
    | .goto, rest => finish { opcode := .jump, bytecodeOffset := offset } rest
    | _, [] => .error (stackUnderflow offset)
    | .ifTrue, top :: rest =>
      finish { opcode := .branchTrue, left := top, bytecodeOffset := offset } rest
    | .ifFalse, top :: rest =>
      finish { opcode := .branchFalse, left := top, bytecodeOffset := offset } rest

/-- `TurboJS_ClutchCallSiteSetArgument` for the registers from `index` on. -/
def setArguments (site : ClutchCallSite) : Nat → List Nat → Option ClutchCallSite
  | _, [] => some site
  | index, r :: rest =>
    if site.argumentCount ≤ index ∨ clutchMaxArguments ≤ index ∨ r = noRegister then none
    else
      setArguments { site with argumentRegisters := site.argumentRegisters.setIfInBounds index r }
        (index + 1) rest

def setReceiver (s : ResolvedSite) (r : Nat) : Option ClutchCallSite :=
  let site := s.site
  if r = noRegister ∨ clutchMaxArguments ≤ site.argumentCount ∨ s.hasReceiver then none
  else
    some { site with
      argumentRegisters := Vector.ofFn fun k =>
        if k.val = 0 then r
        else if k.val ≤ site.argumentCount then
          site.argumentRegisters.toList.getD (k.val - 1) 0
        else site.argumentRegisters.toList.getD k.val 0
      receiverRegister := r
      argumentCount := site.argumentCount + 1 }

def lowerSite (info : EngineBytecodeInfo) (st : Lowering) (offset : Nat) (site : ClutchCallSite)
    (rest : List Nat) : Except Diagnostic Lowering :=
  st.produce offset
    { opcode := callOpcode info.numericMode, target := site.argumentCount, site := some site } rest

def lowerCall (info : EngineBytecodeInfo) (st : Lowering) (offset argc : Nat) :
    Except Diagnostic Lowering :=
  if clutchMaxArguments < argc ∨ st.stack.length < argc + 1 then .error (unsupportedCall offset)
  else
    match info.callResolver.bind fun resolve => resolve offset argc info.numericMode with
    | none => .error (unsupportedCall offset)
    | some s =>
      match setArguments s.site 0 (st.stack.take argc).reverse with
      | none => .error (unsupportedCall offset)
      | some site => lowerSite info st offset site (st.stack.drop (argc + 1))

/-- The site of a method call: the receiver becomes the first argument, and a method that was
loaded under a shape guard carries the guard over to the call. -/
def methodSite (st : Lowering) (s : ResolvedSite) (argc : Nat) : Option ClutchCallSite := do
  let method ← st.stack[argc]?
  let receiver ← st.stack[argc + 1]?
  let site ← setArguments s.site 0 (st.stack.take argc).reverse
  let site ← setReceiver { s with site } receiver
  let (identity, shapeOffset) := st.methodShape method
  if identity = 0 then some site
  else
    some { site with hasReceiverShapeGuard := true, receiverShapeIdentity := identity,
                     receiverShapeOffset := shapeOffset }

def lowerCallMethod (info : EngineBytecodeInfo) (st : Lowering) (offset argc : Nat)
    (tail : Bool) : Except Diagnostic Lowering :=
  if clutchMaxArguments < argc + 1 ∨ st.stack.length < argc + 2 then
    .error (unsupportedCall offset)
  else
    match info.callResolver.bind fun resolve => resolve offset argc info.numericMode with
    | none => .error (unsupportedCall offset)
    | some s =>
      match methodSite st s argc with
      | none => .error (unsupportedCall offset)
      | some site => do
        let st' ← lowerSite info st offset site (st.stack.drop (argc + 2))
        if tail then
          .ok { st'.emit [{ opcode := returnOpcode info.numericMode, destination := 0,
                            left := st.registerCount, bytecodeOffset := offset }] with
            stack := []
            sawReturn := true
            fallthroughReachable := false }
        else .ok st'

/-- `get_field2` with its method resolved: the shape that the resolver saw is kept for the
call. A shape without identity is no answer. -/
def lowerGetField2 (info : EngineBytecodeInfo) (st : Lowering) (offset atom : Nat) :
    Except Diagnostic Lowering :=
  match st.stack with
  | [] => .error (stackUnderflow offset)
  | _ :: _ =>
    match info.methodPropertyResolver.bind fun resolve => resolve offset atom with
    | none => .error (unsupportedPropertyMethod offset)
    | some (reference, shapeOffset, identity) =>
      if identity = 0 then .error (unsupportedPropertyMethod offset)
      else do
        let st' ← st.produce offset { opcode := .valueCallableConstant, immediate := reference }
          st.stack
        .ok { st' with
          methodShape := Function.update st.methodShape st.registerCount (identity, shapeOffset) }

def lowerArithmetic (info : EngineBytecodeInfo) (st : Lowering) (offset : Nat)
    (op : Arithmetic) : Except Diagnostic Lowering :=
  match st.stack with
  | right :: left :: rest =>
    if maxRegisters ≤ st.registerCount then .error (registerLimit offset)
    else
      match arithmeticOpcode info.numericMode op with
      | none => .error (unsupportedNumericMode offset)
      | some opcode => st.produce offset { opcode, left, right } rest
  | _ => .error (stackUnderflow offset)

def lowerHelper (info : EngineBytecodeInfo) (st : Lowering) (offset op : Nat) :
    Except Diagnostic Lowering :=
  if maxRegisters < st.registerCount + 3 then .error (registerLimit offset)
  else
    let r := st.registerCount
    .ok { st.emit
      [{ opcode := .constantI64, destination := r, left := 0, right := 0, bytecodeOffset := offset },
       { opcode := .constantI64, destination := r + 1, left := 0, right := 0,
         bytecodeOffset := offset },
       { opcode := .runtimeHelper, destination := r + 2, left := r, right := r + 1,
         immediate := BitVec.ofNat 64 op, bytecodeOffset := offset },
       { opcode := .returnI64, destination := 0, left := r + 2, right := 0,
         bytecodeOffset := offset }] with
      pc := info.bytecode.length
      registerCount := r + 3
      sawReturn := true
      fallthroughReachable := false }

def lowerOperation (info : EngineBytecodeInfo) (st : Lowering) (offset op : Nat) :
    Operation → Except Diagnostic Lowering
  | .nop => .ok st
  | .pushI32 n =>
    st.produce offset { opcode := .constantI64, immediate := BitVec.ofInt 64 n } st.stack
  | .getArg index =>
    if info.argumentCount ≤ index then .error (invalidArgumentIndex offset)
    else st.produce offset { opcode := .argument, immediate := BitVec.ofNat 64 index } st.stack
  | .getLoc index =>
    if info.localCount ≤ index then .error (invalidLocalIndex offset)
    else st.produce offset { opcode := .localGet, immediate := BitVec.ofNat 64 index } st.stack
  | .putLoc index => lowerStore info st offset index false
  | .setLoc index => lowerStore info st offset index true
  | .getField2 atom => lowerGetField2 info st offset atom
  | .callableLoad kind index =>
    match info.callableResolver.bind fun resolve => resolve offset kind index with
    | none => .error (unsupportedCallableLoad offset)
    | some reference =>
      st.produce offset { opcode := .valueCallableConstant, immediate := reference } st.stack
  | .arithmetic op => lowerArithmetic info st offset op
  | .branch kind target => lowerBranch info st offset kind target
  | .callMethod argc tail => lowerCallMethod info st offset argc tail
  | .call argc => lowerCall info st offset argc
  | .ret =>
    match st.stack with
    | [] => .error (stackUnderflow offset)
    | top :: _ =>
      .ok { st.emit [{ opcode := returnOpcode info.numericMode, left := top,
                       bytecodeOffset := offset }] with
        stack := []
        sawReturn := true
        fallthroughReachable := false }
  | .other => lowerHelper info st offset op

/-- One round of the loop. An offset without a depth is not reached and is skipped. The
operands of an offset with a depth lie inside the code, the analysis has found. -/
def lowerOffset (info : EngineBytecodeInfo) (a : Analysis) (st : Lowering) :
    Except Diagnostic Lowering :=
  let code := info.bytecode
  match a.depths st.pc with
  | none =>
    match engineStackEffect code st.pc with
    | .error _ => .error (truncated st.pc)
    | .ok e =>
      .ok { st with pc := e.nextOffset, offset := st.pc, fallthroughReachable := false }
  | some depth =>
    match fetch code st.pc with
    | none => .error (truncated st.pc)
    | some (op, next) => do
      let opened ← openOffset info a st depth
      lowerOperation info { opened with pc := next, offset := st.pc } st.pc op (operation code st.pc op)

def lowerOffsets (info : EngineBytecodeInfo) (a : Analysis) :
    Nat → Lowering → Except Diagnostic Lowering
  | 0, st => .ok st
  | fuel + 1, st =>
    if st.pc < info.bytecode.length then do
      let st ← lowerOffset info a st
      lowerOffsets info a fuel st
    else .ok st

/-- A branch gets the place of its target in the IR. A failure reports the offset that the
loop looked at last. -/
def applyFixup (st : Lowering) (bytecodeToIR : Nat → Option Nat) (is : List IR.Instruction)
    (fixup : Nat × Nat) : Except Diagnostic (List IR.Instruction) :=
  match bytecodeToIR fixup.2 with
  | none => .error (invalidBranchTarget st.offset)
  | some target => .ok (is.modify fixup.1 fun i => { i with target })

def Lowering.start : Lowering where
  pc := 0
  offset := 0
  instructions := []
  registerCount := 0
  stack := []
  methodShape := fun _ => (0, 0)
  bytecodeToIR := fun _ => none
  fixups := []
  sawReturn := false
  fallthroughReachable := true

def engineBytecodeToIR (info : EngineBytecodeInfo) : Except Diagnostic IR.Function :=
  let length := info.bytecode.length
  if maxRegisters < info.argumentCount ∨ maxRegisters < info.stackSize ∨
      maxRegisters < info.localCount + info.stackSize then
    .error ⟨.invalidRegister, 0, "engine bytecode exceeds baseline frame limits"⟩
  else
    match analyzeStackDepths info.bytecode with
    | .error e => .error (analysisFailure e)
    | .ok a =>
      if info.stackSize < a.maximum then .error (stackOverflow 0)
      else do
        let st ← lowerOffsets info a length .start
        if !st.sawReturn then
          .error ⟨.missingReturn, st.pc, "engine bytecode has no supported return"⟩
        else
          let bytecodeToIR :=
            Function.update st.bytecodeToIR length (some st.instructions.length)
          let instructions ← st.fixups.foldlM (applyFixup st bytecodeToIR) st.instructions
          let f : IR.Function :=
            { instructions, registerCount := st.registerCount, argumentCount := info.argumentCount,
              localCount := info.localCount + info.stackSize }
          if (IR.irVerify f).status = .ok then .ok f else .error (IR.irVerify f)

end TurboJS.Frontend
