import TurboJS.Foundation.Layout
import TurboJS.Foundation.Run
import TurboJS.IR.Interpreter
import TurboJS.OSR.Entry

namespace TurboJS.OSR.Counted
open IR Foundation Entry

/-! Counted loops as native code: the kernel that is emitted, and the entry that runs it. -/

inductive LoopComparison where
  | lt | lte | gt | gte
  deriving DecidableEq, Repr

structure CountedLoopSpec where
  inductionLocal : Nat
  limitLocal : Nat
  accumulatorLocal : Nat
  step : BitVec 32
  loopHeader : BitVec 32
  resumeBytecodeOffset : BitVec 32
  maximumIterations : Word
  comparison : LoopComparison
  deriving DecidableEq, Repr

inductive Register where
  | rax | rcx | rdx
  deriving DecidableEq, Repr

/-- One machine operation for each emit helper, with the registers that it is used with. A local is
named by its index. -/
inductive Op where
  | frameToR8
  | localsToR9
  | load (d : Register) (index : Nat)
  | loadXmm0 (index : Nat)
  | cmpRaxRcx
  | exitUnless (c : LoopComparison) (disp : Int)
  | addRdxRax
  | addRaxImm (imm : BitVec 32)
  | cvtsi2sdXmm1Rax
  | addsdXmm0Xmm1
  | jmp (disp : Int)
  | store (index : Nat) (s : Register)
  | storeXmm0 (index : Nat)
  | xorEax
  | ret
  deriving DecidableEq, Repr

def Op.size : Op → Nat
  | .frameToR8 => 3
  | .localsToR9 | .load .. | .store .. => 7
  | .loadXmm0 _ | .storeXmm0 _ => 9
  | .cmpRaxRcx | .addRdxRax => 3
  | .exitUnless .. => 6
  | .addRaxImm _ => 7
  | .cvtsi2sdXmm1Rax | .addsdXmm0Xmm1 => 5
  | .jmp _ => 5
  | .xorEax => 2
  | .ret => 1

def loopKernel (head : List Op) (c : LoopComparison) (body tail : List Op) : List Op :=
  let loop := extent Op.size head
  let afterTest := loop + 9
  let done := afterTest + extent Op.size body + 5
  head ++ .cmpRaxRcx :: .exitUnless c (done - afterTest) :: body ++ .jmp (loop - done) :: tail

def int64Kernel (s : CountedLoopSpec) : List Op :=
  loopKernel
    [.frameToR8, .localsToR9, .load .rax s.inductionLocal, .load .rcx s.limitLocal,
      .load .rdx s.accumulatorLocal]
    s.comparison [.addRdxRax, .addRaxImm s.step]
    [.store s.inductionLocal .rax, .store s.accumulatorLocal .rdx, .xorEax, .ret]

def float64Kernel (s : CountedLoopSpec) : List Op :=
  loopKernel
    [.frameToR8, .localsToR9, .load .rax s.inductionLocal, .load .rcx s.limitLocal,
      .loadXmm0 s.accumulatorLocal]
    s.comparison [.cvtsi2sdXmm1Rax, .addsdXmm0Xmm1, .addRaxImm s.step]
    [.store s.inductionLocal .rax, .storeXmm0 s.accumulatorLocal, .xorEax, .ret]

/-- `turns` counts the jumps back. `r8` and `r9` say whether the pointers have been loaded. -/
structure Machine where
  pc : Int
  rax : Word
  rcx : Word
  rdx : Word
  xmm0 : Word
  xmm1 : Word
  compared : Word × Word
  r8 : Bool
  r9 : Bool
  locals : List OSRValue
  turns : Nat
  deriving DecidableEq, Repr

def Machine.get (m : Machine) : Register → Word
  | .rax => m.rax
  | .rcx => m.rcx
  | .rdx => m.rdx

def Machine.set (m : Machine) (r : Register) (w : Word) : Machine :=
  match r with
  | .rax => { m with rax := w }
  | .rcx => { m with rcx := w }
  | .rdx => { m with rdx := w }

def LoopComparison.holds (c : LoopComparison) (induction limit : Word) : Bool :=
  match c with
  | .lt => induction.slt limit
  | .lte => induction.sle limit
  | .gt => limit.slt induction
  | .gte => limit.sle induction

def setBits (locals : List OSRValue) (index : Nat) (w : Word) : List OSRValue :=
  locals.modify index fun v => { v with bits := w }

/-- One operation; `next` is the offset behind it. The end of the code is no step. -/
def Op.exec (env : Env) (op : Op) (m : Machine) (next : Int) : Option Machine :=
  match op with
  | .frameToR8 => some { m with pc := next, r8 := true }
  | .localsToR9 => if m.r8 then some { m with pc := next, r9 := true } else none
  | .load d index =>
    if m.r9 then m.locals[index]?.map fun v => { m.set d v.bits with pc := next } else none
  | .loadXmm0 index =>
    if m.r9 then m.locals[index]?.map fun v => { m with pc := next, xmm0 := v.bits } else none
  | .cmpRaxRcx => some { m with pc := next, compared := (m.rax, m.rcx) }
  | .exitUnless c disp =>
    some { m with pc := if c.holds m.compared.1 m.compared.2 then next else next + disp }
  | .addRdxRax => some { m with pc := next, rdx := m.rdx + m.rax }
  | .addRaxImm imm => some { m with pc := next, rax := m.rax + imm.signExtend 64 }
  | .cvtsi2sdXmm1Rax => some { m with pc := next, xmm1 := env.i64ToF64 m.rax }
  | .addsdXmm0Xmm1 => some { m with pc := next, xmm0 := env.addF64 m.xmm0 m.xmm1 }
  | .jmp disp => some { m with pc := next + disp, turns := m.turns + 1 }
  | .store index s =>
    if m.r9 ∧ index < m.locals.length then
      some { m with pc := next, locals := setBits m.locals index (m.get s) }
    else none
  | .storeXmm0 index =>
    if m.r9 ∧ index < m.locals.length then
      some { m with pc := next, locals := setBits m.locals index m.xmm0 }
    else none
  | .xorEax => some { m with pc := next, rax := 0 }
  | .ret => none

def stepMachine (env : Env) (code : List Op) (m : Machine) : Option Machine :=
  if 0 ≤ m.pc then (itemAt Op.size code m.pc.toNat).bind fun op => op.exec env m (m.pc + op.size)
  else none

def enterKernel (frame : OSRFrame) (registers : Register → Word) (xmm0 xmm1 : Word)
    (compared : Word × Word) : Machine :=
  ⟨0, registers .rax, registers .rcx, registers .rdx, xmm0, xmm1, compared, false, false,
    frame.locals, 0⟩

def Halts (env : Env) (code : List Op) (m m' : Machine) : Prop :=
  Runs (stepMachine env code) (fun _ => True) m m' ∧
    itemAt Op.size code m'.pc.toNat = some .ret ∧ 0 ≤ m'.pc ∧ m'.rax = 0

structure LoopProgram where
  spec : CountedLoopSpec
  code : List Op
  floatCode : List Op

def codeBufferSize : Nat := 256

/-- `TurboJS_OSRCompileCountedI64Loop`; `allocates` is whether there is executable memory. -/
def osrCompileCountedI64Loop (allocates : Bool) (spec : CountedLoopSpec) :
    Except Status LoopProgram :=
  if spec.step = 0 ∨ spec.maximumIterations = 0 then .error .invalidArgument
  else if extent Op.size (int64Kernel spec) ≤ codeBufferSize ∧
      extent Op.size (float64Kernel spec) ≤ codeBufferSize ∧ allocates then
    .ok ⟨spec, int64Kernel spec, float64Kernel spec⟩
  else .error .outOfMemory

/-- The iterations that `run_native_loop` counts on; `none` is a bailout. -/
def countIterations (s : CountedLoopSpec) (induction limit : Word) : Option Word :=
  if BitVec.slt 0 s.step then
    let step := s.step.setWidth 64
    match s.comparison with
    | .lt =>
      if limit.sle induction then some 0 else some ((limit - induction + step - 1) / step)
    | .lte =>
      if limit.slt induction then some 0 else some ((limit - induction) / step + 1)
    | _ => none
  else
    let step := ((-(s.step.signExtend 64)).setWidth 32).setWidth 64
    match s.comparison with
    | .gt =>
      if induction.sle limit then some 0 else some ((induction - limit + step - 1) / step)
    | .gte =>
      if induction.slt limit then some 0 else some ((induction - limit) / step + 1)
    | _ => none

/-- `TURBOJS_OSR_VALUE_INT64` and `TURBOJS_OSR_VALUE_FLOAT64`. -/
def kindInt64 : Int := 1
def kindFloat64 : Int := 2

/-- What `run_native_loop` decides before it calls the kernel: the number of iterations and the
code; `none` is a bailout. -/
def LoopProgram.prepare (p : LoopProgram) (frame : OSRFrame) : Option (Word × List Op) := do
  let induction ← frame.locals[p.spec.inductionLocal]?
  let limit ← frame.locals[p.spec.limitLocal]?
  let accumulator ← frame.locals[p.spec.accumulatorLocal]?
  if induction.kind ≠ kindInt64 ∨ limit.kind ≠ kindInt64 ∨
      (accumulator.kind ≠ kindInt64 ∧ accumulator.kind ≠ kindFloat64) ∨ p.spec.step = 0 then none
  else
    let iterations ← countIterations p.spec induction.bits limit.bits
    if p.spec.maximumIterations < iterations then none
    else some (iterations, if accumulator.kind = kindFloat64 then p.floatCode else p.code)

end TurboJS.OSR.Counted
