import TurboJS.Foundation.Lanes

namespace TurboJS.OSR.Typed
open Foundation

/-! Loops over Float64Arrays: the kernels that run several elements at a time. -/

abbrev Byte := BitVec 8

abbrev Double := Element 8 Byte

def zeroDouble : Double := fun _ => 0

structure Operations where
  mul : Double → Double → Double
  add : Double → Double → Double
  div : Double → Double → Double
  ofInt : Int → Double
  toUint32 : Double → Nat
  finite : Double → Bool
  isZero : Double → Bool

structure Float64Array where
  pointer : Nat
  count : Nat
  deriving DecidableEq, Repr

inductive FrameValue where
  | reference (array : Option Float64Array)
  | int64 (n : Int)
  | float64 (d : Double)
  | other

def osrNumber (ops : Operations) : FrameValue → Option Double
  | .int64 n => some (ops.ofInt n)
  | .float64 d => some d
  | _ => none

def numberAt (ops : Operations) (frame : List FrameValue) (index : Nat) : Option Double :=
  frame[index]?.bind (osrNumber ops)

def FrameValue.float64Array : FrameValue → Option Float64Array
  | .reference array => array
  | _ => none

def FrameValue.int64? : FrameValue → Option Int
  | .int64 n => some n
  | _ => none

def referenceAt (frame : List FrameValue) (index : Nat) : Option (Option Float64Array) :=
  match frame[index]? with
  | some (.reference array) => some array
  | _ => none

def numberIf (ops : Operations) (frame : List FrameValue) (reads : Bool) (index : Nat) :
    Option Double :=
  if reads then numberAt ops frame index else some zeroDouble

def referenceIf (frame : List FrameValue) (reads : Bool) (index : Nat) :
    Option (Option Float64Array) :=
  if reads then referenceAt frame index else some none

def int64At (frame : List FrameValue) (index : Nat) : Option Int :=
  frame[index]?.bind FrameValue.int64?

structure Cpu where
  vectors : Bool
  avx2 : Bool
  deriving DecidableEq, Repr

inductive DenseMode where
  | affine | inplaceAffine | binaryAdd | copy | fill
  deriving DecidableEq, Repr

structure DenseProgram where
  mode : DenseMode
  inputLocal : Nat
  inputBLocal : Nat := 0
  outputLocal : Nat
  scaleLocal : Nat := 0
  offsetLocal : Nat := 0
  valueLocal : Nat := 0
  inductionLocal : Nat
  maximumElements : Nat := 1000000000
  deriving DecidableEq, Repr

def detectedProgram (mode : DenseMode) (inductionLocal : Nat) : DenseProgram :=
  match mode with
  | .affine =>
    { mode, inputLocal := 0, outputLocal := 1, scaleLocal := 2, offsetLocal := 3, inductionLocal }
  | .fill => { mode, inputLocal := 0, outputLocal := 0, valueLocal := 1, inductionLocal }
  | .inplaceAffine =>
    { mode, inputLocal := 0, outputLocal := 0, inputBLocal := 1, scaleLocal := 1, offsetLocal := 2,
      inductionLocal }
  | .binaryAdd =>
    { mode, inputLocal := 0, outputLocal := 2, inputBLocal := 1, scaleLocal := 1, offsetLocal := 2,
      inductionLocal }
  | .copy =>
    { mode, inputLocal := 0, outputLocal := 1, inputBLocal := 1, scaleLocal := 1, offsetLocal := 2,
      inductionLocal }

structure Layout where
  dst : Nat
  src : Nat
  srcB : Nat
  start : Nat
  count : Nat
  deriving DecidableEq, Repr

/-- The Float64Array branch of `turbojs_run_dense_array_transform`, once its guards have passed. -/
structure TransformRun where
  mode : DenseMode
  layout : Layout
  scale : Double
  offset : Double
  fill : Double

def admitFloat64 (p : DenseProgram) (input output : Float64Array) (inputB : Option Float64Array)
    (start : Nat) : Option Layout :=
  let count := input.count
  if count < start ∨ output.count < count ∨ p.maximumElements < count - start then none
  else if p.mode = .binaryAdd then
    match inputB with
    | none => none
    | some inputB =>
      if inputB.count < count then none
      else some ⟨output.pointer, input.pointer, inputB.pointer, start, count⟩
  else some ⟨output.pointer, input.pointer, 0, start, count⟩

/-- What `turbojs_run_dense_array_transform` checks and reads. The outer `none` is a bailout; the
inner one leaves the Float64Array branch. -/
def admitTransform (ops : Operations) (p : DenseProgram) (frame : List FrameValue) :
    Option (Option TransformRun) := do
  let input ← referenceAt frame p.inputLocal
  let output ← referenceAt frame p.outputLocal
  let index ← int64At frame p.inductionLocal
  let affine := p.mode = .affine || p.mode = .inplaceAffine
  let scale ← numberIf ops frame affine p.scaleLocal
  let offset ← numberIf ops frame affine p.offsetLocal
  let inputB ← referenceIf frame (p.mode = .binaryAdd) p.inputBLocal
  let fill ← numberIf ops frame (p.mode = .fill) p.valueLocal
  if index < 0 then none
  else
    match input, output with
    | some input, some output =>
      let layout ← admitFloat64 p input output inputB (index.toNat % 2 ^ 32)
      some (some ⟨p.mode, layout, scale, offset, fill⟩)
    | _, _ => some none

def TransformRun.op (ops : Operations) (r : TransformRun) (values : List Double) : Double :=
  match r.mode with
  | .binaryAdd => ops.add (values.getD 0 zeroDouble) (values.getD 1 zeroDouble)
  | .copy => values.getD 0 zeroDouble
  | .fill => r.fill
  | .affine | .inplaceAffine => ops.add (ops.mul (values.getD 0 zeroDouble) r.scale) r.offset

def TransformRun.sources (r : TransformRun) : List Nat :=
  match r.mode with
  | .binaryAdd => [r.layout.src, r.layout.srcB]
  | .fill => []
  | _ => [r.layout.src]

def TransformRun.loop (ops : Operations) (r : TransformRun) : ElementLoop Unit 8 Byte where
  sources := r.sources
  destination := r.layout.dst
  op _ values := r.op ops values
  note _ _ := ()

/-- The lanes of the vectors: `turbojs_f64_kernel_avx2` has four, `turbojs_f64_kernel_sse2` two. -/
def TransformRun.width (cpu : Cpu) (r : TransformRun) : Nat :=
  if r.mode ≠ .binaryAdd ∧ cpu.avx2 then 4 else 2

/-- `turbojs_f64_kernel_sse2` and `turbojs_f64_kernel_avx2`. -/
def f64Kernel (L : ElementLoop Unit 8 Byte) (width i count : Nat) (bytes : Nat → Byte) :
    Nat × Unit × (Nat → Byte) :=
  L.blocks width count (count - i) i ((), bytes)

def TransformRun.run (cpu : Cpu) (ops : Operations) (r : TransformRun) (bytes : Nat → Byte) :
    Nat → Byte :=
  let L := r.loop ops
  let (i, st) :=
    if cpu.vectors ∧ 8 ≤ r.layout.count - r.layout.start then
      f64Kernel L (r.width cpu) r.layout.start r.layout.count bytes
    else (r.layout.start, (), bytes)
  (L.scalar i (r.layout.count - i) st).2

/-- `turbojs_run_dense_array_transform` on Float64Arrays: the frame and the buffer on completion. -/
def runDenseArrayTransform (cpu : Cpu) (ops : Operations) (p : DenseProgram)
    (frame : List FrameValue) (bytes : Nat → Byte) :
    Option (Option (List FrameValue × (Nat → Byte))) :=
  (admitTransform ops p frame).map fun r => r.map fun r =>
    (frame.set p.inductionLocal (.int64 r.layout.count), r.run cpu ops bytes)

inductive SumMode where
  | affineSum | binaryBiasedDivSum
  deriving DecidableEq, Repr

structure SumProgram where
  mode : SumMode
  scale : Double
  offset : Double
  biasScale : Double
  divisorBase : Double
  divisorScale : Double
  indexMask : Nat
  outerMask : Nat
  maximumElements : Nat := 1000000000

structure SumFrame where
  array : FrameValue
  arrayB : FrameValue
  accumulator : FrameValue
  outer : FrameValue
  index : FrameValue

structure SumRun where
  mode : SumMode
  layout : Layout
  accumulator : Double
  divisor : Double

/-- What `turbojs_run_typed_array_affine_sum` checks and reads; `none` is a bailout. -/
def admitSum (ops : Operations) (p : SumProgram) (frame : SumFrame) : Option SumRun := do
  let array ← frame.array.float64Array
  let index ← frame.index.int64?
  let accumulator ← osrNumber ops frame.accumulator
  if index < 0 then none
  else
    let start := index.toNat % 2 ^ 32
    let count := array.count
    if count < start ∨ p.maximumElements < count - start then none
    else
      match p.mode with
      | .affineSum =>
        some ⟨p.mode, ⟨array.pointer, array.pointer, 0, start, count⟩, accumulator, zeroDouble⟩
      | .binaryBiasedDivSum => do
        let arrayB ← frame.arrayB.float64Array
        let outer ← osrNumber ops frame.outer
        let divisor := ops.add p.divisorBase
          (ops.mul (ops.ofInt (ops.toUint32 outer &&& p.outerMask : Nat)) p.divisorScale)
        if ops.finite divisor = false ∨ ops.isZero divisor ∨ arrayB.count < count then none
        else
          some ⟨p.mode, ⟨array.pointer, array.pointer, arrayB.pointer, start, count⟩, accumulator,
            divisor⟩

def SumRun.op (ops : Operations) (p : SumProgram) (r : SumRun) (i : Nat) (values : List Double) :
    Double :=
  match r.mode with
  | .affineSum => ops.add (ops.mul (values.getD 0 zeroDouble) p.scale) p.offset
  | .binaryBiasedDivSum =>
    ops.div
      (ops.add (ops.mul (values.getD 0 zeroDouble) (values.getD 1 zeroDouble))
        (ops.mul (ops.ofInt (i &&& p.indexMask : Nat)) p.biasScale))
      r.divisor

def SumRun.sources (r : SumRun) : List Nat :=
  match r.mode with
  | .affineSum => [r.layout.src]
  | .binaryBiasedDivSum => [r.layout.src, r.layout.srcB]

def SumRun.loop (ops : Operations) (p : SumProgram) (r : SumRun) : ElementLoop Double 8 Byte where
  sources := r.sources
  destination := r.layout.dst
  op := r.op ops p
  note := ops.add

/-- `turbojs_run_typed_array_affine_sum`: four elements a round, and then what is left. -/
def SumRun.run (ops : Operations) (p : SumProgram) (r : SumRun) (bytes : Nat → Byte) :
    Double × (Nat → Byte) :=
  let L := r.loop ops p
  let (i, st) := L.blocks 4 r.layout.count (r.layout.count - r.layout.start) r.layout.start
    (r.accumulator, bytes)
  L.scalar i (r.layout.count - i) st

end TurboJS.OSR.Typed
