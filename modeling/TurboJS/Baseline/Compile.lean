import TurboJS.Baseline.Machine

namespace TurboJS.Baseline

open IR Foundation

def slotDisp (slot : Nat) : Int := -8 * (slot + 1)

def localDisp (f : Function) (l : Nat) : Int := -8 * (f.registerCount + l + 1)

def callArgDisp (f : Function) (a : Nat) : Int :=
  -8 * (f.registerCount + f.localCount + clutchMaxArguments - a)

def loadSlot (r slot : Nat) : Op := .loadFrame r (slotDisp slot)
def storeSlot (slot r : Nat) : Op := .storeFrame (slotDisp slot) r

def wrap32 (d : Int) : Int := (BitVec.ofInt 32 d).toInt

def snapshotRegister (i : Nat) : List Op := [loadSlot 0 i, .storeBase 9 0 (1 + i)]

def snapshotLocal (f : Function) (i : Nat) : List Op :=
  [.loadFrame 0 (localDisp f i), .storeBase 9 0 (1 + (f.registerCount + i))]

def returnBailoutAt (f : Function) (k status : Nat) : List Op :=
  ([.movImm64 0 (BitVec.ofNat 64 k), .storeBase 9 0 0] : List Op) ++
    (List.range f.registerCount).flatMap snapshotRegister ++
    (List.range f.localCount).flatMap (snapshotLocal f) ++ ([.movEax status, .leaveRet] : List Op)

/-- A forward jump over `body`, patched when its end is known. -/
def skipIf (onEqual : Bool) (body : List Op) : List Op :=
  .jcc onEqual (wrap32 (extent Op.size body)) :: body

def emitSafepointPoll (f : Function) (k : Nat) : List Op :=
  .cmpSafepoint :: skipIf true (returnBailoutAt f k 4)

def checkI32 (f : Function) (k : Nat) : List Op :=
  ([.movsxdRcxEax, .cmp 0 1] : List Op) ++ skipIf true (returnBailoutAt f k 1)

/-- The part of `emit_divrem_checked` for a dividend of INT32_MIN and a divisor of -1. -/
def divremSpecial (f : Function) (k : Nat) (wantRemainder : Bool) (rest : List Op) : List Op :=
  if wantRemainder then [.xorEax, .jmp (wrap32 (extent Op.size rest))] else returnBailoutAt f k 3

def divremOperation (wantRemainder : Bool) : List Op :=
  ([.cqo, .idivRcx] : List Op) ++ if wantRemainder then [.movRR 0 2] else []

def emitDivremChecked (f : Function) (k : Nat) (wantRemainder : Bool) : List Op :=
  let operation := divremOperation wantRemainder
  let special := divremSpecial f k wantRemainder operation
  let checkDivisor :=
    ([.movImm64 2 (-1), .cmp 1 2] : List Op) ++ skipIf false special
  ([.test 1] : List Op) ++ skipIf false (returnBailoutAt f k 2) ++
    (([.movImm64 2 int32Min, .cmp 0 2] : List Op) ++ skipIf false checkDivisor) ++ operation

def emitReceiverGuard (f : Function) (k : Nat) (site : ClutchCallSite) : List Op :=
  if site.hasReceiverShapeGuard then
    [loadSlot 2 site.receiverRegister, .test 2] ++ skipIf false (returnBailoutAt f k 5) ++
      (([.loadBase 6 2 (.objectWord site.receiverShapeOffset),
        .movImm64 7 site.receiverShapeIdentity, .cmp 6 7] : List Op) ++
          skipIf true (returnBailoutAt f k 5))
  else []

def emitPublicationGuards (f : Function) (k : Nat) : List Op :=
  (([.movSite 0 k, .loadBase 1 0 .siteTarget, .test 1] : List Op) ++
    skipIf false (returnBailoutAt f k 5)) ++
    (([.loadBase 2 0 .siteGeneration, .loadBase 6 1 .handleGeneration, .cmp 2 6] : List Op) ++
      skipIf true (returnBailoutAt f k 5)) ++
    (([.loadBase 2 0 .siteKind, .movzxEdxDl, .loadBase 6 1 .handleKind, .movzxEsiSil,
      .cmp 2 6] : List Op) ++
      skipIf true (returnBailoutAt f k 5)) ++
    (([.loadBase 0 1 .handleFunction, .test 0] : List Op) ++ skipIf false (returnBailoutAt f k 5))

def passArgument (f : Function) (source : Nat × Nat) : List Op :=
  [loadSlot 2 source.1, .storeFrame (callArgDisp f source.2) 2]

def emitCallNative (f : Function) (k destination : Nat) (site : ClutchCallSite) : List Op :=
  emitReceiverGuard f k site ++ emitPublicationGuards f k ++
    site.arguments.zipIdx.flatMap (passArgument f) ++
    ([.push 8, .push 9, .push 10, .push 11, .leaFrame 7 (callArgDisp f 0),
      .leaFrame 6 (slotDisp destination), .loadBase 2 0 .nativeDeoptValues,
      .loadBase 1 0 .nativeSafepoint, .loadBase 0 0 .nativeCode, .callReg 0,
      .pop 11, .pop 10, .pop 9, .pop 8, .testEax] : List Op) ++ skipIf true (returnBailoutAt f k 5)

def binaryOps (i : Instruction) (op : Nat → Nat → Op) : List Op :=
  [loadSlot 0 i.left, loadSlot 1 i.right, op 0 1]

def binaryF64 (i : Instruction) (op : F64Op) : List Op :=
  [loadSlot 0 i.left, loadSlot 1 i.right, .movqXmmGpr 0 0, .movqXmmGpr 1 1, .scalarF64 op 0 1,
    .movqGprXmm 0 0, storeSlot i.destination 0]

def comparisonF64 (i : Instruction) (p : F64Predicate) : List Op :=
  [loadSlot 0 i.left, loadSlot 1 i.right, .movqXmmGpr 0 0, .movqXmmGpr 1 1, .compareF64 p 0 1,
    .movqGprXmm 0 0, .andEaxOne, storeSlot i.destination 0]

def backwardPoll (f : Function) (k target : Nat) : List Op :=
  if target ≤ k then emitSafepointPoll f k else []

/-- The code of the instruction at `k`; `disp` is what its branch is patched with. `none`
is an opcode that requires the interpreter. -/
def emitInstruction (f : Function) (k : Nat) (i : Instruction) (disp : Int) : Option (List Op) :=
  match i.opcode with
  | .nop => some [.nop]
  | .argument => some [.loadArg 0 i.immediate.toNat, storeSlot i.destination 0]
  | .constantI64 | .constantF64 => some [.movImm64 0 i.immediate, storeSlot i.destination 0]
  | .addI64 => some (binaryOps i .add ++ [storeSlot i.destination 0])
  | .subI64 => some (binaryOps i .sub ++ [storeSlot i.destination 0])
  | .mulI64 => some (binaryOps i .imul ++ [storeSlot i.destination 0])
  | .addI32Checked => some (binaryOps i .add ++ checkI32 f k ++ [storeSlot i.destination 0])
  | .subI32Checked => some (binaryOps i .sub ++ checkI32 f k ++ [storeSlot i.destination 0])
  | .mulI32Checked => some (binaryOps i .imul ++ checkI32 f k ++ [storeSlot i.destination 0])
  | .addF64 => some (binaryF64 i .add)
  | .subF64 => some (binaryF64 i .sub)
  | .mulF64 => some (binaryF64 i .mul)
  | .divF64 => some (binaryF64 i .div)
  | .lessThanF64 => some (comparisonF64 i .lessThan)
  | .lessEqualF64 => some (comparisonF64 i .lessEqual)
  | .equalF64 => some (comparisonF64 i .equal)
  | .i64ToF64 =>
    some [loadSlot 0 i.left, .cvtsi2sd 0 0, .movqGprXmm 0 0, storeSlot i.destination 0]
  | .f64ToI64Trunc =>
    some [loadSlot 0 i.left, .movqXmmGpr 0 0, .cvttsd2si 0 0, storeSlot i.destination 0]
  | .divI32Checked =>
    some ([loadSlot 0 i.left, loadSlot 1 i.right] ++ emitDivremChecked f k false ++
      [storeSlot i.destination 0])
  | .remI32Checked =>
    some ([loadSlot 0 i.left, loadSlot 1 i.right] ++ emitDivremChecked f k true ++
      [storeSlot i.destination 0])
  | .callNativeI64 | .callNativeF64 => i.site.map (emitCallNative f k i.destination)
  | .runtimeHelper => some (returnBailoutAt f k 5)
  | .lessThanI64 =>
    some (binaryOps i .cmp ++ ([.setlAl, .movzxRaxAl, storeSlot i.destination 0] : List Op))
  | .localGet =>
    some [.loadFrame 0 (localDisp f i.immediate.toNat), storeSlot i.destination 0]
  | .localSet =>
    some [loadSlot 0 i.left, .storeFrame (localDisp f i.immediate.toNat) 0]
  | .jump => some (backwardPoll f k i.target ++ ([.jmp disp] : List Op))
  | .branchTrue =>
    some (backwardPoll f k i.target ++ [loadSlot 0 i.left, .test 0, .jcc false disp])
  | .branchFalse =>
    some (backwardPoll f k i.target ++ [loadSlot 0 i.left, .test 0, .jcc true disp])
  | .returnI64 | .returnF64 => some [loadSlot 0 i.left, .storeAt 10 0, .xorEax, .leaveRet]
  | .valueArgument | .valueUndefined | .valueConstantI32 | .valueMove | .valueLocalGet
  | .valueLocalSet | .valueToBoolean | .valueCallableConstant | .valueCallI64 | .valueCallF64
  | .valueReturn => none

def isCallNative (i : Instruction) : Bool :=
  i.opcode = .callNativeI64 || i.opcode = .callNativeF64

def frameBytes (f : Function) : Nat :=
  let slots := f.registerCount + f.localCount +
    if f.instructions.any isCallNative then clutchMaxArguments else 0
  (slots * 8 + 15) / 16 * 16

def prologue (f : Function) : List Op :=
  [.enter (frameBytes f), .movRR 11 7, .movRR 10 6, .movRR 9 2, .movRR 8 1]

def instructionSize (f : Function) (k : Nat) (i : Instruction) : Nat :=
  ((emitInstruction f k i 0).map (extent Op.size)).getD 0

/-- `i_offsets[k]`. -/
def offsetOf (f : Function) (k : Nat) : Nat :=
  extent Op.size (prologue f) +
    ((f.instructions.zipIdx.take k).map fun p => instructionSize f p.2 p.1).sum

/-- The displacement that the second pass writes into the branch at `k`. -/
def branchDisp (f : Function) (k : Nat) (i : Instruction) : Int :=
  wrap32 (offsetOf f i.target - (offsetOf f k + instructionSize f k i))

/-- The code of `TurboJS_BaselineCompile`. -/
def baselineCode (f : Function) : Option (List Op) :=
  if (irVerify f).status ≠ .ok then none
  else do
    let body ← f.instructions.zipIdx.mapM fun p => emitInstruction f p.2 p.1 (branchDisp f p.2 p.1)
    some (prologue f ++ body.flatten)

end TurboJS.Baseline
