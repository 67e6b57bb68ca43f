import TurboJS.OSR.Code
import TurboJS.Bytecode.Heap

namespace TurboJS.OSR
open Bytecode

/-! The detectors and the runner of the array loops, on fast arrays. -/

inductive ArrayMode where
  | sum | initIndex | holeySum
  deriving DecidableEq, Repr

structure ArrayProgram where
  mode : ArrayMode
  arraySlot : Slot
  accumulatorSlot : Slot
  limit : Int
  limitSlot : Option Slot
  induction : Nat
  int32Wrap : Bool
  resume : Nat
  deriving DecidableEq, Repr

structure LengthHeader where
  induction : Nat
  arraySlot : Slot
  resume : Int
  body : Nat
  deriving Repr

/-- `i < array.length`, else to `resume`. -/
def parseLengthHeader (branch : Nat → Option (Int × Nat)) (b : FunctionBytecode) (p : Nat) :
    Option LengthHeader := do
  let (induction, p) ← parseInduction b p
  let (arraySlot, p) ← parseGetDenseSlot b p
  let p ← expectAll b [.plain .getLength, .plain .lt] p
  let (resume, p) ← branch p
  some ⟨induction, arraySlot, resume, p⟩

/-- The back edge stands at `source` and leads to `target`; the loop goes on behind itself or
before itself, inside the code. -/
def parseBackEdge8 (b : FunctionBytecode) (target source p : Nat) : Option Unit := do
  if p = source then
    let _ ← expect b (.goto target .w8) p
    some ()
  else none

def validLoop (b : FunctionBytecode) (resume : Int) (induction : Nat) : Bool :=
  0 ≤ resume ∧ resume ≤ b.code.length ∧ induction < b.varCount

def validOffsets (b : FunctionBytecode) (target source : Nat) : Bool :=
  target < source ∧ source < b.code.length

/-- `| 0`, where it stands. -/
def parseWrap (b : FunctionBytecode) (p : Nat) : Bool × Nat :=
  match expectAll b [.pushShort 0, .plain .or] p with
  | some q => (true, q)
  | none => (false, p)

/-- `sum += array[i]`, with or without `| 0`. -/
def detectDenseArraySumLoop (b : FunctionBytecode) (target source : Nat) :
    Option ArrayProgram := do
  if validOffsets b target source then
    let header ← parseLengthHeader (parseIfFalse8 b) b target
    let (accumulatorSlot, p) ← parseGetDenseSlot b header.body
    let p ← parseGetDenseSlotOf b header.arraySlot p
    let p ← expectAll b [.get ⟨.local, header.induction⟩ .check, .plain .getArrayEl,
      .plain .add] p
    let (int32Wrap, p) := parseWrap b p
    let p ← expectAll b [.plain .dup] p
    let p ← parsePutDenseSlot b p accumulatorSlot
    let p ← expectAll b (.plain .drop :: increment header.induction) p
    parseBackEdge8 b target source p
    if validLoop b header.resume header.induction then
      some ⟨.sum, header.arraySlot, accumulatorSlot, 0, none, header.induction, int32Wrap,
        header.resume.toNat⟩
    else none
  else none

def parseInitLimit (b : FunctionBytecode) (p : Nat) : Option (Int × Option Slot × Nat) :=
  match decode b.code p with
  | some (.pushInt n .w32, q) => some (n, none, q)
  | _ => (parseGetDenseSlot b p).map fun r => (0, some r.1, r.2)

/-- `if_true8`, whose target the detector skips. -/
def parseIfTrue8 (b : FunctionBytecode) (p : Nat) : Option Nat :=
  match decode b.code p with
  | some (.ifTrue _ .w8, q) => some q
  | _ => none

/-- `array[i] = i`. -/
def detectDenseArrayInitLoop (b : FunctionBytecode) (target source : Nat) :
    Option ArrayProgram := do
  if validOffsets b target source then
    let (induction, p) ← parseInduction b target
    let (limit, limitSlot, p) ← parseInitLimit b p
    let p ← expectAll b [.plain .lt] p
    let (resume, p) ← parseIfFalse8 b p
    let (arraySlot, p) ← parseGetDenseSlot b p
    let p ← expectAll b [.get ⟨.local, induction⟩ .check, .plain .swap, .plain .dup,
      .plain .isUndefinedOrNull] p
    let p ← parseIfTrue8 b p
    let p ← expectAll b ([.plain .swap, .plain .toPropkey, .plain .swap, .plain .swap,
      .get ⟨.local, induction⟩ .check, .plain .swap, .plain .toPropkey, .plain .swap,
      .plain .putArrayEl] ++ increment induction) p
    parseBackEdge8 b target source p
    if validLoop b resume induction ∧ (limitSlot = none → 0 ≤ limit) then
      some ⟨.initIndex, arraySlot, ⟨.local, 0⟩, limit, limitSlot, induction, false,
        resume.toNat⟩
    else none
  else none

/-- `if (array[i] !== undefined) sum = (sum + array[i]) | 0`. -/
def detectHoleyArraySumLoop (b : FunctionBytecode) (target source : Nat) :
    Option ArrayProgram := do
  if validOffsets b target source then
    let header ← parseLengthHeader (parseIfFalse8 b) b target
    let p ← parseGetDenseSlotOf b header.arraySlot header.body
    let p ← expectAll b [.get ⟨.local, header.induction⟩ .check, .plain .getArrayEl,
      .getVar atomUndefined, .plain .strictNeq] p
    let (skip, p) ← parseIfFalse8 b p
    let (accumulatorSlot, p) ← parseGetDenseSlot b p
    let p ← parseGetDenseSlotOf b header.arraySlot p
    let p ← expectAll b [.get ⟨.local, header.induction⟩ .check, .plain .getArrayEl, .plain .add,
      .pushShort 0, .plain .or, .plain .dup] p
    let p ← parsePutDenseSlot b p accumulatorSlot
    let p ← expectAll b [.plain .drop] p
    if (p : Int) = skip then
      let p ← expectAll b (increment header.induction) p
      parseBackEdge8 b target source p
      if validLoop b header.resume header.induction then
        some ⟨.holeySum, header.arraySlot, accumulatorSlot, 0, none, header.induction, true,
          header.resume.toNat⟩
      else none
    else none
  else none

def detectArrayLoop (b : FunctionBytecode) (target source : Nat) : Option ArrayProgram :=
  (detectDenseArraySumLoop b target source <|> detectDenseArrayInitLoop b target source) <|>
    detectHoleyArraySumLoop b target source

def maximumElements : Nat := 1000000000

def i64AddChecked (x y : Int) : Option Int :=
  if -2 ^ 63 ≤ x + y ∧ x + y < 2 ^ 63 then some (x + y) else none

structure Lanes where
  lane0 : Int
  lane1 : Int
  lane2 : Int
  lane3 : Int
  deriving DecidableEq, Repr

def Lanes.add (l : Lanes) (x0 x1 x2 x3 : Int) : Option Lanes := do
  let lane0 ← i64AddChecked l.lane0 x0
  let lane1 ← i64AddChecked l.lane1 x1
  let lane2 ← i64AddChecked l.lane2 x2
  let lane3 ← i64AddChecked l.lane3 x3
  some ⟨lane0, lane1, lane2, lane3⟩

/-- Blocks of four int32 elements. The result is what is left of the elements, the lanes and
the number of blocks. -/
def laneLoop : List JSValue → Lanes → Nat → Option (List JSValue × Lanes × Nat)
  | v0 :: v1 :: v2 :: v3 :: rest, l, blocks =>
    if v0 = .uninitialized ∨ v1 = .uninitialized ∨ v2 = .uninitialized ∨ v3 = .uninitialized then
      none
    else
      match intValue v0, intValue v1, intValue v2, intValue v3 with
      | some x0, some x1, some x2, some x3 => do
        let l ← l.add x0 x1 x2 x3
        laneLoop rest l (blocks + 1)
      | _, _, _, _ => some (v0 :: v1 :: v2 :: v3 :: rest, l, blocks)
  | vs, l, blocks => some (vs, l, blocks)

def Lanes.reduce (l : Lanes) (blocks : Nat) (isum : Int) : Option Int :=
  if blocks = 0 then some isum
  else do
    let pair0 ← i64AddChecked l.lane0 l.lane1
    let pair1 ← i64AddChecked l.lane2 l.lane3
    let block ← i64AddChecked pair0 pair1
    i64AddChecked isum block

def isNumeric : JSValue → Bool
  | .number _ | .nan => true
  | _ => false

def floatSum : List JSValue → JSValue → Option JSValue
  | [], sum => some sum
  | v :: vs, sum =>
    if isNumeric v then do
      let sum ← binary .add sum v
      floatSum vs sum
    else none

def scalarSum : List JSValue → Int → Option JSValue
  | [], sum => some (.number sum)
  | v :: vs, sum =>
    match intValue v with
    | some n => do
      let sum ← i64AddChecked sum n
      scalarSum vs sum
    | none => floatSum (v :: vs) (.number sum)

def exactSum (acc : JSValue) (vs : List JSValue) : Option JSValue :=
  match intValue acc with
  | some n => do
    let (rest, lanes, blocks) ← laneLoop vs ⟨0, 0, 0, 0⟩ 0
    let isum ← lanes.reduce blocks n
    scalarSum rest isum
  | none => floatSum vs acc

def wrappedSum : List JSValue → BitVec 32 → Option (BitVec 32)
  | [], x => some x
  | v :: vs, x => do
    let n ← intValue v
    wrappedSum vs (x + toBits n)

def holeyWrappedSum : List JSValue → BitVec 32 → Option (BitVec 32)
  | [], x => some x
  | v :: vs, x =>
    if v = .uninitialized ∨ v = .undefined then holeyWrappedSum vs x
    else do
      let n ← intValue v
      holeyWrappedSum vs (x + toBits n)

def sumOutcome (int32Wrap : Bool) (a : FastArray) (acc : JSValue) (i : Nat) :
    Option (Nat × JSValue) :=
  let count := a.values.length
  if i > count ∨ count - i > maximumElements then none
  else if int32Wrap then do
    let acc ← intValue acc
    let x ← wrappedSum (a.values.drop i) (toBits acc)
    some (count, ofBits x)
  else do
    let sum ← exactSum acc (a.values.drop i)
    some (count, sum)

def holeyOutcome (a : FastArray) (acc : JSValue) (i : Nat) : Option (Nat × JSValue) := do
  let acc ← intValue acc
  let length ← intValue (.number a.length)
  if i > length ∨ length - i > maximumElements then none
  else
    let stored := min a.values.length a.length
    let x ← holeyWrappedSum ((a.values.take stored).drop i) (toBits acc)
    some (a.length, ofBits x)

def accumulate (outcome : JSValue → Nat → Option (Nat × JSValue)) (acc : JSValue) (i : Nat) :
    Option (Nat × JSValue) :=
  if isNumeric acc then outcome acc i else none

def initLimit (p : ArrayProgram) (slots : Slot → JSValue) : Option Int :=
  match p.limitSlot with
  | none => some p.limit
  | some slot => intValue (slots slot)

/-- The elements from `i` to `limit`, each its own index. -/
def indexValues (i limit : Nat) : List JSValue :=
  (List.range (limit - i)).map fun k => .number (i + k : Nat)

/-- The array after the initialisation from its end to `limit`. -/
def FastArray.fill (a : FastArray) (limit : Nat) (h : a.values.length ≤ limit) :
    FastArray where
  values := a.values ++ indexValues a.values.length limit
  length := limit
  kind := .packedInt32
  extensible := a.extensible
  lengthWritable := a.lengthWritable
  count_le := by
    simp [indexValues, h]
  initialized := by
    simp [indexValues, a.initialized]

def initOutcome (p : ArrayProgram) (slots : Slot → JSValue) (a : FastArray) (i : Nat) :
    Option (Nat × FastArray) := do
  let limit ← initLimit p slots
  if limit < 0 ∨ limit > maximumElements then none
  else if h : i = a.values.length ∧ i ≤ limit.toNat ∧ a.extensible ∧
      (intValue (.number a.length)).isSome ∧ a.lengthWritable then
    some (limit.toNat, FastArray.fill a limit.toNat (h.1 ▸ h.2.1))
  else none

structure HeapExit (H : Type) where
  slots : Slot → JSValue
  heap : H
  resume : Nat

section

variable {S : Type}

def arrayAt (h : Heap S) (v : JSValue) : Option (Nat × FastArray) :=
  match v with
  | .object o =>
    match h o with
    | some (.array a) => some (o, a)
    | _ => none
  | _ => none

/-- The runner with the write-back of its caller; `none` is no completed run. -/
def runArrayLoop (b : FunctionBytecode) (p : ArrayProgram) (slots : Slot → JSValue)
    (h : Heap S) : Option (HeapExit (Heap S)) := do
  let frame := captureFrame b slots
  let index := frameLocal b ⟨.local, p.induction⟩
  if index ≥ localCount b then none
  else
    let (o, a) ← arrayAt h (slots p.arraySlot)
    let i ← intValue (frame.locals index)
    if i < 0 then none
    else
      let advance := fun (stop : Nat) =>
        { frame with locals := Function.update frame.locals index (.number stop) }
      match p.mode with
      | .initIndex => do
        let (stop, a') ← initOutcome p slots a i.toNat
        some ⟨(advance stop).writeBack b, Function.update h o (some (.array a')), p.resume⟩
      | .sum => do
        let (stop, v) ← accumulate (sumOutcome p.int32Wrap a) (slots p.accumulatorSlot) i.toNat
        let f ← (advance stop).storeValue b p.accumulatorSlot v
        some ⟨f.writeBack b, h, p.resume⟩
      | .holeySum => do
        let (stop, v) ← accumulate (holeyOutcome a) (slots p.accumulatorSlot) i.toNat
        let f ← (advance stop).storeValue b p.accumulatorSlot v
        some ⟨f.writeBack b, h, p.resume⟩

end

end TurboJS.OSR
