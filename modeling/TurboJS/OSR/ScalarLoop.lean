import TurboJS.OSR.Parse
import TurboJS.Foundation.Loop

namespace TurboJS.OSR
open Bytecode Foundation

/-! The scalar-loop detector and runner, in their int32 modes. -/

inductive Term where
  | induction
  | constant (c : BitVec 32)
  | accumulator (k : Nat)
  deriving DecidableEq, Repr

structure ScalarIntAccumulator where
  slot : Slot
  term : Term
  subtract : Bool
  deriving DecidableEq, Repr

inductive ConditionKind where
  | mask | lt | lte | gt | gte | eq | neq
  deriving DecidableEq, Repr

/-- `TurboJSScalarConditionalStep`; `onTrue` and `onFalse` are its two branches. -/
structure ConditionalStep where
  conditionKind : ConditionKind
  conditionValue : Int
  compareSlot : Option Slot
  targetAccumulatorIndex : Nat
  onTrue : ScalarIntAccumulator
  onFalse : ScalarIntAccumulator
  deriving DecidableEq, Repr

inductive ScalarLoopMode where
  | int32AddOr | multiInt32 | conditionalInt32 | dependentInt32 | conditionalProgramInt32
  deriving DecidableEq, Repr

structure ScalarLoopProgram where
  induction : Nat
  limit : Int
  limitSlot : Option Slot
  mode : ScalarLoopMode
  accumulatorSlot : Slot
  intAccumulators : List ScalarIntAccumulator
  conditionalSteps : List ConditionalStep
  loopHeader : Nat
  resume : Nat
  deriving DecidableEq, Repr

def scalarMaxAccumulators : Nat := 4

def scalarMaxConditionalSteps : Nat := 4

structure LoopHeader where
  induction : Nat
  limit : Int
  limitSlot : Option Slot
  resume : Int
  body : Nat
  deriving Repr

def parseLimit (b : FunctionBytecode) (p : Nat) : Option (Int × Option Slot × Nat) :=
  match scalarConstIn 0 int32Max b p with
  | some (n, q) => some (n, none, q)
  | none => (parseGetScalarSlot b p).map fun r => (0, some r.1, r.2)

/-- `i < limit`, else to `resume`. -/
def parseHeader (b : FunctionBytecode) (p : Nat) : Option LoopHeader :=
  match decode b.code p with
  | some (.get ⟨.local, induction⟩ .check, p) => do
    let (limit, limitSlot, p) ← parseLimit b p
    let p ← expect b (.plain .lt) p
    let (resume, p) ← parseBranchTarget b p
    some ⟨induction, limit, limitSlot, resume, p⟩
  | _ => none

/-- `i++`, then back to the header. -/
def parseTail (b : FunctionBytecode) (induction target source p : Nat) : Option Unit := do
  let p ← expectInduction b induction p
  let p ← expect b (.plain .postInc) p
  let p ← expect b (.put ⟨.local, induction⟩ .check) p
  let p ← expect b (.plain .drop) p
  let (backedge, _) ← parseGotoTarget b p
  if p = source ∧ backedge = target then some () else none

def parseAddSub (b : FunctionBytecode) (p : Nat) : Option (Bool × Nat) :=
  match decode b.code p with
  | some (.plain .add, q) => some (false, q)
  | some (.plain .sub, q) => some (true, q)
  | _ => none

/-- `| 0`, stored in the slot. -/
def parseStore (b : FunctionBytecode) (slot : Slot) (p : Nat) : Option Nat := do
  let p ← expect b (.pushShort 0) p
  let p ← expect b (.plain .or) p
  let p ← expect b (.plain .dup) p
  let p ← parsePutScalarSlot b p slot
  expect b (.plain .drop) p

def Term.recorded (subtract : Bool) : Term → Term
  | .constant c => .constant (if subtract then -c else c)
  | t => t

def parseBranchTerm (b : FunctionBytecode) (induction p : Nat) : Option (Term × Nat) :=
  match expectInduction b induction p with
  | some q => some (.induction, q)
  | none => (scalarConstIn int32Min int32Max b p).map fun r => (.constant (toBits r.1), r.2)

def sourceIndex (known : List ScalarIntAccumulator) (current slot : Slot) : Option Nat :=
  match known.findIdx? (fun a => a.slot = slot) with
  | some k => some k
  | none => if slot = current then some known.length else none

def parseTerm (b : FunctionBytecode) (induction : Nat) (known : List ScalarIntAccumulator)
    (current : Slot) (p : Nat) : Option (Term × Nat) :=
  match parseBranchTerm b induction p with
  | some r => some r
  | none => do
    let (slot, q) ← parseGetScalarSlot b p
    let k ← sourceIndex known current slot
    some (.accumulator k, q)

def parseUpdate (b : FunctionBytecode) (slot : Slot) (term : Term) (p : Nat) :
    Option (ScalarIntAccumulator × Nat) := do
  let (subtract, p) ← parseAddSub b p
  let p ← parseStore b slot p
  some (⟨slot, term.recorded subtract, subtract⟩, p)

def parseRecurrence (b : FunctionBytecode) (induction : Nat) (known : List ScalarIntAccumulator)
    (current : Slot) (p : Nat) : Option (ScalarIntAccumulator × Nat) := do
  let (term, p) ← parseTerm b induction known current p
  parseUpdate b current term p

/-- The recurrences from `p`, where the value of `current` has been pushed. After each of
them the next slot is pushed already, unless it is the induction variable. -/
def parseRecurrences (b : FunctionBytecode) (induction : Nat) :
    Nat → List ScalarIntAccumulator → Slot → Nat → List ScalarIntAccumulator × Nat
  | 0, known, _, p => (known, p)
  | fuel + 1, known, current, p =>
    match parseRecurrence b induction known current p with
    | none => (known, p)
    | some (item, q) =>
      match parseGetScalarSlot b q with
      | none => (known ++ [item], q)
      | some (next, peek) =>
        if next = ⟨.local, induction⟩ then (known ++ [item], q)
        else parseRecurrences b induction fuel (known ++ [item]) next peek

def parseRelation (b : FunctionBytecode) (p : Nat) : Option (ConditionKind × Nat) :=
  match decode b.code p with
  | some (.plain .lt, q) => some (.lt, q)
  | some (.plain .lte, q) => some (.lte, q)
  | some (.plain .gt, q) => some (.gt, q)
  | some (.plain .gte, q) => some (.gte, q)
  | some (.plain .eq, q) | some (.plain .strictEq, q) => some (.eq, q)
  | some (.plain .neq, q) | some (.plain .strictNeq, q) => some (.neq, q)
  | _ => none

/-- The relation of `i` to a slot, from the relation of the slot to `i`. -/
def ConditionKind.flip : ConditionKind → ConditionKind
  | .lt => .gt
  | .lte => .gte
  | .gt => .lt
  | .gte => .lte
  | k => k

structure ParsedCondition where
  kind : ConditionKind
  value : Int
  slot : Option Slot
  next : Nat
  deriving Repr

/-- A relation with the induction variable on the left, or `i & mask`. -/
def parseInductionCondition (b : FunctionBytecode) (p : Nat) : Option ParsedCondition :=
  match scalarConstIn int32Min int32Max b p with
  | some (n, p) =>
    match expect b (.plain .and) p with
    | some q => if n < 0 then none else some ⟨.mask, n, none, q⟩
    | none => (parseRelation b p).map fun r => ⟨r.1, n, none, r.2⟩
  | none => do
    let (slot, p) ← parseGetScalarSlot b p
    let (kind, q) ← parseRelation b p
    some ⟨kind, 0, some slot, q⟩

def parseCondition (b : FunctionBytecode) (induction p : Nat) : Option ParsedCondition :=
  match expectInduction b induction p with
  | some p => parseInductionCondition b p
  | none => do
    let (slot, p) ← parseGetScalarSlot b p
    let p ← expectInduction b induction p
    let (kind, q) ← parseRelation b p
    some ⟨kind.flip, 0, some slot, q⟩

def parseBranch (b : FunctionBytecode) (induction p : Nat) :
    Option (ScalarIntAccumulator × Nat) := do
  let (slot, p) ← parseGetScalarSlot b p
  let (term, p) ← parseBranchTerm b induction p
  parseUpdate b slot term p

/-- One `if`/`else` block; its target index is not known yet. -/
def parseConditionalStep (b : FunctionBytecode) (induction p : Nat) :
    Option (ConditionalStep × Nat) := do
  let c ← parseCondition b induction p
  let (elsePc, p) ← parseBranchTarget b c.next
  let (onTrue, p) ← parseBranch b induction p
  let (joinPc, p) ← parseGotoTarget b p
  let (onFalse, q) ← parseBranch b induction p
  if (p : Int) = elsePc ∧ (q : Int) = joinPc ∧ onFalse.slot = onTrue.slot then
    some (⟨c.kind, c.value, c.slot, 0, onTrue, onFalse⟩, q)
  else none

structure ConditionalProgram where
  accumulators : List Slot
  steps : List ConditionalStep
  deriving Repr

def ConditionalProgram.push (c : ConditionalProgram) (step : ConditionalStep) :
    Option ConditionalProgram :=
  match c.accumulators.findIdx? (fun slot => slot = step.onTrue.slot) with
  | some k => some { c with steps := c.steps ++ [{ step with targetAccumulatorIndex := k }] }
  | none =>
    if c.accumulators.length ≥ scalarMaxAccumulators then none
    else some ⟨c.accumulators ++ [step.onTrue.slot],
      c.steps ++ [{ step with targetAccumulatorIndex := c.accumulators.length }]⟩

/-- The blocks from `p`, as far as they parse. -/
def parseConditionalSteps (b : FunctionBytecode) (induction : Nat) :
    Nat → ConditionalProgram → Nat → ConditionalProgram × Nat
  | 0, c, p => (c, p)
  | fuel + 1, c, p =>
    match parseConditionalStep b induction p with
    | none => (c, p)
    | some (step, q) =>
      match c.push step with
      | none => (c, p)
      | some c' => parseConditionalSteps b induction fuel c' q

structure ScalarBody where
  mode : ScalarLoopMode
  accumulatorSlot : Slot
  intAccumulators : List ScalarIntAccumulator
  conditionalSteps : List ConditionalStep
  next : Nat
  deriving Repr

def conditionalBody (c : ConditionalProgram) (next : Nat) : Option ScalarBody :=
  match c.accumulators, c.steps with
  | [slot], [step] =>
    some ⟨if step.compareSlot = none then .conditionalInt32 else .conditionalProgramInt32,
      slot, [step.onTrue, step.onFalse], [step], next⟩
  | slot :: _, _ :: _ =>
    some ⟨.conditionalProgramInt32, slot,
      c.accumulators.map fun slot => ⟨slot, .constant 0, false⟩, c.steps, next⟩
  | _, _ => none

def Term.isAccumulator : Term → Bool
  | .accumulator _ => true
  | _ => false

def recurrenceMode (items : List ScalarIntAccumulator) : ScalarLoopMode :=
  if items.any (fun a => a.term.isAccumulator) then .dependentInt32
  else if items.length = 1 then .int32AddOr else .multiInt32

def recurrenceBody (b : FunctionBytecode) (induction p : Nat) : Option ScalarBody := do
  let (slot, p) ← parseGetScalarSlot b p
  let (items, q) := parseRecurrences b induction scalarMaxAccumulators [] slot p
  if items = [] then none else some ⟨recurrenceMode items, slot, items, [], q⟩

def parseBody (b : FunctionBytecode) (induction p : Nat) : Option ScalarBody :=
  let (c, q) := parseConditionalSteps b induction scalarMaxConditionalSteps ⟨[], []⟩ p
  match conditionalBody c q with
  | some body => some body
  | none => recurrenceBody b induction p

def detectScalarLoop (b : FunctionBytecode) (target source : Nat) :
    Option ScalarLoopProgram := do
  if target ≥ source ∨ source ≥ b.code.length then none
  else
    let header ← parseHeader b target
    let body ← parseBody b header.induction header.body
    parseTail b header.induction target source body.next
    if 0 ≤ header.resume ∧ header.resume ≤ b.code.length ∧ header.induction < b.varCount then
      some ⟨header.induction, header.limit, header.limitSlot, body.mode, body.accumulatorSlot,
        body.intAccumulators, body.conditionalSteps, target, header.resume.toNat⟩
    else none

def OSRFrame.store (b : FunctionBytecode) (f : OSRFrame) (slot : Slot) (x : BitVec 32) :
    Option OSRFrame :=
  f.storeValue b slot (ofBits x)

def OSRFrame.storeAll (b : FunctionBytecode) (f : OSRFrame) :
    List Slot → List (BitVec 32) → Option OSRFrame
  | slot :: slots, x :: xs => do
    let f ← f.store b slot x
    f.storeAll b slots xs
  | _, _ => some f

def readAccumulators (slots : Slot → JSValue) (items : List Slot) : Option (List (BitVec 32)) :=
  items.mapM fun slot => (intValue (slots slot)).map toBits

/-- The halved product that sums the integers from `i` below `limit`. The source computes it
in 64 bits, which the guards on `i` and `limit` make exact. -/
def seriesSum (i limit : Int) : Int :=
  let count := limit - i
  let ends := i + limit - 1
  if count % 2 = 0 then count / 2 * ends else count * (ends / 2)

/-- What the iterations from `i` to `limit` add to an accumulator in the independent modes. -/
def recurrenceDelta (i limit : Int) (item : ScalarIntAccumulator) : BitVec 32 :=
  match item.term with
  | .induction => toBits (seriesSum i limit)
  | .constant c => toBits (limit - i) * c
  | .accumulator _ => 0

def independentLoop (i limit : Int) (items : List ScalarIntAccumulator)
    (values : List (BitVec 32)) : List (BitVec 32) :=
  items.zipWith (fun item x => x + recurrenceDelta i limit item) values

def ScalarIntAccumulator.apply (item : ScalarIntAccumulator) (x operand : BitVec 32) :
    BitVec 32 :=
  match item.term with
  | .constant _ => x + operand
  | _ => if item.subtract then x - operand else x + operand

def Term.operand (i : Int) (values : List (BitVec 32)) : Term → Option (BitVec 32)
  | .induction => some (toBits i)
  | .constant c => some c
  | .accumulator k => values[k]?

def dependentRecord (i : Int) (values : List (BitVec 32)) (k : Nat)
    (item : ScalarIntAccumulator) : Option (List (BitVec 32)) := do
  let operand ← item.term.operand i values
  let x ← values[k]?
  some (values.set k (item.apply x operand))

def dependentIteration (items : List ScalarIntAccumulator) (i : Int)
    (values : List (BitVec 32)) : Option (List (BitVec 32)) :=
  forUpM items.length
    (fun k values => do
      let item ← items[k]?
      dependentRecord i values k item) values

def dependentLoop (i limit : Int) (items : List ScalarIntAccumulator)
    (values : List (BitVec 32)) : Option (List (BitVec 32)) :=
  forUpM (limit - i).toNat (fun m => dependentIteration items (i + m)) values

/-- How many `j` with `first ≤ j < limit` stand in the relation to `t`; a mask has no count. -/
def relationalTrueCount (first limit : Int) (kind : ConditionKind) (t : Int) : Option Int :=
  let total := limit - first
  let clamp := fun count : Int => if count < 0 then 0 else if count > total then total else count
  if total ≤ 0 then some 0
  else match kind with
    | .lt => some (clamp (t - first))
    | .lte => some (clamp (t + 1 - first))
    | .gt => some (clamp (limit - if t + 1 > first then t + 1 else first))
    | .gte => some (clamp (limit - if t > first then t else first))
    | .eq => some (if t ≥ first ∧ t < limit then 1 else 0)
    | .neq => some (total - if t ≥ first ∧ t < limit then 1 else 0)
    | .mask => none

structure MaskStats where
  count : Nat
  sum : Nat
  deriving DecidableEq, Repr

/-- The lowest bit of a 32-bit word, `scan & (0u - scan)`. -/
def lowestBit (scan : Nat) : Nat := scan &&& (2 ^ 32 - scan)

def scanBits : Nat → Nat → Nat × Nat → Nat × Nat
  | 0, _, r => r
  | fuel + 1, scan, r =>
    if scan = 0 then r
    else scanBits fuel (scan ^^^ lowestBit scan) (r.1 + 1, r.2 + lowestBit scan)

/-- The bits below `bit` that a mask allows, `(~mask) & (bit_value - 1u)`. -/
def lowerAllowed (mask bit : Nat) : Nat := (2 ^ 32 - 1 - mask) &&& (2 ^ bit - 1)

/-- The bits of `n` from `bit - 1` down: each set bit closes a block of values below `n`. -/
def maskZeroScan (n mask : Nat) : Nat → MaskStats → Nat → MaskStats
  | 0, r, bits => ⟨r.count + 1, r.sum + bits⟩
  | bit + 1, r, bits =>
    if n.testBit bit then
      let (count, weight) := scanBits 32 (lowerAllowed mask bit) (0, 0)
      let combinations := 2 ^ count
      let r := ⟨r.count + combinations,
        r.sum + combinations * bits + if count ≠ 0 then combinations / 2 * weight else 0⟩
      if mask.testBit bit then r else maskZeroScan n mask bit r (bits + 2 ^ bit)
    else maskZeroScan n mask bit r bits

/-- The count and the sum of the values below `stop` whose masked bits are all zero. -/
def maskZeroPrefix (stop : Int) (mask : Nat) : MaskStats :=
  if stop ≤ 0 then ⟨0, 0⟩ else maskZeroScan (stop - 1).toNat (mask % 2 ^ 31) 31 ⟨0, 0⟩ 0

/-- The count and the sum of the `j` with `first ≤ j < limit` that meet the mask. -/
def maskTrueRange (first limit : Int) (mask : Nat) : Int × Int :=
  let hi := maskZeroPrefix limit mask
  let lo := maskZeroPrefix first mask
  (limit - first - (hi.count - lo.count), seriesSum first limit - (hi.sum - lo.sum))

def ConditionKind.holds (kind : ConditionKind) (i t : Int) : Bool :=
  match kind with
  | .mask => toBits i &&& toBits t ≠ 0
  | .lt => i < t
  | .lte => i ≤ t
  | .gt => i > t
  | .gte => i ≥ t
  | .eq => i = t
  | .neq => i ≠ t

/-- What a branch adds over iterations of which it takes `count`, with sum `sum`. -/
def ScalarIntAccumulator.total (a : ScalarIntAccumulator) (count sum : Int) : BitVec 32 :=
  match a.term with
  | .induction => if a.subtract then -toBits sum else toBits sum
  | .constant c => toBits count * c
  | .accumulator _ => 0

/-- What a branch adds in iteration `i`. -/
def ScalarIntAccumulator.once (a : ScalarIntAccumulator) (i : Int) : BitVec 32 :=
  match a.term with
  | .induction => if a.subtract then -toBits i else toBits i
  | .constant c => c
  | .accumulator _ => 0

def Term.isInduction : Term → Bool
  | .induction => true
  | _ => false

def ConditionalStep.closed (step : ConditionalStep) (i limit t : Int) : Option (BitVec 32) :=
  match step.conditionKind with
  | .mask =>
    let (count, sum) := maskTrueRange i limit t.toNat
    some (step.onTrue.total count sum +
      step.onFalse.total (limit - i - count) (seriesSum i limit - sum))
  | kind => do
    let count ← relationalTrueCount i limit kind t
    if step.onTrue.term.isInduction ∨ step.onFalse.term.isInduction then none
    else some (step.onTrue.total count 0 + step.onFalse.total (limit - i - count) 0)

/-- What a step adds in iteration `i`. -/
def ConditionalStep.once (step : ConditionalStep) (i t : Int) : BitVec 32 :=
  if step.conditionKind.holds i t then step.onTrue.once i else step.onFalse.once i

def conditionalLoop (i limit : Int) (step : ConditionalStep) (x : BitVec 32) : BitVec 32 :=
  forUp (limit - i).toNat (fun m x => x + step.once (i + m) step.conditionValue) x

def ConditionalStep.threshold (slots : Slot → JSValue) (step : ConditionalStep) : Option Int :=
  match step.compareSlot with
  | none => some step.conditionValue
  | some slot => intValue (slots slot)

def addAt (values : List (BitVec 32)) (k : Nat) (x : BitVec 32) : List (BitVec 32) :=
  values.modify k (· + x)

def conditionalProgramLoop (i limit : Int) (steps : List (ConditionalStep × Int))
    (values : List (BitVec 32)) : List (BitVec 32) :=
  let values := steps.foldl (fun values s =>
    addAt values s.1.targetAccumulatorIndex ((s.1.closed i limit s.2).getD 0)) values
  let iterative := steps.filter fun s => (s.1.closed i limit s.2).isNone
  forUp (limit - i).toNat (fun m values => iterative.foldl (fun values s =>
    addAt values s.1.targetAccumulatorIndex (s.1.once (i + m) s.2)) values) values

def scalarLoopValues (p : ScalarLoopProgram) (slots : Slot → JSValue) (i limit : Int) :
    Option (List Slot × List (BitVec 32)) :=
  let targets := p.intAccumulators.map (·.slot)
  let count := p.intAccumulators.length
  match p.mode with
  | .int32AddOr | .multiInt32 =>
    if count = 0 ∨ count > scalarMaxAccumulators then none
    else do
      let values ← readAccumulators slots targets
      some (targets, independentLoop i limit p.intAccumulators values)
  | .dependentInt32 =>
    if count = 0 ∨ count > scalarMaxAccumulators then none
    else do
      let values ← readAccumulators slots targets
      let values ← dependentLoop i limit p.intAccumulators values
      some (targets, values)
  | .conditionalInt32 => do
    let step ← p.conditionalSteps.head?
    let x ← intValue (slots p.accumulatorSlot)
    some ([p.accumulatorSlot], [conditionalLoop i limit step (toBits x)])
  | .conditionalProgramInt32 =>
    if count = 0 ∨ count > scalarMaxAccumulators ∨ p.conditionalSteps = [] ∨
        p.conditionalSteps.length > scalarMaxConditionalSteps then none
    else do
      let values ← readAccumulators slots targets
      let thresholds ← p.conditionalSteps.mapM fun step =>
        if step.targetAccumulatorIndex ≥ count then none else step.threshold slots
      some (targets,
        conditionalProgramLoop i limit (p.conditionalSteps.zip thresholds) values)

def runtimeLimit (p : ScalarLoopProgram) (slots : Slot → JSValue) : Option Int :=
  match p.limitSlot with
  | none => some p.limit
  | some slot =>
    match slots slot with
    | .number n => if 0 ≤ n ∧ n ≤ int32Max then some n else none
    | _ => none

structure OSRExit where
  slots : Slot → JSValue
  resume : Nat

/-- The runner with the write-back of its caller; `none` is a bailout. -/
def runScalarLoop (b : FunctionBytecode) (p : ScalarLoopProgram) (slots : Slot → JSValue) :
    Option OSRExit :=
  let frame := captureFrame b slots
  let index := frameLocal b ⟨.local, p.induction⟩
  if index ≥ localCount b then none
  else do
    let i ← intValue (frame.locals index)
    let limit ← runtimeLimit p slots
    if i < 0 ∨ i > limit then none
    else
      let (targets, values) ← scalarLoopValues p slots i limit
      let frame ← frame.storeAll b targets values
      let frame := { frame with locals := Function.update frame.locals index (.number limit) }
      some ⟨frame.writeBack b, p.resume⟩

end TurboJS.OSR
