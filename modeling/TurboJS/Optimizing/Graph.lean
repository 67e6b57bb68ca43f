import TurboJS.IR.Interpreter
import TurboJS.Foundation.Loop

namespace TurboJS.Optimizing

open IR Foundation

inductive SSAOpcode where
  | nop | argument | constantI64
  | addI64 | subI64 | mulI64 | andI64 | orI64 | xorI64 | shlI64 | sarI64 | shrI64
  | minF64 | maxF64
  | lessThanI64 | lessEqualI64 | greaterThanI64 | greaterEqualI64 | equalI64
  | phi | guardInt32
  | propertyLoad | propertyStore | virtualObject | virtualFieldStore | elementLoad | elementStore
  | jump | branchTrue | branchFalse | ret
  deriving DecidableEq, Repr

inductive SSAType where
  | unknown | int32 | int64 | boolean | float64 | reference
  deriving DecidableEq, Repr

def noValue : Nat := 4294967295
def noBlock : Nat := 4294967295
def maxBlockEdges : Nat := 8

structure PropertyCase where
  shape : Nat
  index : Nat
  generation : Nat
  flags : Nat
  deriving DecidableEq, Repr

/-- `TurboJSSSAValue`, without the fields that no pass of this development reads. The
cases are the first `property_case_count` entries of the four parallel arrays. -/
structure Value where
  opcode : SSAOpcode := .nop
  type : SSAType := .unknown
  id : Nat := 0
  block : Nat := 0
  left : Nat := noValue
  right : Nat := noValue
  immediate : Word := 0
  useCount : Nat := 0
  sourceInstruction : Nat := 0
  deoptId : Nat := 0
  removed : Bool := false
  hasDeoptEdge : Bool := false
  metadata : Nat := 0
  propertyFeedbackGeneration : Nat := 0
  propertyStateReceiver : Nat := 0
  propertyCases : List PropertyCase := []
  elementKind : Nat := 0
  elementFlags : Nat := 0
  elementGeneration : Nat := 0
  elementLengthValue : Nat := 0
  elementRangeMin : Int := 0
  elementRangeMax : Int := 0
  elementInductionStep : Int := 0
  elementBoundsProven : Bool := false
  elementLengthHoisted : Bool := false
  elementBaseHoisted : Bool := false
  deriving DecidableEq, Repr

instance : Inhabited Value := ⟨{}⟩

/-- `TurboJSSSABlock`; the counts of the edge arrays are the lengths of the lists. -/
structure Block where
  id : Nat := 0
  firstValue : Nat := 0
  valueCount : Nat := 0
  firstInstruction : Nat := 0
  instructionCount : Nat := 0
  predecessors : List Nat := []
  successors : List Nat := []
  immediateDominator : Nat := noBlock
  loopHeader : Nat := noBlock
  dominanceFrontier : Nat := 0
  loopDepth : Nat := 0
  reachable : Bool := false
  removed : Bool := false
  deriving DecidableEq, Repr

instance : Inhabited Block := ⟨{}⟩

structure Graph where
  values : List Value := []
  blocks : List Block := []
  entryBlock : Nat := noBlock
  deoptExitCount : Nat := 0
  deriving DecidableEq, Repr

def Graph.value (g : Graph) (i : Nat) : Value := g.values.getD i default
def Graph.block (g : Graph) (b : Nat) : Block := g.blocks.getD b default
def Graph.valueCount (g : Graph) : Nat := g.values.length
def Graph.blockCount (g : Graph) : Nat := g.blocks.length

def Graph.setValue (g : Graph) (i : Nat) (f : Value → Value) : Graph :=
  { g with values := g.values.modify i f }

def Graph.setBlock (g : Graph) (b : Nat) (f : Block → Block) : Graph :=
  { g with blocks := g.blocks.modify b f }

@[simp] theorem Graph.setValue_blocks (g : Graph) (i : Nat) (f : Value → Value) :
    (g.setValue i f).blocks = g.blocks := rfl

@[simp] theorem Graph.setBlock_values (g : Graph) (b : Nat) (f : Block → Block) :
    (g.setBlock b f).values = g.values := rfl

@[simp] theorem Graph.setValue_valueCount (g : Graph) (i : Nat) (f : Value → Value) :
    (g.setValue i f).valueCount = g.valueCount := by
  simp [Graph.valueCount, Graph.setValue]

@[simp] theorem Graph.setValue_blockCount (g : Graph) (i : Nat) (f : Value → Value) :
    (g.setValue i f).blockCount = g.blockCount := rfl

@[simp] theorem Graph.setBlock_valueCount (g : Graph) (b : Nat) (f : Block → Block) :
    (g.setBlock b f).valueCount = g.valueCount := rfl

theorem setBlock_value (g : Graph) (b k : Nat) (f : Block → Block) :
    (g.setBlock b f).value k = g.value k := rfl

@[simp] theorem Graph.setBlock_blockCount (g : Graph) (b : Nat) (f : Block → Block) :
    (g.setBlock b f).blockCount = g.blockCount := by
  simp [Graph.blockCount, Graph.setBlock]

theorem Graph.setValue_value (g : Graph) (i : Nat) (f : Value → Value) (j : Nat) :
    (g.setValue i f).value j = if i = j ∧ j < g.valueCount then f (g.value j) else g.value j := by
  unfold Graph.value Graph.setValue Graph.valueCount
  rw [List.getD_eq_getElem?_getD, List.getD_eq_getElem?_getD, List.getElem?_modify]
  by_cases hj : j < g.values.length
  · rw [List.getElem?_eq_getElem hj]
    by_cases h : i = j <;> simp [h, hj]
  · rw [List.getElem?_eq_none (Nat.not_lt.mp hj)]
    simp [hj]

theorem Graph.setBlock_block (g : Graph) (b : Nat) (f : Block → Block) (k : Nat) :
    (g.setBlock b f).block k = if b = k ∧ k < g.blockCount then f (g.block k) else g.block k := by
  unfold Graph.block Graph.setBlock Graph.blockCount
  rw [List.getD_eq_getElem?_getD, List.getD_eq_getElem?_getD, List.getElem?_modify]
  by_cases hk : k < g.blocks.length
  · rw [List.getElem?_eq_getElem hk]
    by_cases h : b = k <;> simp [h, hk]
  · rw [List.getElem?_eq_none (Nat.not_lt.mp hk)]
    simp [hk]

def addUse (v : Value) : Value := { v with useCount := v.useCount + 1 }

/-- `if (use_count) use_count--`. -/
def dropUse (v : Value) : Value := { v with useCount := v.useCount - 1 }

/-- `emit_value`. Growing the array past the last usable id counts as a failed
allocation, as ids have 32 bits and the last one means "no value". -/
def emitValue (g : Graph) (v : Value) : Option Graph :=
  if noValue ≤ g.valueCount then none
  else
    let v := { v with id := g.valueCount }
    let g := if v.left ≠ noValue then g.setValue v.left addUse else g
    let g := if v.right ≠ noValue then g.setValue v.right addUse else g
    some ({ g with values := g.values ++ [v] }.setBlock v.block
      fun b => { b with valueCount := b.valueCount + 1 })

def substitute (source target : Nat) (v : Value) : Value :=
  if v.removed then v
  else { v with
    left := if v.left = source then target else v.left
    right := if v.right = source then target else v.right }

/-- How many operands of `v` the substitution redirects. -/
def usesOf (source : Nat) (v : Value) : Nat :=
  if v.removed then 0
  else (if v.left = source then 1 else 0) + (if v.right = source then 1 else 0)

def replaceValueUses (g : Graph) (source target : Nat) : Graph :=
  let replacements := (g.values.map (usesOf source)).sum
  let g := { g with values := g.values.map (substitute source target) }
  let g := g.setValue target fun v => { v with useCount := v.useCount + replacements }
  g.setValue source fun v => { v with useCount := 0 }

def remove (v : Value) : Value := { v with removed := true }

/-- The pass of `mark_reachable` over the queue. A block that no longer fits the 1024
entries of the queue is marked but never visited. -/
def markQueue : Nat → List Block → List Nat → Nat → List Block
  | 0, blocks, _, _ => blocks
  | _ + 1, blocks, [], _ => blocks
  | fuel + 1, blocks, b :: queue, pushed =>
    let step := fun (s : List Block × List Nat × Nat) (t : Nat) =>
      if (s.1.getD t default).reachable then s
      else
        let marked := s.1.modify t fun b => { b with reachable := true }
        if s.2.2 < 1024 then (marked, s.2.1 ++ [t], s.2.2 + 1) else (marked, s.2)
    let (blocks, queue, pushed) :=
      (blocks.getD b default).successors.foldl step (blocks, queue, pushed)
    markQueue fuel blocks queue pushed

/-- `mark_reachable`; the queue takes at most 1024 entries, so 1024 visits empty it. -/
def markReachable (g : Graph) : Graph :=
  if g.blocks = [] then g
  else
    let blocks := (g.blocks.map fun b => { b with reachable := false }).modify g.entryBlock
      fun b => { b with reachable := true }
    { g with blocks := markQueue 1024 blocks [g.entryBlock] 1 }

/-- The operand test of `TurboJS_SSAVerify` for the value at index `i`. -/
def verifyValue (g : Graph) (i : Nat) (v : Value) : Bool :=
  v.id == i && v.block < g.blockCount &&
  (if v.opcode = .phi then v.left < g.valueCount && v.right < g.valueCount
   else (v.left == noValue || v.left < i) && (v.right == noValue || v.right < i)) &&
  (v.opcode != .guardInt32 || (v.hasDeoptEdge && v.left != noValue))

def verifyBlock (g : Graph) (i : Nat) (b : Block) : Bool :=
  b.id == i && b.predecessors.length ≤ maxBlockEdges && b.successors.length ≤ maxBlockEdges &&
  b.successors.all (· < g.blockCount)

def ssaVerify (g : Graph) : Bool :=
  g.blocks != [] && g.entryBlock < g.blockCount &&
  (List.range g.blockCount).all (fun i => verifyBlock g i (g.block i)) &&
  (List.range g.valueCount).all fun i => verifyValue g i (g.value i)

end TurboJS.Optimizing
