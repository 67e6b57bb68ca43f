import TurboJS.Optimizing.Memory

namespace TurboJS.Region

open IR Optimizing

/-- `TurboJSRegionValueOps` over a heap that only the two stores change. The four
callbacks that every region needs are functions, the others may be absent. A callback
that answers zero is `none`. -/
structure RegionValueOps (V H : Type) where
  guardShape : H → V → Nat → Bool
  loadOwnSlot : H → V → Nat → Option V
  storeOwnSlot : Option (H → V → Nat → V → Option H)
  guardPropertyDependency : Option (H → Nat → Nat → Bool)
  toI64 : H → V → Option Word
  fromI64 : H → Word → V
  guardElements : Option (H → V → Nat → Nat → Nat → Bool)
  loadElement : Option (H → V → Nat → Option V)
  storeElement : Option (H → V → Nat → V → Option H)
  arrayLength : Option (H → V → Option Nat)

def propertyPicMaxCases : Nat := 4
def elementFlagWritable : Nat := 1
def regionStepLimit : Nat := 10000000

inductive Stored (V : Type) where
  | slot (object : V) (index : Nat) (value : V)
  | element (array : V) (index : Nat) (value : V)
  deriving DecidableEq, Repr

/-- `vals` with `done`, the heap behind the callbacks, the stores made so far and `next`. -/
structure RegionState (V H : Type) where
  values : Nat → Option V
  heap : H
  stores : List (Stored V) := []
  next : Nat := noBlock

inductive RegionExit (V : Type) where
  | invalidArgument
  | bailout
  | returned (x : V)
  deriving DecidableEq, Repr

inductive Flow (V H : Type) where
  | next (s : RegionState V H)
  | exit (e : RegionExit V)

/-- `TurboJSRegionNativeFunction` in its value mode. -/
structure RegionFunction where
  graph : Graph
  argumentCount : Nat
  deriving DecidableEq, Repr

def acceptsValue (v : Value) : Bool :=
  v.removed ||
    ((v.opcode != .propertyLoad && v.opcode != .propertyStore ||
        v.propertyCases != [] && v.propertyCases.length ≤ propertyPicMaxCases) &&
      (v.opcode != .propertyStore ||
        hasFlag ((v.propertyCases.headD ⟨0, 0, 0, 0⟩).flags) feedbackWritable))

def countArgument (argc : Nat) (v : Value) : Nat :=
  if !v.removed && v.opcode == .argument && argc < (v.immediate + 1).toNat then
    v.immediate.toNat + 1
  else argc

/-- `region_clone_value_graph`; the copy of the graph is the graph. -/
def regionCloneValueGraph (g : Graph) : Option RegionFunction :=
  if g.values.all acceptsValue then some ⟨g, g.values.foldl countArgument 0⟩ else none

section

variable {V H : Type} (ops : RegionValueOps V H) (args : List V)

def RegionState.define (s : RegionState V H) (id : Nat) (x : V) : RegionState V H :=
  { s with values := Function.update s.values id (some x) }

def RegionState.record (s : RegionState V H) (heap : H) (entry : Stored V) : RegionState V H :=
  { s with heap := heap, stores := s.stores ++ [entry] }

def guardedCase (h : H) (object : V) (cases : List PropertyCase) : Option PropertyCase := do
  let c ← cases.find? (fun c => ops.guardShape h object c.shape)
  if ops.guardPropertyDependency.all (fun guard => guard h c.generation c.flags) then some c
  else none

def guardedIndex (h : H) (v : Value) (array index : V) : Option Nat := do
  let guard ← ops.guardElements
  let length ← ops.arrayLength
  let i ← ops.toI64 h index
  if i.slt 0 || (BitVec.ofNat 64 4294967295).slt i then none
  if !guard h array v.elementKind v.elementGeneration v.elementFlags then none
  let n ← length h array
  if n ≤ i.toNat then none else some i.toNat

def binaryI64 : SSAOpcode → Option (Word → Word → Word)
  | .addI64 => some (· + ·)
  | .subI64 => some (· - ·)
  | .mulI64 => some (· * ·)
  | .andI64 => some (· &&& ·)
  | .orI64 => some (· ||| ·)
  | .xorI64 => some (· ^^^ ·)
  | .shlI64 => some fun a c => a <<< (c &&& 63).toNat
  | .sarI64 => some fun a c => a.sshiftRight (c &&& 63).toNat
  | .shrI64 => some fun a c => a >>> (c &&& 63).toNat
  | .lessThanI64 => some fun a c => ofBool (a.slt c)
  | .lessEqualI64 => some fun a c => ofBool (a.sle c)
  | .greaterThanI64 => some fun a c => ofBool (c.slt a)
  | .greaterEqualI64 => some fun a c => ofBool (c.sle a)
  | .equalI64 => some fun a c => ofBool (a == c)
  | _ => none

/-- The operations that compute a value or store one. `none` is `goto bailout`: an
operand that is not computed, a missing callback, a guard or a conversion that fails,
an opcode the evaluator does not know. -/
def regionOperation (v : Value) (s : RegionState V H) : Option (RegionState V H) :=
  match v.opcode with
  | .argument => do
    let x ← args[v.immediate.toNat]?
    some (s.define v.id x)
  | .constantI64 => some (s.define v.id (ops.fromI64 s.heap v.immediate))
  | .propertyLoad => do
    let object ← s.values v.left
    let c ← guardedCase ops s.heap object v.propertyCases
    let x ← ops.loadOwnSlot s.heap object c.index
    some (s.define v.id x)
  | .propertyStore => do
    let object ← s.values v.left
    let x ← s.values v.right
    let store ← ops.storeOwnSlot
    let c ← guardedCase ops s.heap object v.propertyCases
    let heap ← store s.heap object c.index x
    some (s.record heap (.slot object c.index x))
  | .elementLoad => do
    let array ← s.values v.left
    let index ← s.values v.right
    let load ← ops.loadElement
    let i ← guardedIndex ops s.heap v array index
    let x ← load s.heap array i
    some (s.define v.id x)
  | .elementStore => do
    let array ← s.values v.left
    let index ← s.values v.right
    let x ← s.values v.metadata
    let store ← ops.storeElement.filter fun _ => hasFlag v.elementFlags elementFlagWritable
    let i ← guardedIndex ops s.heap v array index
    let heap ← store s.heap array i x
    some (s.record heap (.element array i x))
  | op => do
    let f ← binaryI64 op
    let left ← s.values v.left
    let right ← s.values v.right
    let a ← ops.toI64 s.heap left
    let c ← ops.toI64 s.heap right
    some (s.define v.id (ops.fromI64 s.heap (f a c)))

/-- Whether a branch on `a` goes to its own target. -/
def branchTaken (op : SSAOpcode) (a : Word) : Bool :=
  if op = .branchTrue then a != 0 else a == 0

def executeValue (b : Block) (v : Value) (s : RegionState V H) : Flow V H :=
  match v.opcode with
  | .jump => .next { s with next := v.metadata }
  | .branchTrue | .branchFalse =>
    match s.values v.left >>= ops.toI64 s.heap with
    | none => .exit .bailout
    | some a =>
      .next { s with
        next := if branchTaken v.opcode a then v.metadata else b.successors.getD 1 noBlock }
  | .ret =>
    match s.values v.left with
    | none => .exit .bailout
    | some x => .exit (.returned x)
  | .phi | .nop | .guardInt32 => .next s
  | _ =>
    match regionOperation ops args v s with
    | none => .exit .bailout
    | some s' => .next s'

def executeValues (b : Block) : List Value → RegionState V H →
    RegionState V H × Option (RegionExit V)
  | [], s => (s, none)
  | v :: vs, s =>
    if v.removed then executeValues b vs s
    else
      match executeValue ops args b v s with
      | .next s' => executeValues b vs s'
      | .exit e => (s, some e)

def blockValues (g : Graph) (block : Nat) : List Value :=
  (List.range' (g.block block).firstValue (g.block block).valueCount).map g.value

/-- The block after this one: a control value set `next`, or there is one way out. -/
def leaveBlock (b : Block) (next : Nat) : Option Nat :=
  if next = noBlock then
    match b.successors with
    | [t] => some t
    | _ => none
  else some next

def executeBlocks (g : Graph) : Nat → Nat → RegionState V H → RegionState V H × RegionExit V
  | 0, _, s => (s, .bailout)
  | n + 1, block, s =>
    if block < g.blockCount then
      match executeValues ops args (g.block block) (blockValues g block)
          { s with next := noBlock } with
      | (s', some e) => (s', e)
      | (s', none) =>
        match leaveBlock (g.block block) s'.next with
        | none => (s', .bailout)
        | some t => executeBlocks g n t s'
    else (s, .bailout)

def RegionState.start (heap : H) : RegionState V H := { values := fun _ => none, heap := heap }

/-- `region_value_execute`, with the state it leaves behind. -/
def regionValueExecute (f : RegionFunction) (heap : H) : RegionState V H × RegionExit V :=
  if args.length < f.argumentCount then (.start heap, .invalidArgument)
  else executeBlocks ops args f.graph regionStepLimit f.graph.entryBlock (.start heap)

end

end TurboJS.Region
