import TurboJS.Objects.References
import TurboJS.Foundation.Run

namespace TurboJS.Objects
open Foundation

/-! The property inline caches of `OP_get_field` and `OP_put_field`: sixteen entries for each
function, four ways in each entry, every way with a reference to a shape. -/

structure ICWay where
  shape : Nat
  propertyIndex : Nat
  deriving DecidableEq, Repr

/-- `TurboJSVMPropertyICEntry`; the ways in use are the list. -/
structure ICEntry where
  bytecodeOffset : Nat
  atom : Nat
  replacementWay : Nat
  hotWay : Nat
  lastObject : Option Nat
  lastShape : Nat
  lastPropertyIndex : Nat
  ways : List ICWay
  deriving DecidableEq, Repr

/-- The entry after `memset`. -/
def ICEntry.zero : ICEntry := ⟨0, 0, 0, 0, none, 0, 0, []⟩

def icSize : Nat := 16

def icWays : Nat := 4

def icSlot (bytecodeOffset : Nat) : Nat :=
  (UInt32.ofNat bytecodeOffset * 2654435761).toNat >>> 28 % icSize

inductive SiteKind where
  | getField
  | putField
  deriving DecidableEq, Repr

/-- The runtime with the entries of all functions: those of function `f` start at `16 * f`. -/
structure Machine where
  rt : Runtime
  entries : List ICEntry

def icIndex (f bytecodeOffset : Nat) : Nat := icSize * f + icSlot bytecodeOffset

def ICEntry.remember (e : ICEntry) (o a index : Nat) : ICEntry :=
  { e with lastObject := some o, lastShape := a, lastPropertyIndex := index }

def ICEntry.scan (e : ICEntry) (o a : Nat) : Option (Nat × ICEntry) :=
  match e.ways.findIdx? (fun w => w.shape = a) with
  | some i => (e.ways[i]?).map fun w =>
    (w.propertyIndex, { e with hotWay := i }.remember o a w.propertyIndex)
  | none => none

/-- `turbojs_vm_property_ic_lookup` on the entry of the site, for an object `o` with the shape
`a`: the index of the property and the entry afterwards. -/
def icLookup (e : ICEntry) (bytecodeOffset o a atom : Nat) : Option (Nat × ICEntry) :=
  if e.bytecodeOffset ≠ bytecodeOffset ∨ e.atom ≠ atom then none
  else if e.lastObject = some o ∧ e.lastShape = a then some (e.lastPropertyIndex, e)
  else
    match e.ways[e.hotWay]? with
    | some hot =>
      if hot.shape = a then some (hot.propertyIndex, e.remember o a hot.propertyIndex)
      else e.scan o a
    | none => e.scan o a

/-- `turbojs_vm_property_ic_lookup_writable` has the same body. -/
def icLookupWritable (e : ICEntry) (bytecodeOffset o a atom : Nat) : Option (Nat × ICEntry) :=
  icLookup e bytecodeOffset o a atom

def freeWays (rt : Runtime) : List ICWay → Option Runtime
  | [] => some rt
  | w :: ways => do
    let rt ← jsFreeShape rt w.shape
    freeWays rt ways

def resetEntry (rt : Runtime) (e : ICEntry) (bytecodeOffset atom : Nat) :
    Option (Runtime × ICEntry) :=
  if e.bytecodeOffset ≠ bytecodeOffset ∨ e.atom ≠ atom then do
    let rt ← freeWays rt e.ways
    some (rt, { ICEntry.zero with bytecodeOffset := bytecodeOffset, atom := atom })
  else some (rt, e)

def placeWay (rt : Runtime) (e : ICEntry) (o a index : Nat) : Option (Runtime × ICEntry) :=
  match e.ways.findIdx? (fun w => w.shape = a) with
  | some i =>
    some (rt, { e with ways := e.ways.set i (ICWay.mk a index), hotWay := i }.remember o a index)
  | none =>
    if e.ways.length < icWays then do
      let sh ← rt.shapes a
      some (jsDupShape rt a sh,
        { e with ways := e.ways ++ [ICWay.mk a index], hotWay := e.ways.length }.remember o a index)
    else do
      let i := e.replacementWay % icWays
      let old ← e.ways[i]?
      let rt ← jsFreeShape rt old.shape
      let sh ← rt.shapes a
      some (jsDupShape rt a sh,
        { e with
          ways := e.ways.set i (ICWay.mk a index)
          hotWay := i
          replacementWay := e.replacementWay + 1 }.remember o a index)

def icFill (rt : Runtime) (e : ICEntry) (bytecodeOffset o a atom index : Nat) :
    Option (Runtime × ICEntry) := do
  let sh ← rt.shapes a
  if index ≥ sh.props.length then some (rt, e)
  else
    let (rt, e) ← resetEntry rt e bytecodeOffset atom
    placeWay rt e o a index

def SiteKind.caches : SiteKind → Fin 64 → Bool
  | .getField, flags => flags.val &&& 0x30 = 0
  | .putField, flags => flags.val &&& 0x3a = 2

def SiteKind.lookup : SiteKind → ICEntry → Nat → Nat → Nat → Nat → Option (Nat × ICEntry)
  | .getField => icLookup
  | .putField => icLookupWritable

/-- The part of `OP_get_field` and `OP_put_field` that touches the cache: on a miss, an own
property that the site may cache fills the entry. -/
def access (kind : SiteKind) (m : Machine) (f bytecodeOffset o atom : Nat) : Option Machine := do
  let a ← m.rt.shapeOf o
  let e ← m.entries[icIndex f bytecodeOffset]?
  match kind.lookup e bytecodeOffset o a atom with
  | some (_, e') => some { m with entries := m.entries.set (icIndex f bytecodeOffset) e' }
  | none => do
    let sh ← m.rt.shapes a
    match findOwnProperty sh atom with
    | none => some m
    | some i => do
      let p ← sh.props[i]?
      if kind.caches p.flags then do
        let (rt, e') ← icFill m.rt e bytecodeOffset o a atom i
        some ⟨rt, m.entries.set (icIndex f bytecodeOffset) e'⟩
      else some m

inductive Action where
  | op (op : Op)
  | access (f bytecodeOffset o atom : Nat)
  deriving DecidableEq, Repr

def Machine.step (code : Nat → Nat → SiteKind) (m : Machine) : Action → Option Machine
  | .op op => do
    let rt ← m.rt.apply op
    some { m with rt := rt }
  | .access f bytecodeOffset o atom => access (code f bytecodeOffset) m f bytecodeOffset o atom

/-- No object, and `functions` functions with empty caches. -/
def Machine.init (functions : Nat) : Machine :=
  ⟨Runtime.empty, List.replicate (icSize * functions) ICEntry.zero⟩

end TurboJS.Objects
