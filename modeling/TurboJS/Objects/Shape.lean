import Mathlib.Algebra.Order.Ring.Int

namespace TurboJS.Objects

/-! Shapes, the shape hash table and the transition cache. Shapes live at addresses; a
computation that allocates takes the address it gets as an argument, `none` for a failed
allocation, so that an address may be used again after it was freed. -/

/-- `JSShapeProperty`: an atom, zero for a deleted entry, and six bits of flags. -/
structure ShapeProperty where
  atom : Nat
  flags : Fin 64
  deriving DecidableEq, Repr

def deletedProperty : ShapeProperty := ⟨0, 0⟩

/-- `JS_PROP_C_W_E`. -/
def jsPropCWE : Fin 64 := 7

/-- `JSShape`. The property hash chains are not modelled: a chain finds the last entry with
an atom. -/
structure Shape where
  proto : Option Nat
  props : List ShapeProperty
  propSize : Nat
  hashSize : Nat
  deletedCount : Nat
  isHashed : Bool
  hash : UInt32
  refCount : Nat
  deriving DecidableEq, Repr

structure Transition where
  source : Nat
  target : Nat
  atom : Nat
  flags : Fin 64
  deriving DecidableEq, Repr

/-- The part of `JSRuntime` that shapes use, and the shape of each object; a freed object
has none. -/
structure Runtime where
  shapes : Nat → Option Shape
  shapeHashBits : Nat
  shapeHashCount : Nat
  shapeHash : Nat → List Nat
  transitions : Nat → Option Transition
  objects : List (Option Nat)

def Runtime.empty : Runtime where
  shapes _ := none
  shapeHashBits := 6
  shapeHashCount := 0
  shapeHash _ := []
  transitions _ := none
  objects := []

def jsPropInitialSize : Nat := 4

def jsPropInitialHashSize : Nat := 4

def hash32 (a : UInt32) : UInt32 := a * 0x61c88647

def shapeHashMix (h val : UInt32) : UInt32 := hash32 (h + val)

def getShapeHash (h : UInt32) (hashBits : Nat) : Nat := h.toNat >>> (32 - hashBits)

def shapeInitialHash (proto : Option Nat) : UInt32 :=
  let address := proto.getD 0
  shapeHashMix (shapeHashMix 1 (UInt32.ofNat address)) (UInt32.ofNat (address >>> 32))

def extendHash (h : UInt32) (atom : Nat) (flags : Fin 64) : UInt32 :=
  shapeHashMix (shapeHashMix h (UInt32.ofNat atom)) (UInt32.ofNat flags.val)

def Runtime.bucket (rt : Runtime) (h : UInt32) : Nat := getShapeHash h rt.shapeHashBits

def Runtime.setShape (rt : Runtime) (a : Nat) (sh : Shape) : Runtime :=
  { rt with shapes := Function.update rt.shapes a (some sh) }

def Runtime.dropShape (rt : Runtime) (a : Nat) : Runtime :=
  { rt with shapes := Function.update rt.shapes a none }

def Runtime.setChain (rt : Runtime) (k : Nat) (chain : List Nat) : Runtime :=
  { rt with shapeHash := Function.update rt.shapeHash k chain }

def Runtime.setTransition (rt : Runtime) (k : Nat) (t : Transition) : Runtime :=
  { rt with transitions := Function.update rt.transitions k (some t) }

section

variable (rt : Runtime) (a b : Nat) (sh : Shape)

@[simp] theorem setShape_self : (rt.setShape a sh).shapes a = some sh :=
  Function.update_self _ _ _

theorem setShape_of_ne (h : b ≠ a) : (rt.setShape a sh).shapes b = rt.shapes b :=
  Function.update_of_ne h _ _

@[simp] theorem dropShape_self : (rt.dropShape a).shapes a = none :=
  Function.update_self _ _ _

theorem dropShape_of_ne (h : b ≠ a) : (rt.dropShape a).shapes b = rt.shapes b :=
  Function.update_of_ne h _ _

@[simp] theorem setShape_transitions : (rt.setShape a sh).transitions = rt.transitions := rfl

@[simp] theorem setShape_objects : (rt.setShape a sh).objects = rt.objects := rfl

end

def jsShapeHashLink (rt : Runtime) (a : Nat) (h : UInt32) : Runtime :=
  let k := rt.bucket h
  { rt.setChain k (a :: rt.shapeHash k) with shapeHashCount := rt.shapeHashCount + 1 }

def jsShapeHashUnlink (rt : Runtime) (a : Nat) (h : UInt32) : Option Runtime :=
  let k := rt.bucket h
  if a ∈ rt.shapeHash k then
    some { rt.setChain k ((rt.shapeHash k).erase a) with
      shapeHashCount := rt.shapeHashCount - 1 }
  else none

/-- `if (sh->is_hashed) js_shape_hash_unlink(rt, sh)`. -/
def unlinkIfHashed (rt : Runtime) (a : Nat) (sh : Shape) : Option Runtime :=
  if sh.isHashed then jsShapeHashUnlink rt a sh.hash else some rt

/-- `if (sh->is_hashed) js_shape_hash_link(rt, sh)`. -/
def linkIfHashed (rt : Runtime) (a : Nat) (sh : Shape) : Runtime :=
  if sh.isHashed then jsShapeHashLink rt a sh.hash else rt

def rehashChain (shapes : Nat → Option Shape) (bits : Nat) (table : Nat → List Nat)
    (chain : List Nat) : Nat → List Nat :=
  chain.foldl (fun table a =>
    match shapes a with
    | some sh =>
      let k := getShapeHash sh.hash bits
      Function.update table k (a :: table k)
    | none => table) table

def resizeShapeHash (rt : Runtime) (newBits : Nat) : Runtime :=
  { rt with
    shapeHashBits := newBits
    shapeHash := rehashChain rt.shapes newBits (fun _ => [])
      ((List.range (2 ^ rt.shapeHashBits)).flatMap rt.shapeHash) }

def Runtime.canAllocate (rt : Runtime) (a : Nat) : Bool := (rt.shapes a).isNone

def newShapeNohash (proto : Option Nat) (hash : UInt32) : Shape :=
  ⟨proto, [], jsPropInitialSize, jsPropInitialHashSize, 0, true, hash, 1⟩

/-- `grow` tells whether the allocation of a larger table succeeds. -/
def growShapeHash (rt : Runtime) (grow : Bool) : Runtime :=
  if 2 * (rt.shapeHashCount + 1) > 2 ^ rt.shapeHashBits ∧ grow
  then resizeShapeHash rt (rt.shapeHashBits + 1) else rt

def jsNewShape (rt : Runtime) (proto : Option Nat) (grow : Bool) (a : Option Nat) :
    Option (Runtime × Nat) :=
  let rt := growShapeHash rt grow
  match a with
  | some a =>
    if rt.canAllocate a then
      let h := shapeInitialHash proto
      some (jsShapeHashLink (rt.setShape a (newShapeNohash proto h)) a h, a)
    else none
  | none => none

def jsCloneShape (rt : Runtime) (sh : Shape) (a : Option Nat) : Option (Runtime × Nat) :=
  match a with
  | some a =>
    if rt.canAllocate a then
      some (rt.setShape a { sh with isHashed := false, refCount := 1 }, a)
    else none
  | none => none

theorem jsCloneShape_eq_some {rt rt' : Runtime} {sh : Shape} {clone : Option Nat} {a1 : Nat}
    (hr : jsCloneShape rt sh clone = some (rt', a1)) :
    rt.shapes a1 = none ∧
      rt' = rt.setShape a1 { sh with isHashed := false, refCount := 1 } := by
  unfold jsCloneShape at hr
  split at hr
  · split at hr
    · rename_i hfree
      cases hr
      exact ⟨Option.isNone_iff_eq_none.mp hfree, rfl⟩
    · cases hr
  · cases hr

def jsDupShape (rt : Runtime) (a : Nat) (sh : Shape) : Runtime :=
  rt.setShape a { sh with refCount := sh.refCount + 1 }

def Runtime.forgetTransitions (rt : Runtime) (a : Nat) : Runtime :=
  { rt with transitions := fun k =>
      match rt.transitions k with
      | some t => if t.source = a ∨ t.target = a then none else some t
      | none => none }

def jsFreeShape0 (rt : Runtime) (a : Nat) (sh : Shape) : Option Runtime := do
  let rt ← unlinkIfHashed (rt.forgetTransitions a) a sh
  some (rt.dropShape a)

def jsFreeShape (rt : Runtime) (a : Nat) : Option Runtime := do
  let sh ← rt.shapes a
  if sh.refCount ≤ 1 then jsFreeShape0 rt a sh
  else some (rt.setShape a { sh with refCount := sh.refCount - 1 })

def growHashSize (size : Nat) : Nat → Nat → Nat
  | 0, hashSize => hashSize
  | fuel + 1, hashSize =>
    if hashSize < size then growHashSize size fuel (2 * hashSize) else hashSize

def resizedSize (sh : Shape) (count : Nat) : Nat :=
  if sh.propSize < 7 then max count 7 else max count (sh.propSize * 3 / 2)

def Shape.resized (sh : Shape) (count : Nat) : Shape :=
  let newSize := resizedSize sh count
  { sh with propSize := newSize, hashSize := growHashSize newSize newSize sh.hashSize }

/-- The shape moves to `dest`: with a larger property hash it is always copied, without one it
is reallocated and may stay where it is. -/
def resizeProperties (rt : Runtime) (a : Nat) (sh : Shape) (count : Nat) (dest : Option Nat) :
    Option (Runtime × Nat) :=
  match dest with
  | none => none
  | some a' =>
    if a' = a then
      if (sh.resized count).hashSize = sh.hashSize then some (rt.setShape a (sh.resized count), a)
      else none
    else if rt.canAllocate a' then some ((rt.dropShape a).setShape a' (sh.resized count), a')
    else none

def growShape (rt : Runtime) (a : Nat) (sh : Shape) (dest : Option Nat) : Option (Runtime × Nat) :=
  if sh.props.length ≥ sh.propSize then resizeProperties rt a sh (sh.props.length + 1) dest
  else some (rt, a)

def Shape.append (sh : Shape) (atom : Nat) (flags : Fin 64) : Shape :=
  { sh with
    hash := if sh.isHashed then extendHash sh.hash atom flags else sh.hash
    props := sh.props ++ [⟨atom, flags⟩] }

/-- The property is appended to the shape in place. The result tells where the shape is now;
without an address the shape could not grow. -/
def addShapeProperty (rt : Runtime) (a : Nat) (atom : Nat) (flags : Fin 64) (dest : Option Nat) :
    Option (Runtime × Option Nat) := do
  let sh ← rt.shapes a
  let rt ← unlinkIfHashed rt a sh
  match growShape rt a sh dest with
  | none => some (linkIfHashed rt a sh, none)
  | some (rt, a') => do
    let sh' ← rt.shapes a'
    let sh' := sh'.append atom flags
    some (linkIfHashed (rt.setShape a' sh') a' sh', some a')

def findHashedShapeProto (rt : Runtime) (proto : Option Nat) : Option Nat :=
  let h := shapeInitialHash proto
  (rt.shapeHash (rt.bucket h)).find? fun a =>
    match rt.shapes a with
    | some sh => sh.hash = h ∧ sh.proto = proto ∧ sh.props.length = 0
    | none => false

def transitionIndex (a atom : Nat) (flags : Fin 64) : Nat :=
  (a >>> 4 ^^^ atom ^^^ (UInt32.ofNat flags.val * 0x9e3779b9).toNat) % 64

/-- The test of the hash chain walk: `a1` is `sh` with the property. -/
def isExtension (rt : Runtime) (sh : Shape) (atom : Nat) (flags : Fin 64) (a1 : Nat) : Bool :=
  match rt.shapes a1 with
  | some sh1 =>
    sh1.hash = extendHash sh.hash atom flags ∧ sh1.proto = sh.proto ∧
      sh1.props = sh.props ++ [⟨atom, flags⟩]
  | none => false

def walkHashChain (rt : Runtime) (a : Nat) (sh : Shape) (atom : Nat) (flags : Fin 64) :
    Option Nat × Runtime :=
  match (rt.shapeHash (rt.bucket (extendHash sh.hash atom flags))).find?
      (isExtension rt sh atom flags) with
  | some a1 => (some a1, rt.setTransition (transitionIndex a atom flags) ⟨a, a1, atom, flags⟩)
  | none => (none, rt)

def Transition.isFor (t : Transition) (a atom : Nat) (flags : Fin 64) : Bool :=
  t.source = a ∧ t.atom = atom ∧ t.flags = flags

/-- The shape that `sh` becomes with the property: from the transition cache, or from the
hash chain. -/
def findHashedShapeProp (rt : Runtime) (a : Nat) (sh : Shape) (atom : Nat) (flags : Fin 64) :
    Option Nat × Runtime :=
  match rt.transitions (transitionIndex a atom flags) with
  | some t => if t.isFor a atom flags then (some t.target, rt) else walkHashChain rt a sh atom flags
  | none => walkHashChain rt a sh atom flags

def Runtime.shapeOf (rt : Runtime) (o : Nat) : Option Nat := (rt.objects[o]?).join

def Runtime.setObject (rt : Runtime) (o : Nat) (a : Option Nat) : Runtime :=
  { rt with objects := rt.objects.set o a }

def jsNewObjectProto (rt : Runtime) (proto : Option Nat) (grow : Bool) (a : Option Nat) :
    Option Runtime :=
  match findHashedShapeProto rt proto with
  | some a => do
    let sh ← rt.shapes a
    let rt := jsDupShape rt a sh
    some { rt with objects := rt.objects ++ [some a] }
  | none => do
    let (rt, a) ← jsNewShape rt proto grow a
    some { rt with objects := rt.objects ++ [some a] }

def addPropertyInPlace (rt : Runtime) (o a atom : Nat) (flags : Fin 64) (dest : Option Nat) :
    Option Runtime :=
  match addShapeProperty rt a atom flags dest with
  | some (rt, some a') => some (rt.setObject o (some a'))
  | some (rt, none) => some rt
  | none => none

def takeHashedClone (rt : Runtime) (o a : Nat) (sh : Shape) (a1 : Nat) : Option Runtime := do
  let rt := jsShapeHashLink (rt.setShape a1 { sh with refCount := 1 }) a1 sh.hash
  let rt ← jsFreeShape rt a
  some (rt.setObject o (some a1))

def takeShape (rt : Runtime) (o a a1 : Nat) : Option Runtime := do
  let sh1 ← rt.shapes a1
  jsFreeShape ((jsDupShape rt a1 sh1).setObject o (some a1)) a

/-- `add_property`; `clone` and `dest` are the addresses of its two allocations. -/
def addProperty (rt : Runtime) (o atom : Nat) (flags : Fin 64) (clone dest : Option Nat) :
    Option Runtime := do
  let a ← rt.shapeOf o
  let sh ← rt.shapes a
  if sh.isHashed then
    match findHashedShapeProp rt a sh atom flags with
    | (some a1, rt) => takeShape rt o a a1
    | (none, rt) =>
      if sh.refCount ≠ 1 then
        match jsCloneShape rt sh clone with
        | none => some rt
        | some (rt, a1) => do
          let rt ← takeHashedClone rt o a sh a1
          addPropertyInPlace rt o a1 atom flags dest
      else addPropertyInPlace rt o a atom flags dest
  else addPropertyInPlace rt o a atom flags dest

/-- The last entry with an atom, as the property hash chain finds it. Deleted entries are in no
chain. -/
def findOwnProperty (sh : Shape) (atom : Nat) : Option Nat :=
  (List.range sh.props.length).reverse.find? fun i =>
    match sh.props[i]? with
    | some p => p.atom = atom ∧ p.atom ≠ 0
    | none => false

/-- A hashed shape is cloned or, when the object is its only owner, taken out of the hash
table. Without a result address the clone failed. -/
def jsShapePrepareUpdate (rt : Runtime) (o a : Nat) (sh : Shape) (clone : Option Nat) :
    Option (Runtime × Option Nat) :=
  if sh.isHashed then
    if sh.refCount ≠ 1 then
      match jsCloneShape rt sh clone with
      | none => some (rt, none)
      | some (rt, a1) => do
        let rt ← jsFreeShape rt a
        some (rt.setObject o (some a1), some a1)
    else do
      let rt ← jsShapeHashUnlink rt a sh.hash
      some (rt.setShape a { sh with isHashed := false }, some a)
  else some (rt, some a)

def halveHashSize (size : Nat) : Nat → Nat → Nat
  | 0, hashSize => hashSize
  | fuel + 1, hashSize =>
    if hashSize / 2 ≥ size then halveHashSize size fuel (hashSize / 2) else hashSize

def Shape.compacted (sh : Shape) : Shape :=
  let newSize := max jsPropInitialSize (sh.props.length - sh.deletedCount)
  { sh with
    props := sh.props.filter (fun p => p.atom ≠ 0)
    propSize := newSize
    hashSize := halveHashSize newSize sh.hashSize sh.hashSize
    deletedCount := 0 }

/-- The shape is copied to `dest` without its deleted entries. -/
def compactProperties (rt : Runtime) (o a : Nat) (sh : Shape) (dest : Option Nat) : Runtime :=
  match dest with
  | some a' =>
    if a' ≠ a ∧ rt.canAllocate a' then
      ((rt.dropShape a).setShape a' sh.compacted).setObject o (some a')
    else rt
  | none => rt

def jsPropConfigurable (flags : Fin 64) : Bool := flags.val.testBit 0

def Shape.deleteAt (sh : Shape) (i : Nat) : Shape :=
  { sh with props := sh.props.set i deletedProperty, deletedCount := sh.deletedCount + 1 }

def Shape.manyDeleted (sh : Shape) : Bool :=
  sh.deletedCount ≥ 8 ∧ sh.deletedCount ≥ sh.props.length / 2

def deleteShapeProperty (rt : Runtime) (o a : Nat) (sh : Shape) (i : Nat) (dest : Option Nat) :
    Runtime :=
  if (sh.deleteAt i).manyDeleted then
    compactProperties (rt.setShape a (sh.deleteAt i)) o a (sh.deleteAt i) dest
  else rt.setShape a (sh.deleteAt i)

/-- `delete_property` on an object that is not exotic; `clone` and `dest` are the addresses of
its two allocations. -/
def deleteProperty (rt : Runtime) (o atom : Nat) (clone dest : Option Nat) : Option Runtime := do
  let a ← rt.shapeOf o
  let sh ← rt.shapes a
  match findOwnProperty sh atom with
  | none => some rt
  | some i => do
    let p ← sh.props[i]?
    if jsPropConfigurable p.flags then
      match jsShapePrepareUpdate rt o a sh clone with
      | none => none
      | some (rt, none) => some rt
      | some (rt, some a1) => do
        let sh1 ← rt.shapes a1
        some (deleteShapeProperty rt o a1 sh1 i dest)
    else some rt

def Shape.setFlagsAt (sh : Shape) (i atom : Nat) (flags : Fin 64) : Shape :=
  { sh with props := sh.props.set i ⟨atom, flags⟩ }

/-- `js_update_property_flags` on the property that `find_own_property` gives. -/
def jsUpdatePropertyFlags (rt : Runtime) (o atom : Nat) (flags : Fin 64) (clone : Option Nat) :
    Option Runtime := do
  let a ← rt.shapeOf o
  let sh ← rt.shapes a
  match findOwnProperty sh atom with
  | none => some rt
  | some i => do
    let p ← sh.props[i]?
    if flags ≠ p.flags then
      match jsShapePrepareUpdate rt o a sh clone with
      | none => none
      | some (rt, none) => some rt
      | some (rt, some a1) => do
        let sh1 ← rt.shapes a1
        some (rt.setShape a1 (sh1.setFlagsAt i atom flags))
    else some rt

def retainShape (rt : Runtime) (a : Nat) : Option Runtime := do
  let sh ← rt.shapes a
  some (jsDupShape rt a sh)

def jsNewObjectFromShape (rt : Runtime) (a : Nat) : Option Runtime := do
  let sh ← rt.shapes a
  if sh.isHashed then
    let rt := jsDupShape rt a sh
    some { rt with objects := rt.objects ++ [some a] }
  else none

def freeObject (rt : Runtime) (o : Nat) : Option Runtime := do
  let a ← rt.shapeOf o
  jsFreeShape (rt.setObject o none) a

inductive Op where
  | newObject (proto : Option Nat) (grow : Bool) (a : Option Nat)
  | newObjectFromShape (a : Nat)
  | addProperty (o atom : Nat) (flags : Fin 64) (clone dest : Option Nat)
  | deleteProperty (o atom : Nat) (clone dest : Option Nat)
  | updateFlags (o atom : Nat) (flags : Fin 64) (clone : Option Nat)
  | retain (a : Nat)
  | release (a : Nat)
  | freeObject (o : Nat)
  deriving DecidableEq, Repr

def Runtime.apply (rt : Runtime) : Op → Option Runtime
  | .newObject proto grow a => jsNewObjectProto rt proto grow a
  | .newObjectFromShape a => jsNewObjectFromShape rt a
  | .addProperty o atom flags clone dest => Objects.addProperty rt o atom flags clone dest
  | .deleteProperty o atom clone dest => Objects.deleteProperty rt o atom clone dest
  | .updateFlags o atom flags clone => jsUpdatePropertyFlags rt o atom flags clone
  | .retain a => retainShape rt a
  | .release a => jsFreeShape rt a
  | .freeObject o => Objects.freeObject rt o

end TurboJS.Objects
