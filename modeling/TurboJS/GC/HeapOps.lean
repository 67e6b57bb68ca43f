import TurboJS.GC.ObjectGraph

namespace TurboJS.GC
open Foundation Objects

/-! The operations that take references and give them back. A caller's own references are those
from outside: what an operation consumes it takes from there, and what it returns is put there.
The address of a new block is an argument. -/

namespace JSHeap

/-- `js_free_value_rt`, `js_free_shape`, `free_var_ref` and `JS_FreeContext`. -/
def free (rs : List Ref) (h : JSHeap) : Option JSHeap := h.release Node.held rs

/-- `js_dup`, `js_dup_shape`, `JS_DupContext` and `JS_REF_COUNT(var_ref)++`. -/
def dupRefs (rs : List Ref) (h : JSHeap) : Option JSHeap := rs.foldlM (fun h r => h.dup r) h

def new (r : Ref) (n : Node) (h : JSHeap) : Option JSHeap :=
  if n.kind = r.kind then h.create Node.held r n else none

def update (r : Ref) (n : Node) (h : JSHeap) : Option JSHeap :=
  if n.kind = r.kind then h.rewrite Node.held r n else none

def context? (h : JSHeap) (ctx : Nat) : Option (List Value × List (Option Nat)) :=
  match h.node ⟨.context, ctx⟩ with
  | some (.context values shapes) => some (values, shapes)
  | _ => none

/-- `JS_NewContextRaw`, for `n` fields of values; there are five for shapes. -/
def newContextRaw (ctx n : Nat) (h : JSHeap) : Option JSHeap :=
  h.new ⟨.context, ctx⟩ (.context (.replicate n .plain) (.replicate 5 none))

/-- `set_value` on a field of a context. -/
def setContextValue (ctx i : Nat) (val : Value) (h : JSHeap) : Option JSHeap := do
  let (values, shapes) ← h.context? ctx
  let old ← values[i]?
  let h ← h.update ⟨.context, ctx⟩ (.context (values.set i val) shapes)
  h.free old.refs

/-- `js_new_shape_with` into a field of a context. -/
def setContextShape (ctx i sh : Nat) (h : JSHeap) : Option JSHeap := do
  let (values, shapes) ← h.context? ctx
  let old ← shapes[i]?
  let h ← h.update ⟨.context, ctx⟩ (.context values (shapes.set i (some sh)))
  h.free (pointer .shape old)

def shape? (h : JSHeap) (sh : Nat) : Option (Option Nat) :=
  match h.node ⟨.shape, sh⟩ with
  | some (.shape proto) => some proto
  | _ => none

def jsNewShapeNohash (sh : Nat) (proto : Option Nat) (h : JSHeap) : Option JSHeap := do
  let h ← h.dupRefs (pointer .object proto)
  h.new ⟨.shape, sh⟩ (.shape proto)

def jsCloneShape (sh sh1 : Nat) (h : JSHeap) : Option JSHeap := do
  let proto ← h.shape? sh1
  h.jsNewShapeNohash sh proto

/-- The part of `JS_SetPrototypeInternal` that sets the prototype of a shape. -/
def setShapeProto (sh : Nat) (proto : Option Nat) (h : JSHeap) : Option JSHeap := do
  let old ← h.shape? sh
  let h ← h.dupRefs (pointer .object proto)
  let h ← h.update ⟨.shape, sh⟩ (.shape proto)
  h.free (pointer .object old)

def object? (h : JSHeap) (p : Nat) : Option (Nat × List Property × ClassData) :=
  match h.node ⟨.object, p⟩ with
  | some (.object sh prop u) => some (sh, prop, u)
  | _ => none

def setObject (p sh : Nat) (prop : List Property) (u : ClassData) (h : JSHeap) : Option JSHeap :=
  h.update ⟨.object, p⟩ (.object sh prop u)

end JSHeap

def ClassData.initial : ClassData → ClassData
  | .plain => .plain
  | .array _ => .array []
  | .objectData _ => .objectData .plain
  | .mappedArguments _ => .mappedArguments []
  | .cFunction _ => .cFunction none
  | .bytecodeFunction _ _ _ => .bytecodeFunction none [] none
  | .boundFunction _ _ _ => .boundFunction .plain .plain []
  | .cFunctionData _ => .cFunctionData []
  | .forInIterator _ => .forInIterator .plain

namespace JSHeap

/-- `JS_NewObjectFromShape`, which consumes the shape and the properties. -/
def newObjectFromShape (p sh : Nat) (u : ClassData) (props : List Property) (h : JSHeap) :
    Option JSHeap :=
  h.new ⟨.object, p⟩ (.object sh props u.initial)

/-- `js_free_shape(p->shape); p->shape = sh`. -/
def setShape (p sh : Nat) (h : JSHeap) : Option JSHeap := do
  let (old, prop, u) ← h.object? p
  let h ← h.setObject p sh prop u
  h.free [⟨.shape, old⟩]

/-- `add_property`, with the value that its caller stores. -/
def addProperty (p : Nat) (pr : Property) (h : JSHeap) : Option JSHeap := do
  let (sh, prop, u) ← h.object? p
  h.setObject p sh (prop ++ [pr]) u

/-- `free_property` and the property that takes its place: a value that is set, a property that
changes its type, an instantiated property, a deleted one. -/
def replaceProperty (p i : Nat) (pr : Property) (h : JSHeap) : Option JSHeap := do
  let (sh, prop, u) ← h.object? p
  let old ← prop[i]?
  let h ← h.setObject p sh (prop.set i pr) u
  h.free old.held

/-- `set_value` on a data property. -/
def setValue (p i : Nat) (val : Value) (h : JSHeap) : Option JSHeap :=
  h.replaceProperty p i (.value val)

def deleteProperty (p i : Nat) (h : JSHeap) : Option JSHeap := h.replaceProperty p i .deleted

/-- The getter that `JS_DefineProperty` stores. -/
def setGetter (p i : Nat) (getter : Option Nat) (h : JSHeap) : Option JSHeap := do
  let (sh, prop, u) ← h.object? p
  match prop[i]? with
  | some (.getset old setter) =>
    let h ← h.dupRefs (pointer .object getter)
    let h ← h.setObject p sh (prop.set i (.getset getter setter)) u
    h.free (pointer .object old)
  | _ => none

/-- The setter that `JS_DefineProperty` stores. -/
def setSetter (p i : Nat) (setter : Option Nat) (h : JSHeap) : Option JSHeap := do
  let (sh, prop, u) ← h.object? p
  match prop[i]? with
  | some (.getset getter old) =>
    let h ← h.dupRefs (pointer .object setter)
    let h ← h.setObject p sh (prop.set i (.getset getter setter)) u
    h.free (pointer .object old)
  | _ => none

def compactProperties (p : Nat) (h : JSHeap) : Option JSHeap := do
  let (sh, prop, u) ← h.object? p
  h.setObject p sh (prop.filter (· ≠ .deleted)) u

/-- New data of the class of an object; `freed` of the old data is given back, and the rest goes
to the caller. -/
def setData (p : Nat) (u : ClassData) (freed : List Ref) (h : JSHeap) : Option JSHeap := do
  let (sh, prop, _) ← h.object? p
  let h ← h.setObject p sh prop u
  h.free freed

def data? (h : JSHeap) (p : Nat) : Option ClassData := (h.object? p).map fun o => o.2.2

/-- The element that `expand_fast_array` makes room for. -/
def appendFastArrayElement (p : Nat) (val : Value) (h : JSHeap) : Option JSHeap := do
  match ← h.data? p with
  | .array values => h.setData p (.array (values ++ [val])) []
  | _ => none

/-- `set_value` on an element. -/
def setFastArrayElement (p i : Nat) (val : Value) (h : JSHeap) : Option JSHeap := do
  match ← h.data? p with
  | .array values =>
    let old ← values[i]?
    h.setData p (.array (values.set i val)) old.refs
  | _ => none

/-- The elements from `len` on are freed. -/
def truncateFastArray (p len : Nat) (h : JSHeap) : Option JSHeap := do
  match ← h.data? p with
  | .array values => h.setData p (.array (values.take len)) ((values.drop len).flatMap Value.refs)
  | _ => none

def takeFastArrayElement (p i : Nat) (h : JSHeap) : Option JSHeap := do
  match ← h.data? p with
  | .array values => h.setData p (.array (values.eraseIdx i)) []
  | _ => none

/-- `convert_fast_array_to_array`: the elements become properties. -/
def convertFastArrayToArray (p : Nat) (h : JSHeap) : Option JSHeap := do
  let (sh, prop, u) ← h.object? p
  match u with
  | .array values => h.setObject p sh (prop ++ values.map .value) (.array [])
  | .mappedArguments varRefs =>
    h.setObject p sh (prop ++ varRefs.flatMap fun v => v.toList.map .varRef) (.mappedArguments [])
  | _ => none

def setObjectData (p : Nat) (val : Value) (h : JSHeap) : Option JSHeap := do
  match ← h.data? p with
  | .objectData old => h.setData p (.objectData val) old.refs
  | _ => none

/-- The realm of `JS_NewCFunction3`. -/
def setCFunctionRealm (p ctx : Nat) (h : JSHeap) : Option JSHeap := do
  match ← h.data? p with
  | .cFunction none =>
    let h ← h.dupRefs [⟨.context, ctx⟩]
    h.setData p (.cFunction (some ctx)) []
  | _ => none

/-- The record of `JS_NewCFunctionData2`. -/
def setCFunctionData (p : Nat) (data : List Value) (h : JSHeap) : Option JSHeap := do
  match ← h.data? p with
  | .cFunctionData [] =>
    let h ← h.dupRefs (data.flatMap Value.refs)
    h.setData p (.cFunctionData data) []
  | _ => none

/-- The record of `js_function_bind`. -/
def setBoundFunction (p : Nat) (funcObj thisVal : Value) (argv : List Value) (h : JSHeap) :
    Option JSHeap := do
  match ← h.data? p with
  | .boundFunction .plain .plain [] =>
    let h ← h.dupRefs (ClassData.boundFunction funcObj thisVal argv).held
    h.setData p (.boundFunction funcObj thisVal argv) []
  | _ => none

/-- The object of `build_for_in_iterator`, which is consumed. -/
def setForInObject (p : Nat) (obj : Value) (h : JSHeap) : Option JSHeap := do
  match ← h.data? p with
  | .forInIterator old => h.setData p (.forInIterator obj) old.refs
  | _ => none

/-- The table `sf->var_refs` has the open references to the variables of the frame. -/
def frameVarRef (h : JSHeap) (sf varRefIdx : Nat) : Option Nat :=
  (h.blocks.find? fun r => h.node r = some (.openVarRef sf varRefIdx)).map Ref.index

/-- `js_create_var_ref` and `js_create_module_var`, with the value that is stored next. -/
def createVarRef (v : Nat) (val : Value) (h : JSHeap) : Option JSHeap :=
  h.new ⟨.varRef, v⟩ (.detachedVarRef val)

/-- `set_value` on the value of a detached variable reference. -/
def setVarRefValue (v : Nat) (val : Value) (h : JSHeap) : Option JSHeap := do
  match h.node ⟨.varRef, v⟩ with
  | some (.detachedVarRef old) =>
    let h ← h.update ⟨.varRef, v⟩ (.detachedVarRef val)
    h.free old.refs
  | _ => none

/-- `close_var_ref`, when the variable has the value `val`. -/
def closeVarRef (v : Nat) (val : Value) (h : JSHeap) : Option JSHeap := do
  match h.node ⟨.varRef, v⟩ with
  | some (.openVarRef _ _) =>
    let h ← h.dupRefs val.refs
    let h ← h.update ⟨.varRef, v⟩ (.detachedVarRef val)
    some (h.relink ⟨.varRef, v⟩)
  | _ => none

end JSHeap

inductive Capture where
  | captured (sf varRefIdx : Nat)
  | uncaptured (val : Value)
  | ref (varRef : Nat)
  deriving DecidableEq, Repr

namespace JSHeap

/-- `get_var_ref`, and `cur_var_refs[idx]` with another reference; `v` is the address for a new
variable reference. -/
def getVarRef (h : JSHeap) (v : Nat) : Capture → Option (JSHeap × Nat)
  | .captured sf varRefIdx =>
    match h.frameVarRef sf varRefIdx with
    | some old => (h.dupRefs [⟨.varRef, old⟩]).map (·, old)
    | none => (h.new ⟨.varRef, v⟩ (.openVarRef sf varRefIdx)).map (·, v)
  | .uncaptured val => do
    let h ← h.dupRefs val.refs
    (h.new ⟨.varRef, v⟩ (.detachedVarRef val)).map (·, v)
  | .ref old => (h.dupRefs [⟨.varRef, old⟩]).map (·, old)

/-- The loop of `js_closure2` and of `js_build_mapped_arguments`, over the captures with the
addresses for new variable references. -/
def getVarRefs : List (Nat × Capture) → JSHeap → Option (JSHeap × List (Option Nat))
  | [], h => some (h, [])
  | (v, capture) :: captures, h => do
    let (h, v) ← h.getVarRef v capture
    let (h, varRefs) ← getVarRefs captures h
    some (h, some v :: varRefs)

/-- `js_closure2`, which consumes the bytecode. -/
def jsClosure2 (p b : Nat) (captures : List (Nat × Capture)) (h : JSHeap) : Option JSHeap := do
  match ← h.data? p with
  | .bytecodeFunction none [] none =>
    let (h, varRefs) ← getVarRefs captures h
    h.setData p (.bytecodeFunction none varRefs (some b)) []
  | _ => none

def setHomeObject (p : Nat) (homeObject : Option Nat) (h : JSHeap) : Option JSHeap := do
  match ← h.data? p with
  | .bytecodeFunction old varRefs b =>
    let h ← h.setData p (.bytecodeFunction none varRefs b) (pointer .object old)
    let h ← h.dupRefs (pointer .object homeObject)
    h.setData p (.bytecodeFunction homeObject varRefs b) []
  | _ => none

/-- The table of `js_build_mapped_arguments`. -/
def setMappedArguments (p : Nat) (captures : List (Nat × Capture)) (h : JSHeap) :
    Option JSHeap := do
  match ← h.data? p with
  | .mappedArguments [] =>
    let (h, varRefs) ← getVarRefs captures h
    h.setData p (.mappedArguments varRefs) []
  | _ => none

def bytecode? (h : JSHeap) (b : Nat) : Option (List Value × Option Nat × List ICEntry) :=
  match h.node ⟨.functionBytecode, b⟩ with
  | some (.functionBytecode cpool realm propertyIC) => some (cpool, realm, propertyIC)
  | _ => none

/-- `js_create_function`, which consumes the constants. -/
def createFunction (b ctx : Nat) (cpool : List Value) (h : JSHeap) : Option JSHeap := do
  let h ← h.dupRefs [⟨.context, ctx⟩]
  h.new ⟨.functionBytecode, b⟩ (.functionBytecode cpool (some ctx) [])

/-- `turbojs_vm_property_ic_slot`; the table is allocated when it is first used. -/
def icEntry (h : JSHeap) (b bytecodeOffset : Nat) : Option ICEntry := do
  let (_, _, propertyIC) ← h.bytecode? b
  if propertyIC = [] then some ICEntry.zero else propertyIC[icSlot bytecodeOffset]?

def setEntry (b bytecodeOffset : Nat) (e : ICEntry) (h : JSHeap) : Option JSHeap := do
  let (cpool, realm, propertyIC) ← h.bytecode? b
  let table := if propertyIC = [] then .replicate icSize ICEntry.zero else propertyIC
  h.update ⟨.functionBytecode, b⟩
    (.functionBytecode cpool realm (table.set (icSlot bytecodeOffset) e))

def icLookup (b bytecodeOffset p atom : Nat) (h : JSHeap) : Option JSHeap := do
  let (sh, _, _) ← h.object? p
  let e ← h.icEntry b bytecodeOffset
  match Objects.icLookup e bytecodeOffset p sh atom with
  | some (_, e) => h.setEntry b bytecodeOffset e
  | none => some h

/-- The first part of `turbojs_vm_property_ic_fill`: an entry of another site is cleared. -/
def icReset (b bytecodeOffset atom : Nat) (h : JSHeap) : Option JSHeap := do
  let e ← h.icEntry b bytecodeOffset
  if e.bytecodeOffset ≠ bytecodeOffset ∨ e.atom ≠ atom then
    let h ← h.setEntry b bytecodeOffset
      { ICEntry.zero with bytecodeOffset := bytecodeOffset, atom := atom }
    h.free (wayShapes e.ways)
  else some h

def icAddWay (b bytecodeOffset p sh index : Nat) (e : ICEntry) (h : JSHeap) : Option JSHeap := do
  if e.ways.length < icWays then
    let h ← h.dupRefs [⟨.shape, sh⟩]
    h.setEntry b bytecodeOffset
      ({ e with ways := e.ways ++ [ICWay.mk sh index], hotWay := e.ways.length }.remember p sh index)
  else
    let i := e.replacementWay % icWays
    let old ← e.ways[i]?
    let h ← h.dupRefs [⟨.shape, sh⟩]
    let h ← h.setEntry b bytecodeOffset
      ({ e with
        ways := e.ways.set i (ICWay.mk sh index)
        hotWay := i
        replacementWay := e.replacementWay + 1 }.remember p sh index)
    h.free [⟨.shape, old.shape⟩]

/-- `turbojs_vm_property_ic_fill`, for the property at `index` of the object. -/
def icFill (b bytecodeOffset p atom index : Nat) (h : JSHeap) : Option JSHeap := do
  let (sh, prop, _) ← h.object? p
  if index < prop.length then
    let h ← h.icReset b bytecodeOffset atom
    let e ← h.icEntry b bytecodeOffset
    match e.ways.findIdx? (fun w => w.shape = sh) with
    | some i =>
      h.setEntry b bytecodeOffset
        ({ e with ways := e.ways.set i (ICWay.mk sh index), hotWay := i }.remember p sh index)
    | none => h.icAddWay b bytecodeOffset p sh index e
  else some h

end JSHeap

end TurboJS.GC
