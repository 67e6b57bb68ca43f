import TurboJS.Foundation.CountedHeap
import TurboJS.Objects.PropertyCache

namespace TurboJS.GC
open Foundation Objects

/-! The GC objects, the references that they are counted for, and those that the collector
enumerates. -/

/-- `JSGCObjectTypeEnum`. -/
inductive Kind where
  | object
  | functionBytecode
  | varRef
  | shape
  | context
  deriving DecidableEq, Repr

structure Ref where
  kind : Kind
  index : Nat
  deriving DecidableEq, Repr

/-- `JSValue`; the values without a GC object are not told apart. -/
inductive Value where
  | plain
  | object (p : Nat)
  | functionBytecode (b : Nat)
  deriving DecidableEq, Repr

/-- What `JS_DupValue` counts, `JS_FreeValueRT` gives back and `JS_MarkValue` marks. -/
def Value.refs : Value → List Ref
  | .plain => []
  | .object p => [⟨.object, p⟩]
  | .functionBytecode b => [⟨.functionBytecode, b⟩]

def pointer (kind : Kind) (p : Option Nat) : List Ref := p.toList.map fun p => ⟨kind, p⟩

/-- `JSProperty` with the type that its shape has for it; a deleted one has no atom. -/
inductive Property where
  | value (value : Value)
  | getset (getter setter : Option Nat)
  | varRef (varRef : Nat)
  | autoinit (realm : Nat)
  | deleted
  deriving DecidableEq, Repr

inductive ClassData where
  | plain
  | array (values : List Value)
  | objectData (value : Value)
  | mappedArguments (varRefs : List (Option Nat))
  | cFunction (realm : Option Nat)
  | bytecodeFunction (homeObject : Option Nat) (varRefs : List (Option Nat))
      (functionBytecode : Option Nat)
  | boundFunction (funcObj thisVal : Value) (argv : List Value)
  | cFunctionData (data : List Value)
  | forInIterator (obj : Value)
  deriving DecidableEq, Repr

/-- A counted block. A variable reference is open while its variable is in the frame `sf`, and
has its place in the table of the frame; it is a GC object once it is detached. -/
inductive Node where
  | object (shape : Nat) (prop : List Property) (u : ClassData)
  | functionBytecode (cpool : List Value) (realm : Option Nat) (propertyIC : List ICEntry)
  | openVarRef (sf varRefIdx : Nat)
  | detachedVarRef (value : Value)
  | shape (proto : Option Nat)
  | context (values : List Value) (shapes : List (Option Nat))
  deriving DecidableEq, Repr

def Node.kind : Node → Kind
  | .object .. => .object
  | .functionBytecode .. => .functionBytecode
  | .openVarRef .. | .detachedVarRef .. => .varRef
  | .shape .. => .shape
  | .context .. => .context

def Node.isGCObject : Node → Bool
  | .openVarRef .. => false
  | _ => true

def Property.held : Property → List Ref
  | .value val => val.refs
  | .getset getter setter => pointer .object getter ++ pointer .object setter
  | .varRef v => [⟨.varRef, v⟩]
  | .autoinit realm => [⟨.context, realm⟩]
  | .deleted => []

/-- The finalizers: `js_array_finalizer`, `js_object_data_finalizer`,
`js_mapped_arguments_finalizer`, `js_c_function_finalizer`, `js_bytecode_function_finalizer`,
`js_bound_function_finalizer`, `js_c_function_data_finalizer`, `js_for_in_iterator_finalizer`. -/
def ClassData.held : ClassData → List Ref
  | .plain => []
  | .array values => values.flatMap Value.refs
  | .objectData value => value.refs
  | .mappedArguments varRefs => varRefs.flatMap (pointer .varRef)
  | .cFunction realm => pointer .context realm
  | .bytecodeFunction homeObject varRefs functionBytecode =>
    pointer .object homeObject ++
      match functionBytecode with
      | some b => varRefs.flatMap (pointer .varRef) ++ [⟨.functionBytecode, b⟩]
      | none => []
  | .boundFunction funcObj thisVal argv => funcObj.refs ++ thisVal.refs ++ argv.flatMap Value.refs
  | .cFunctionData data => data.flatMap Value.refs
  | .forInIterator obj => obj.refs

def wayShapes (ways : List ICWay) : List Ref := ways.map fun w => ⟨.shape, w.shape⟩

def propertyICHeld (propertyIC : List ICEntry) : List Ref :=
  propertyIC.flatMap fun e => wayShapes e.ways

/-- What a block gives back when it is freed: `free_object`, `free_function_bytecode`,
`free_var_ref`, `js_free_shape0`, `turbojs_internal_free_context`. -/
def Node.held : Node → List Ref
  | .object sh prop u => prop.flatMap Property.held ++ [⟨.shape, sh⟩] ++ u.held
  | .functionBytecode cpool realm propertyIC =>
    propertyICHeld propertyIC ++ cpool.flatMap Value.refs ++ pointer .context realm
  | .openVarRef .. => []
  | .detachedVarRef value => value.refs
  | .shape proto => pointer .object proto
  | .context values shapes => values.flatMap Value.refs ++ shapes.flatMap (pointer .shape)

abbrev JSHeap := CountedHeap Ref Node

def JSHeap.isGCObject (h : JSHeap) (r : Ref) : Bool :=
  match h.node r with
  | some n => n.isGCObject
  | none => false

def JSHeap.gcObjList (h : JSHeap) : List Ref := h.blocks.filter h.isGCObject

def JSHeap.isDetached (h : JSHeap) (v : Nat) : Bool :=
  match h.node ⟨.varRef, v⟩ with
  | some (.detachedVarRef _) => true
  | _ => false

def JSHeap.markVarRef (h : JSHeap) (v : Nat) : List Ref :=
  if h.isDetached v then [⟨.varRef, v⟩] else []

/-- The loop of `mark_children` over the properties of an object. -/
def JSHeap.markProperty (h : JSHeap) : Property → List Ref
  | .value val => val.refs
  | .getset getter setter => pointer .object getter ++ pointer .object setter
  | .varRef v => h.markVarRef v
  | .autoinit realm => [⟨.context, realm⟩]
  | .deleted => []

/-- `gc_mark` of the class. -/
def JSHeap.gcMark (h : JSHeap) : ClassData → List Ref
  | .plain => []
  | .array values => values.flatMap Value.refs
  | .objectData value => value.refs
  | .mappedArguments varRefs => varRefs.flatMap fun v => v.toList.flatMap h.markVarRef
  | .cFunction realm => pointer .context realm
  | .bytecodeFunction homeObject varRefs functionBytecode =>
    pointer .object homeObject ++
      match functionBytecode with
      | some b =>
        (varRefs.flatMap fun v => v.toList.flatMap h.markVarRef) ++ [⟨.functionBytecode, b⟩]
      | none => []
  | .boundFunction funcObj thisVal argv => funcObj.refs ++ thisVal.refs ++ argv.flatMap Value.refs
  | .cFunctionData data => data.flatMap Value.refs
  | .forInIterator obj => obj.refs

/-- `mark_children` with `JS_MarkContext`: the calls of the marker, in their order. -/
def JSHeap.markNode (h : JSHeap) : Node → List Ref
  | .object sh prop u => [⟨.shape, sh⟩] ++ prop.flatMap h.markProperty ++ h.gcMark u
  | .functionBytecode cpool realm _ => cpool.flatMap Value.refs ++ pointer .context realm
  | .openVarRef .. => []
  | .detachedVarRef value => value.refs
  | .shape proto => pointer .object proto
  | .context values shapes => values.flatMap Value.refs ++ shapes.flatMap (pointer .shape)

def JSHeap.markChildren (h : JSHeap) (r : Ref) : List Ref := (h.node r).elim [] h.markNode

/-- The counts are right, a block is of the type that its header says, and every block has the
property `P`. -/
structure Inv (P : Node → Prop) (h : JSHeap) : Prop where
  balanced : h.Balanced Node.held []
  kinds : ∀ r n, h.node r = some n → n.kind = r.kind
  nodes : ∀ r n, h.node r = some n → P n

section

variable {P : Node → Prop} {h h' : JSHeap} {r : Ref} {n : Node}

theorem empty_inv : Inv P (CountedHeap.empty : JSHeap) where
  balanced := CountedHeap.empty_balanced
  kinds := by
    intro r n hn
    cases hn
  nodes := by
    intro r n hn
    cases hn

theorem Inv.dup (hi : Inv P h) (hd : h.dup r = some h') : Inv P h' where
  balanced := hi.balanced.dup hd
  kinds := by
    rw [CountedHeap.dup_node hd]
    exact hi.kinds
  nodes := by
    rw [CountedHeap.dup_node hd]
    exact hi.nodes

theorem forall_node_update {Q : Ref → Node → Prop} (hall : ∀ s m, h.node s = some m → Q s m)
    (hone : Q r n) : ∀ s m, Function.update h.node r (some n) s = some m → Q s m := by
  intro s m hm
  by_cases hs : s = r
  · subst hs
    rw [Function.update_self] at hm
    cases hm
    exact hone
  · rw [Function.update_of_ne hs] at hm
    exact hall s m hm

theorem Inv.create (hi : Inv P h) (hkind : n.kind = r.kind) (hn : P n)
    (hc : h.create Node.held r n = some h') : Inv P h' where
  balanced := hi.balanced.create hc
  kinds := by
    rw [(CountedHeap.create_node hc).2]
    exact forall_node_update hi.kinds hkind
  nodes := by
    rw [(CountedHeap.create_node hc).2]
    exact forall_node_update (Q := fun _ m => P m) hi.nodes hn

theorem Inv.rewrite (hi : Inv P h) (hkind : n.kind = r.kind) (hn : P n)
    (hr : h.rewrite Node.held r n = some h') : Inv P h' where
  balanced := hi.balanced.rewrite hr
  kinds := by
    rw [(CountedHeap.rewrite_node hr).2]
    exact forall_node_update hi.kinds hkind
  nodes := by
    rw [(CountedHeap.rewrite_node hr).2]
    exact forall_node_update (Q := fun _ m => P m) hi.nodes hn

theorem Inv.relink (hi : Inv P h) : Inv P (h.relink r) where
  balanced := hi.balanced.relink
  kinds := hi.kinds
  nodes := hi.nodes

theorem Inv.release {rs : List Ref} (hi : Inv P h) (hr : h.release Node.held rs = some h') :
    Inv P h' where
  balanced := by
    obtain ⟨h₁, hrun, hb, -⟩ := hi.balanced.release (CountedHeap.release_some hr)
    rw [hr] at hrun
    cases hrun
    exact hb
  kinds s m hm := hi.kinds s m (CountedHeap.release_node hr hm)
  nodes s m hm := hi.nodes s m (CountedHeap.release_node hr hm)

end

end TurboJS.GC
