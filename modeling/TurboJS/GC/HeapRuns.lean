import TurboJS.GC.HeapOps

namespace TurboJS.GC
open Foundation Objects

/-! What every operation keeps. -/

namespace JSHeap

/-- An operation that keeps the counts right and every block within `P`. -/
def Keeps (P : Node → Prop) (f : JSHeap → Option JSHeap) : Prop :=
  ∀ h h', Inv P h → f h = some h' → Inv P h'

/-- `P` is about the function bytecode only, and neither a new one nor a lookup violates it. -/
structure Spares (P : Node → Prop) : Prop where
  object : ∀ sh prop u, P (.object sh prop u)
  openVarRef : ∀ sf varRefIdx, P (.openVarRef sf varRefIdx)
  detachedVarRef : ∀ val, P (.detachedVarRef val)
  shape : ∀ proto, P (.shape proto)
  context : ∀ values shapes, P (.context values shapes)
  created : ∀ cpool realm, P (.functionBytecode cpool realm [])
  looked : ∀ cpool realm propertyIC table i e e',
    P (.functionBytecode cpool realm propertyIC) →
    table = (if propertyIC = [] then .replicate icSize ICEntry.zero else propertyIC) →
    table[i]? = some e → e'.ways = e.ways →
    P (.functionBytecode cpool realm (table.set i e'))

section

variable {P : Node → Prop} {f g : JSHeap → Option JSHeap} {h h' : JSHeap}

theorem keeps_free (rs : List Ref) : Keeps P (free rs) := fun _ _ hi hr => hi.release hr

theorem keeps_dupRefs (rs : List Ref) : Keeps P (dupRefs rs) := by
  intro h h' hi hr
  induction rs generalizing h with
  | nil =>
    cases hr
    exact hi
  | cons r rs ih =>
    rw [dupRefs, List.foldlM_cons] at hr
    obtain ⟨h₁, hdup, hr⟩ := Option.bind_eq_some_iff.mp hr
    exact ih h₁ (hi.dup hdup) hr

theorem keeps_new (r : Ref) {n : Node} (hn : P n) : Keeps P (new r n) := by
  intro h h' hi hr
  rw [new] at hr
  split at hr
  · rename_i hkind
    exact hi.create hkind hn hr
  · cases hr

theorem keeps_update (r : Ref) {n : Node} (hn : P n) : Keeps P (update r n) := by
  intro h h' hi hr
  rw [update] at hr
  split at hr
  · rename_i hkind
    exact hi.rewrite hkind hn hr
  · cases hr

theorem Keeps.andThen (hf : Keeps P f) (hg : Keeps P g) : Keeps P fun h => (f h).bind g := by
  intro h h' hi hr
  obtain ⟨h₁, hrun, hr⟩ := Option.bind_eq_some_iff.mp hr
  exact hg h₁ h' (hf h h₁ hi hrun) hr

theorem keeps_read {α : Type} (read : JSHeap → Option α) {f : α → JSHeap → Option JSHeap}
    (hf : ∀ a, Keeps P (f a)) : Keeps P fun h => (read h).bind fun a => f a h := by
  intro h h' hi hr
  obtain ⟨a, -, hr⟩ := Option.bind_eq_some_iff.mp hr
  exact hf a h h' hi hr

theorem keeps_some : Keeps P some := by
  intro h h' hi hr
  cases hr
  exact hi

theorem keeps_relink (r : Ref) : Keeps P fun h => some (h.relink r) := by
  intro h h' hi hr
  cases hr
  exact hi.relink

theorem map_eq_some_fst {α : Type} {a b : α} {o : Option JSHeap}
    (hr : o.map (·, a) = some (h', b)) : o = some h' := by
  obtain ⟨h₁, ho, he⟩ := Option.map_eq_some_iff.mp hr
  cases he
  exact ho

theorem scan_ways {e e' : ICEntry} {p sh i : Nat} (hs : e.scan p sh = some (i, e')) :
    e'.ways = e.ways := by
  rw [ICEntry.scan] at hs
  split at hs
  · obtain ⟨w, -, he⟩ := Option.map_eq_some_iff.mp hs
    cases he
    rfl
  · cases hs

theorem icLookup_ways {e e' : ICEntry} {bytecodeOffset p sh atom i : Nat}
    (hl : Objects.icLookup e bytecodeOffset p sh atom = some (i, e')) : e'.ways = e.ways := by
  rw [Objects.icLookup] at hl
  split at hl
  · cases hl
  · split at hl
    · cases hl
      rfl
    · split at hl
      · split at hl
        · cases hl
          rfl
        · exact scan_ways hl
      · exact scan_ways hl

variable (hP : Spares P)

include hP

theorem keeps_newContextRaw (ctx n : Nat) : Keeps P (newContextRaw ctx n) :=
  keeps_new _ (hP.context _ _)

theorem keeps_setContextValue (ctx i : Nat) (val : Value) : Keeps P (setContextValue ctx i val) := by
  apply keeps_read
  rintro ⟨values, shapes⟩ h h' hi hr
  obtain ⟨old, -, hr⟩ := Option.bind_eq_some_iff.mp hr
  exact (keeps_update _ (hP.context _ _)).andThen (keeps_free old.refs) h h' hi hr

theorem keeps_setContextShape (ctx i sh : Nat) : Keeps P (setContextShape ctx i sh) := by
  apply keeps_read
  rintro ⟨values, shapes⟩ h h' hi hr
  obtain ⟨old, -, hr⟩ := Option.bind_eq_some_iff.mp hr
  exact (keeps_update _ (hP.context _ _)).andThen (keeps_free _) h h' hi hr

theorem keeps_jsNewShapeNohash (sh : Nat) (proto : Option Nat) : Keeps P (jsNewShapeNohash sh proto) :=
  (keeps_dupRefs _).andThen (keeps_new _ (hP.shape _))

theorem keeps_jsCloneShape (sh sh1 : Nat) : Keeps P (jsCloneShape sh sh1) :=
  keeps_read (shape? · sh1) (keeps_jsNewShapeNohash hP sh)

theorem keeps_setShapeProto (sh : Nat) (proto : Option Nat) : Keeps P (setShapeProto sh proto) :=
  keeps_read (shape? · sh) fun _ =>
    (keeps_dupRefs _).andThen ((keeps_update _ (hP.shape _)).andThen (keeps_free _))

theorem keeps_setObject (p sh : Nat) (prop : List Property) (u : ClassData) :
    Keeps P (setObject p sh prop u) :=
  keeps_update _ (hP.object _ _ _)

theorem keeps_newObjectFromShape (p sh : Nat) (u : ClassData) (props : List Property) :
    Keeps P (newObjectFromShape p sh u props) :=
  keeps_new _ (hP.object _ _ _)

theorem keeps_setShape (p sh : Nat) : Keeps P (setShape p sh) :=
  keeps_read (object? · p) fun _ => (keeps_setObject hP _ _ _ _).andThen (keeps_free _)

theorem keeps_addProperty (p : Nat) (pr : Property) : Keeps P (addProperty p pr) :=
  keeps_read (object? · p) fun _ => keeps_setObject hP _ _ _ _

theorem keeps_replaceProperty (p i : Nat) (pr : Property) : Keeps P (replaceProperty p i pr) := by
  apply keeps_read (object? · p)
  rintro ⟨sh, prop, u⟩
  exact keeps_read (fun _ => prop[i]?) fun _ => (keeps_setObject hP _ _ _ _).andThen (keeps_free _)

theorem keeps_setGetter (p i : Nat) (getter : Option Nat) : Keeps P (setGetter p i getter) := by
  apply keeps_read (object? · p)
  rintro ⟨sh, prop, u⟩ h h' hi hr
  dsimp only at hr
  split at hr
  · exact (keeps_dupRefs _).andThen ((keeps_setObject hP _ _ _ _).andThen (keeps_free _)) h h' hi hr
  · cases hr

theorem keeps_setSetter (p i : Nat) (setter : Option Nat) : Keeps P (setSetter p i setter) := by
  apply keeps_read (object? · p)
  rintro ⟨sh, prop, u⟩ h h' hi hr
  dsimp only at hr
  split at hr
  · exact (keeps_dupRefs _).andThen ((keeps_setObject hP _ _ _ _).andThen (keeps_free _)) h h' hi hr
  · cases hr

theorem keeps_compactProperties (p : Nat) : Keeps P (compactProperties p) :=
  keeps_read (object? · p) fun _ => keeps_setObject hP _ _ _ _

theorem keeps_setData (p : Nat) (u : ClassData) (freed : List Ref) : Keeps P (setData p u freed) :=
  keeps_read (object? · p) fun _ => (keeps_setObject hP _ _ _ _).andThen (keeps_free _)

theorem keeps_appendFastArrayElement (p : Nat) (val : Value) : Keeps P (appendFastArrayElement p val) := by
  apply keeps_read (data? · p)
  intro u h h' hi hr
  dsimp only at hr
  split at hr
  · exact keeps_setData hP _ _ _ h h' hi hr
  · cases hr

theorem keeps_setFastArrayElement (p i : Nat) (val : Value) : Keeps P (setFastArrayElement p i val) := by
  apply keeps_read (data? · p)
  intro u h h' hi hr
  dsimp only at hr
  split at hr
  · obtain ⟨old, -, hr⟩ := Option.bind_eq_some_iff.mp hr
    exact keeps_setData hP _ _ _ h h' hi hr
  · cases hr

theorem keeps_truncateFastArray (p len : Nat) : Keeps P (truncateFastArray p len) := by
  apply keeps_read (data? · p)
  intro u h h' hi hr
  dsimp only at hr
  split at hr
  · exact keeps_setData hP _ _ _ h h' hi hr
  · cases hr

theorem keeps_takeFastArrayElement (p i : Nat) : Keeps P (takeFastArrayElement p i) := by
  apply keeps_read (data? · p)
  intro u h h' hi hr
  dsimp only at hr
  split at hr
  · exact keeps_setData hP _ _ _ h h' hi hr
  · cases hr

theorem keeps_convertFastArrayToArray (p : Nat) : Keeps P (convertFastArrayToArray p) := by
  apply keeps_read (object? · p)
  rintro ⟨sh, prop, u⟩ h h' hi hr
  dsimp only at hr
  split at hr
  · exact keeps_setObject hP _ _ _ _ h h' hi hr
  · exact keeps_setObject hP _ _ _ _ h h' hi hr
  · cases hr

theorem keeps_setObjectData (p : Nat) (val : Value) : Keeps P (setObjectData p val) := by
  apply keeps_read (data? · p)
  intro u h h' hi hr
  dsimp only at hr
  split at hr
  · exact keeps_setData hP _ _ _ h h' hi hr
  · cases hr

theorem keeps_setCFunctionRealm (p ctx : Nat) : Keeps P (setCFunctionRealm p ctx) := by
  apply keeps_read (data? · p)
  intro u h h' hi hr
  dsimp only at hr
  split at hr
  · exact (keeps_dupRefs _).andThen (keeps_setData hP _ _ _) h h' hi hr
  · cases hr

theorem keeps_setCFunctionData (p : Nat) (data : List Value) : Keeps P (setCFunctionData p data) := by
  apply keeps_read (data? · p)
  intro u h h' hi hr
  dsimp only at hr
  split at hr
  · exact (keeps_dupRefs _).andThen (keeps_setData hP _ _ _) h h' hi hr
  · cases hr

theorem keeps_setBoundFunction (p : Nat) (funcObj thisVal : Value) (argv : List Value) : Keeps P (setBoundFunction p funcObj thisVal argv) := by
  apply keeps_read (data? · p)
  intro u h h' hi hr
  dsimp only at hr
  split at hr
  · exact (keeps_dupRefs _).andThen (keeps_setData hP _ _ _) h h' hi hr
  · cases hr

theorem keeps_setForInObject (p : Nat) (obj : Value) : Keeps P (setForInObject p obj) := by
  apply keeps_read (data? · p)
  intro u h h' hi hr
  dsimp only at hr
  split at hr
  · exact keeps_setData hP _ _ _ h h' hi hr
  · cases hr

theorem keeps_createVarRef (v : Nat) (val : Value) : Keeps P (createVarRef v val) :=
  keeps_new _ (hP.detachedVarRef _)

theorem keeps_setVarRefValue (v : Nat) (val : Value) : Keeps P (setVarRefValue v val) := by
  intro h h' hi hr
  rw [setVarRefValue] at hr
  split at hr
  · exact (keeps_update _ (hP.detachedVarRef _)).andThen (keeps_free _) h h' hi hr
  · cases hr

theorem keeps_closeVarRef (v : Nat) (val : Value) : Keeps P (closeVarRef v val) := by
  intro h h' hi hr
  rw [closeVarRef] at hr
  split at hr
  · exact (keeps_dupRefs _).andThen ((keeps_update _ (hP.detachedVarRef _)).andThen (keeps_relink _)) h h' hi hr
  · cases hr

theorem getVarRef_inv {v w : Nat} {capture : Capture} (hi : Inv P h)
    (hr : h.getVarRef v capture = some (h', w)) : Inv P h' := by
  cases capture with
  | captured sf varRefIdx =>
    rw [getVarRef] at hr
    split at hr
    · exact keeps_dupRefs _ h h' hi (map_eq_some_fst hr)
    · exact keeps_new _ (hP.openVarRef _ _) h h' hi (map_eq_some_fst hr)
  | uncaptured val =>
    obtain ⟨h₁, hdup, hr⟩ := Option.bind_eq_some_iff.mp hr
    exact keeps_new _ (hP.detachedVarRef _) h₁ h' (keeps_dupRefs _ h h₁ hi hdup) (map_eq_some_fst hr)
  | ref old => exact keeps_dupRefs _ h h' hi (map_eq_some_fst hr)

theorem getVarRefs_inv {captures : List (Nat × Capture)} {varRefs : List (Option Nat)}
    (hi : Inv P h) (hr : getVarRefs captures h = some (h', varRefs)) : Inv P h' := by
  induction captures generalizing h varRefs with
  | nil =>
    cases hr
    exact hi
  | cons c captures ih =>
    obtain ⟨v, capture⟩ := c
    obtain ⟨⟨h₁, w⟩, hone, hr⟩ := Option.bind_eq_some_iff.mp hr
    obtain ⟨⟨h₂, ws⟩, hrest, hr⟩ := Option.bind_eq_some_iff.mp hr
    cases hr
    exact ih (getVarRef_inv hP hi hone) hrest

theorem keeps_jsClosure2 (p b : Nat) (captures : List (Nat × Capture)) : Keeps P (jsClosure2 p b captures) := by
  apply keeps_read (data? · p)
  intro u h h' hi hr
  dsimp only at hr
  split at hr
  · obtain ⟨⟨h₁, varRefs⟩, hrefs, hr⟩ := Option.bind_eq_some_iff.mp hr
    exact keeps_setData hP _ _ _ h₁ h' (getVarRefs_inv hP hi hrefs) hr
  · cases hr

theorem keeps_setHomeObject (p : Nat) (homeObject : Option Nat) : Keeps P (setHomeObject p homeObject) := by
  apply keeps_read (data? · p)
  intro u h h' hi hr
  dsimp only at hr
  split at hr
  · exact (keeps_setData hP _ _ _).andThen ((keeps_dupRefs _).andThen (keeps_setData hP _ _ _)) h h' hi hr
  · cases hr

theorem keeps_setMappedArguments (p : Nat) (captures : List (Nat × Capture)) : Keeps P (setMappedArguments p captures) := by
  apply keeps_read (data? · p)
  intro u h h' hi hr
  dsimp only at hr
  split at hr
  · obtain ⟨⟨h₁, varRefs⟩, hrefs, hr⟩ := Option.bind_eq_some_iff.mp hr
    exact keeps_setData hP _ _ _ h₁ h' (getVarRefs_inv hP hi hrefs) hr
  · cases hr

theorem keeps_createFunction (b ctx : Nat) (cpool : List Value) :
    Keeps P (createFunction b ctx cpool) :=
  (keeps_dupRefs _).andThen (keeps_new _ (hP.created _ _))

theorem setEntry_inv {b bytecodeOffset : Nat} {e e' : ICEntry} (hi : Inv P h)
    (he : h.icEntry b bytecodeOffset = some e) (hways : e'.ways = e.ways)
    (hr : h.setEntry b bytecodeOffset e' = some h') : Inv P h' := by
  obtain ⟨⟨cpool, realm, propertyIC⟩, hb, hr⟩ := Option.bind_eq_some_iff.mp hr
  have hnode : h.node ⟨.functionBytecode, b⟩ = some (.functionBytecode cpool realm propertyIC) := by
    rw [bytecode?] at hb
    split at hb
    · rename_i hnode
      cases hb
      exact hnode
    · cases hb
  have hentry : (if propertyIC = [] then .replicate icSize ICEntry.zero else propertyIC)[
      icSlot bytecodeOffset]? = some e := by
    rw [icEntry, hb] at he
    simp only [Option.bind_eq_bind, Option.bind_some] at he
    split at he
    · rename_i hnil
      have hslot : icSlot bytecodeOffset < icSize := Nat.mod_lt _ (by decide)
      rw [if_pos hnil, List.getElem?_replicate, if_pos hslot]
      exact he
    · rename_i hne
      rw [if_neg hne]
      exact he
  exact keeps_update _
    (hP.looked cpool realm propertyIC _ _ e e' (hi.nodes _ _ hnode) rfl hentry hways) h h' hi hr

theorem keeps_icLookup (b bytecodeOffset p atom : Nat) :
    Keeps P (icLookup b bytecodeOffset p atom) := by
  apply keeps_read (object? · p)
  rintro ⟨sh, prop, u⟩ h h' hi hr
  obtain ⟨e, he, hr⟩ := Option.bind_eq_some_iff.mp hr
  split at hr
  · rename_i hlookup
    exact setEntry_inv hP hi he (icLookup_ways hlookup) hr
  · exact keeps_some h h' hi hr

omit hP

variable (hall : ∀ n, P n)

include hall

theorem keeps_setEntry (b bytecodeOffset : Nat) (e : ICEntry) :
    Keeps P (setEntry b bytecodeOffset e) :=
  keeps_read (bytecode? · b) fun _ => keeps_update _ (hall _)

theorem keeps_icReset (b bytecodeOffset atom : Nat) : Keeps P (icReset b bytecodeOffset atom) := by
  apply keeps_read (icEntry · b bytecodeOffset)
  intro e h h' hi hr
  split at hr
  · exact (keeps_setEntry hall _ _ _).andThen (keeps_free _) h h' hi hr
  · exact keeps_some h h' hi hr

theorem keeps_icAddWay (b bytecodeOffset p sh index : Nat) (e : ICEntry) :
    Keeps P (icAddWay b bytecodeOffset p sh index e) := by
  intro h h' hi hr
  rw [icAddWay] at hr
  split at hr
  · exact (keeps_dupRefs _).andThen (keeps_setEntry hall _ _ _) h h' hi hr
  · obtain ⟨old, -, hr⟩ := Option.bind_eq_some_iff.mp hr
    exact (keeps_dupRefs _).andThen ((keeps_setEntry hall _ _ _).andThen (keeps_free _)) h h' hi hr

theorem keeps_icFill (b bytecodeOffset p atom index : Nat) :
    Keeps P (icFill b bytecodeOffset p atom index) := by
  apply keeps_read (object? · p)
  rintro ⟨sh, prop, u⟩ h h' hi hr
  dsimp only at hr
  split at hr
  · obtain ⟨h₁, hreset, hr⟩ := Option.bind_eq_some_iff.mp hr
    have hi₁ := keeps_icReset hall _ _ _ h h₁ hi hreset
    obtain ⟨e, -, hr⟩ := Option.bind_eq_some_iff.mp hr
    split at hr
    · exact keeps_setEntry hall _ _ _ h₁ h' hi₁ hr
    · exact keeps_icAddWay hall _ _ _ _ _ _ h₁ h' hi₁ hr
  · exact keeps_some h h' hi hr

end

end JSHeap

inductive HeapOp where
  | dup (r : Ref)
  | free (r : Ref)
  | newContextRaw (ctx n : Nat)
  | setContextValue (ctx i : Nat) (val : Value)
  | setContextShape (ctx i sh : Nat)
  | newShape (sh : Nat) (proto : Option Nat)
  | cloneShape (sh sh1 : Nat)
  | setShapeProto (sh : Nat) (proto : Option Nat)
  | newObjectFromShape (p sh : Nat) (u : ClassData) (props : List Property)
  | setShape (p sh : Nat)
  | addProperty (p : Nat) (pr : Property)
  | replaceProperty (p i : Nat) (pr : Property)
  | setValue (p i : Nat) (val : Value)
  | deleteProperty (p i : Nat)
  | setGetter (p i : Nat) (getter : Option Nat)
  | setSetter (p i : Nat) (setter : Option Nat)
  | compactProperties (p : Nat)
  | appendFastArrayElement (p : Nat) (val : Value)
  | setFastArrayElement (p i : Nat) (val : Value)
  | truncateFastArray (p len : Nat)
  | takeFastArrayElement (p i : Nat)
  | convertFastArrayToArray (p : Nat)
  | setObjectData (p : Nat) (val : Value)
  | setCFunctionRealm (p ctx : Nat)
  | setCFunctionData (p : Nat) (data : List Value)
  | setBoundFunction (p : Nat) (funcObj thisVal : Value) (argv : List Value)
  | setForInObject (p : Nat) (obj : Value)
  | createVarRef (v : Nat) (val : Value)
  | setVarRefValue (v : Nat) (val : Value)
  | closeVarRef (v : Nat) (val : Value)
  | closure (p b : Nat) (captures : List (Nat × Capture))
  | setHomeObject (p : Nat) (homeObject : Option Nat)
  | setMappedArguments (p : Nat) (captures : List (Nat × Capture))
  | createFunction (b ctx : Nat) (cpool : List Value)
  | icLookup (b bytecodeOffset p atom : Nat)
  | icFill (b bytecodeOffset p atom index : Nat)
  deriving DecidableEq, Repr

def HeapOp.run : HeapOp → JSHeap → Option JSHeap
  | .dup r => JSHeap.dupRefs [r]
  | .free r => JSHeap.free [r]
  | .newContextRaw ctx n => JSHeap.newContextRaw ctx n
  | .setContextValue ctx i val => JSHeap.setContextValue ctx i val
  | .setContextShape ctx i sh => JSHeap.setContextShape ctx i sh
  | .newShape sh proto => JSHeap.jsNewShapeNohash sh proto
  | .cloneShape sh sh1 => JSHeap.jsCloneShape sh sh1
  | .setShapeProto sh proto => JSHeap.setShapeProto sh proto
  | .newObjectFromShape p sh u props => JSHeap.newObjectFromShape p sh u props
  | .setShape p sh => JSHeap.setShape p sh
  | .addProperty p pr => JSHeap.addProperty p pr
  | .replaceProperty p i pr => JSHeap.replaceProperty p i pr
  | .setValue p i val => JSHeap.setValue p i val
  | .deleteProperty p i => JSHeap.deleteProperty p i
  | .setGetter p i getter => JSHeap.setGetter p i getter
  | .setSetter p i setter => JSHeap.setSetter p i setter
  | .compactProperties p => JSHeap.compactProperties p
  | .appendFastArrayElement p val => JSHeap.appendFastArrayElement p val
  | .setFastArrayElement p i val => JSHeap.setFastArrayElement p i val
  | .truncateFastArray p len => JSHeap.truncateFastArray p len
  | .takeFastArrayElement p i => JSHeap.takeFastArrayElement p i
  | .convertFastArrayToArray p => JSHeap.convertFastArrayToArray p
  | .setObjectData p val => JSHeap.setObjectData p val
  | .setCFunctionRealm p ctx => JSHeap.setCFunctionRealm p ctx
  | .setCFunctionData p data => JSHeap.setCFunctionData p data
  | .setBoundFunction p funcObj thisVal argv => JSHeap.setBoundFunction p funcObj thisVal argv
  | .setForInObject p obj => JSHeap.setForInObject p obj
  | .createVarRef v val => JSHeap.createVarRef v val
  | .setVarRefValue v val => JSHeap.setVarRefValue v val
  | .closeVarRef v val => JSHeap.closeVarRef v val
  | .closure p b captures => JSHeap.jsClosure2 p b captures
  | .setHomeObject p homeObject => JSHeap.setHomeObject p homeObject
  | .setMappedArguments p captures => JSHeap.setMappedArguments p captures
  | .createFunction b ctx cpool => JSHeap.createFunction b ctx cpool
  | .icLookup b bytecodeOffset p atom => JSHeap.icLookup b bytecodeOffset p atom
  | .icFill b bytecodeOffset p atom index => JSHeap.icFill b bytecodeOffset p atom index

def HeapOp.fillsCache : HeapOp → Bool
  | .icFill .. => true
  | _ => false

def runHeap (ops : List HeapOp) : Option JSHeap :=
  ops.foldlM (fun h op => op.run h) CountedHeap.empty

section

open JSHeap

variable {P : Node → Prop}

theorem HeapOp.keeps (hP : Spares P) (op : HeapOp) (hfill : op.fillsCache → ∀ n, P n) :
    Keeps P op.run := by
  cases op with
  | dup r => exact keeps_dupRefs [r]
  | free r => exact keeps_free [r]
  | newContextRaw ctx n => exact keeps_newContextRaw hP ctx n
  | setContextValue ctx i val => exact keeps_setContextValue hP ctx i val
  | setContextShape ctx i sh => exact keeps_setContextShape hP ctx i sh
  | newShape sh proto => exact keeps_jsNewShapeNohash hP sh proto
  | cloneShape sh sh1 => exact keeps_jsCloneShape hP sh sh1
  | setShapeProto sh proto => exact keeps_setShapeProto hP sh proto
  | newObjectFromShape p sh u props => exact keeps_newObjectFromShape hP p sh u props
  | setShape p sh => exact keeps_setShape hP p sh
  | addProperty p pr => exact keeps_addProperty hP p pr
  | replaceProperty p i pr => exact keeps_replaceProperty hP p i pr
  | setValue p i val => exact keeps_replaceProperty hP p i _
  | deleteProperty p i => exact keeps_replaceProperty hP p i _
  | setGetter p i getter => exact keeps_setGetter hP p i getter
  | setSetter p i setter => exact keeps_setSetter hP p i setter
  | compactProperties p => exact keeps_compactProperties hP p
  | appendFastArrayElement p val => exact keeps_appendFastArrayElement hP p val
  | setFastArrayElement p i val => exact keeps_setFastArrayElement hP p i val
  | truncateFastArray p len => exact keeps_truncateFastArray hP p len
  | takeFastArrayElement p i => exact keeps_takeFastArrayElement hP p i
  | convertFastArrayToArray p => exact keeps_convertFastArrayToArray hP p
  | setObjectData p val => exact keeps_setObjectData hP p val
  | setCFunctionRealm p ctx => exact keeps_setCFunctionRealm hP p ctx
  | setCFunctionData p data => exact keeps_setCFunctionData hP p data
  | setBoundFunction p funcObj thisVal argv => exact keeps_setBoundFunction hP p funcObj thisVal argv
  | setForInObject p obj => exact keeps_setForInObject hP p obj
  | createVarRef v val => exact keeps_createVarRef hP v val
  | setVarRefValue v val => exact keeps_setVarRefValue hP v val
  | closeVarRef v val => exact keeps_closeVarRef hP v val
  | closure p b captures => exact keeps_jsClosure2 hP p b captures
  | setHomeObject p homeObject => exact keeps_setHomeObject hP p homeObject
  | setMappedArguments p captures => exact keeps_setMappedArguments hP p captures
  | createFunction b ctx cpool => exact keeps_createFunction hP b ctx cpool
  | icLookup b bytecodeOffset p atom => exact keeps_icLookup hP b bytecodeOffset p atom
  | icFill b bytecodeOffset p atom index => exact keeps_icFill (hfill rfl) b bytecodeOffset p atom index

theorem runFrom_inv (hP : Spares P) {ops : List HeapOp} {h h' : JSHeap} (hi : Inv P h)
    (hfill : ∀ op ∈ ops, op.fillsCache → ∀ n, P n)
    (hr : ops.foldlM (fun h op => op.run h) h = some h') : Inv P h' := by
  induction ops generalizing h with
  | nil =>
    cases hr
    exact hi
  | cons op ops ih =>
    rw [List.foldlM_cons] at hr
    obtain ⟨h₁, hop, hr⟩ := Option.bind_eq_some_iff.mp hr
    have hi₁ := op.keeps hP (hfill op List.mem_cons_self) h h₁ hi hop
    exact ih hi₁ (fun op hmem => hfill op (List.mem_cons_of_mem _ hmem)) hr

theorem runHeap_inv (hP : Spares P) {ops : List HeapOp} {h : JSHeap}
    (hfill : ∀ op ∈ ops, op.fillsCache → ∀ n, P n) (hr : runHeap ops = some h) : Inv P h :=
  runFrom_inv hP empty_inv hfill hr

end

end TurboJS.GC
