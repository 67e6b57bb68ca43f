import TurboJS.Bytecode.Interpreter

namespace TurboJS.Bytecode

/-! The heap of the array and record loops: fast arrays on the standard prototype, which has no
element of its own, and ordinary objects. -/

inductive ElementKind where
  | empty | packedInt32 | packedNumber | packedValue | holey
  deriving DecidableEq, Repr

/-- `turbojs_array_value_kind`; NaN and the numbers outside the int32 range have
the tag for float64. -/
def arrayValueKind (v : JSValue) : ElementKind :=
  match v with
  | .uninitialized => .holey
  | .number _ => if (intValue v).isSome then .packedInt32 else .packedNumber
  | .nan => .packedNumber
  | _ => .packedValue

def arrayMergeKind (current : ElementKind) (v : JSValue) : ElementKind :=
  let incoming := arrayValueKind v
  if current = .holey ∨ incoming = .holey then .holey
  else if current = .empty then incoming
  else if current = .packedValue ∨ incoming = .packedValue then .packedValue
  else if current = .packedNumber ∨ incoming = .packedNumber then .packedNumber
  else .packedInt32

structure FastArray where
  values : List JSValue
  length : Nat
  kind : ElementKind
  extensible : Bool
  lengthWritable : Bool
  count_le : values.length ≤ length
  initialized : .uninitialized ∉ values
  deriving DecidableEq

def FastArray.get (a : FastArray) (n : Int) : JSValue :=
  if 0 ≤ n then (a.values[n.toNat]?).getD .undefined else .undefined

def FastArray.replace (a : FastArray) (i : Nat) (v : JSValue) (hv : v ≠ .uninitialized) :
    FastArray where
  values := a.values.set i v
  length := a.length
  kind := arrayMergeKind a.kind v
  extensible := a.extensible
  lengthWritable := a.lengthWritable
  count_le := by
    rw [List.length_set]
    exact a.count_le
  initialized := by
    intro hm
    rcases List.mem_or_eq_of_mem_set hm with hm | hm
    · exact a.initialized hm
    · exact hv hm.symm

/-- `add_fast_array_element`: an element is appended, and the length grows if it has to. -/
def FastArray.append (a : FastArray) (v : JSValue) (hv : v ≠ .uninitialized) : FastArray where
  values := a.values ++ [v]
  length := max a.length (a.values.length + 1)
  kind := arrayMergeKind a.kind v
  extensible := a.extensible
  lengthWritable := a.lengthWritable
  count_le := by
    rw [List.length_append]
    exact Nat.le_max_right _ _
  initialized := by
    intro hm
    rcases List.mem_append.mp hm with hm | hm
    · exact a.initialized hm
    · exact hv (List.mem_singleton.mp hm).symm

/-- The store of `OP_put_array_el` on a fast array. A store past the end makes it a slow one,
which is outside the fragment. -/
def FastArray.put (a : FastArray) (n : Int) (v : JSValue) : Option FastArray :=
  if hv : v ≠ .uninitialized then
    if 0 ≤ n ∧ n < a.values.length then some (a.replace n.toNat v hv)
    else if n = a.values.length ∧ a.extensible ∧
        (a.lengthWritable ∨ a.values.length < a.length) then some (a.append v hv)
    else none
  else none

structure PropFlags where
  accessor : Bool
  writable : Bool
  deriving DecidableEq, Repr

structure ShapeTable (S : Type) where
  layout : S → Nat → Option PropFlags
  add : S → Nat → S
  layout_add : ∀ s k, layout (add s k) = Function.update (layout s) k (some ⟨false, true⟩)

def layoutTable : ShapeTable (Nat → Option PropFlags) where
  layout s := s
  add s k := Function.update s k (some ⟨false, true⟩)
  layout_add _ _ := rfl

/-- An ordinary object; `values` has meaning for the properties of its shape. -/
structure Record (S : Type) where
  shape : S
  extensible : Bool
  values : Nat → JSValue

inductive HeapObject (S : Type) where
  | array (a : FastArray)
  | record (r : Record S)

abbrev Heap (S : Type) : Type := Nat → Option (HeapObject S)

section

variable {S : Type} (T : ShapeTable S) (proto : Nat → Option (PropFlags × JSValue))

/-- A property of an ordinary object, its own or that of `Object.prototype`. The call of a getter
is outside the fragment. -/
def Record.get (r : Record S) (k : Nat) : Option JSValue :=
  match T.layout r.shape k with
  | some flags => if flags.accessor then none else some (r.values k)
  | none =>
    match proto k with
    | some (flags, v) => if flags.accessor then none else some v
    | none => some .undefined

def Record.set (r : Record S) (k : Nat) (v : JSValue) : Record S :=
  { r with values := Function.update r.values k v }

def Record.put (r : Record S) (k : Nat) (v : JSValue) : Option (Record S) :=
  match T.layout r.shape k with
  | some flags => if flags.accessor ∨ ¬ flags.writable then none else some (r.set k v)
  | none =>
    match proto k with
    | some (flags, _) =>
      if flags.accessor ∨ ¬ flags.writable ∨ ¬ r.extensible then none
      else some { r.set k v with shape := T.add r.shape k }
    | none =>
      if r.extensible then some { r.set k v with shape := T.add r.shape k } else none

/-- The atom of an integer property key, `__JS_AtomFromUInt32`. -/
def intAtom (n : Int) : Option Nat :=
  if 0 ≤ n ∧ n < 2 ^ 31 then some (2 ^ 31 + n.toNat) else none

def atomUndefined : Nat := 73

def heapOps : HeapOps (Heap S) where
  getArrayEl h o k :=
    match o, k with
    | .object o, .number n =>
      match h o with
      | some (.array a) => some (a.get n)
      | some (.record r) => do
        let k ← intAtom n
        r.get T proto k
      | none => none
    | _, _ => none
  putArrayEl h o k v :=
    match o, k with
    | .object o, .number n =>
      match h o with
      | some (.array a) => do
        let a ← a.put n v
        some (Function.update h o (some (.array a)))
      | some (.record r) => do
        let k ← intAtom n
        let r ← r.put T proto k v
        some (Function.update h o (some (.record r)))
      | none => none
    | _, _ => none
  getLength h o :=
    match o with
    | .object o =>
      match h o with
      | some (.array a) => some (.number a.length)
      | _ => none
    | _ => none
  getField h o k :=
    match o with
    | .object o =>
      match h o with
      | some (.record r) => r.get T proto k
      | _ => none
    | _ => none
  putField h o k v :=
    match o with
    | .object o =>
      match h o with
      | some (.record r) => do
        let r ← r.put T proto k v
        some (Function.update h o (some (.record r)))
      | _ => none
    | _ => none
  getVar _ k := if k = atomUndefined then some .undefined else none

variable {T proto} {h : Heap S} {o : Nat} {a : FastArray}

theorem heapOps_getArrayEl (ho : h o = some (.array a)) (n : Int) :
    (heapOps T proto).getArrayEl h (.object o) (.number n) = some (a.get n) := by
  simp only [heapOps, ho]

theorem heapOps_getLength (ho : h o = some (.array a)) :
    (heapOps T proto).getLength h (.object o) = some (.number a.length) := by
  simp only [heapOps, ho]

theorem heapOps_getVar : (heapOps T proto).getVar h atomUndefined = some .undefined := rfl

end

end TurboJS.Bytecode
