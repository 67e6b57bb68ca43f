import Mathlib.Data.List.Perm.Basic
import Mathlib.Algebra.Order.Ring.Int

namespace TurboJS.Interpreter

/-! Who gives up the references of the operands of an addition. A value carries the counted
references it holds; every function says which it released and which its result still holds. -/

inductive ValueTag where
  | bigInt | symbol | string | stringRope | object
  | int | bool | null | undefined | uninitialized | catchOffset (pos : Nat) | exception
  | shortBigInt | float64
  deriving DecidableEq

def ValueTag.hasRefCount : ValueTag → Bool
  | bigInt | symbol | string | stringRope | object => true
  | _ => false

def ValueTag.isString : ValueTag → Bool
  | string | stringRope => true
  | _ => false

inductive Text where
  | flat (len : Nat)
  | rope (left right : Text)

def Text.len : Text → Nat
  | flat n => n
  | rope l r => l.len + r.len

def Text.depth : Text → Nat
  | flat _ => 0
  | rope l r => max l.depth r.depth + 1

def Text.tag : Text → ValueTag
  | flat _ => .string
  | rope .. => .stringRope

structure Value where
  tag : ValueTag
  text : Text
  held : List Nat
  plain : tag.hasRefCount = false → held = []

def Value.fresh (tag : ValueTag) (text : Text) : Value := ⟨tag, text, [], fun _ => rfl⟩

def Value.ofTag (tag : ValueTag) : Value := .fresh tag (.flat 0)

def Value.ofText (text : Text) (held : List Nat) : Value :=
  ⟨text.tag, text, held, by cases text <;> nofun⟩

/-- The outcomes of what user code, the allocator and the conversions do; `site` tells the calls
of one instruction apart. -/
structure Outcomes where
  toPrimitive : (site : Nat) → Value → Option (ValueTag × Text)
  toText : (site : Nat) → Value → Option Text
  toNumber : (site : Nat) → Value → Option ValueTag
  allocates : (site : Nat) → Bool
  appendsInPlace : Value → Value → Bool
  rebalanced : Text → Option Text
  fitsShort : Bool

abbrev Consumed := Option Value × List Nat

def stringLenMax : Nat := 2 ^ 30 - 1
def ropeShortLen : Nat := 512
def ropeShort2Len : Nat := 8192
def ropeMaxDepth : Nat := 60

def toPrimitiveFree (env : Outcomes) (site : Nat) (v : Value) : Consumed :=
  if v.tag ≠ .object then (some v, [])
  else match env.toPrimitive site v with
    | none => (none, v.held)
    | some (tag, text) => (if tag = .object then none else some (.fresh tag text), v.held)

def toStringFree (env : Outcomes) (site : Nat) (v : Value) : Consumed :=
  if v.tag = .string then (some v, [])
  else ((env.toText site v).map (Value.ofText · []), v.held)

/-- `JS_ToNumericFree` of a value that is no object. -/
def primitiveToNumericFree (env : Outcomes) (site : Nat) (v : Value) : Consumed :=
  match v.tag with
  | .bigInt | .shortBigInt | .float64 | .int => (some v, [])
  | .bool | .null => (some (.ofTag .int), [])
  | .undefined => (some (.ofTag .float64), [])
  | .string | .stringRope =>
    ((env.toNumber site v).map fun tag => .ofTag (if tag = .int then .int else .float64), v.held)
  | .symbol => (none, v.held)
  | _ => (some (.ofTag .float64), v.held)

def toNumericFree (env : Outcomes) (site : Nat) (v : Value) : Consumed :=
  match toPrimitiveFree env site v with
  | (none, r) => (none, r)
  | (some v, r) =>
    let (res, r') := primitiveToNumericFree env site v
    (res, r ++ r')

def toFloat64Free (v : Value) : Bool × List Nat :=
  match v.tag with
  | .int | .bool | .null | .float64 => (true, [])
  | _ => (false, v.held)

def newStringRope (env : Outcomes) (op1 op2 : Value) : Consumed :=
  let text := Text.rope op1.text op2.text
  if text.len > stringLenMax then (none, op1.held ++ op2.held)
  else if !env.allocates 0 then (none, op1.held ++ op2.held)
  else if text.depth > ropeMaxDepth then
    -- the rope is given up for a balanced copy, and its parts with it
    ((env.rebalanced text).map (Value.ofText · []), op1.held ++ op2.held)
  else (some (.ofText text (op1.held ++ op2.held)), [])

def concatString1 (env : Outcomes) (op1 op2 : Value) : Option Value :=
  if op1.text.len + op2.text.len > stringLenMax then none
  else if !env.allocates 1 then none
  else some (.ofText (.flat (op1.text.len + op2.text.len)) [])

def concatString2 (env : Outcomes) (op1 op2 : Value) : Consumed :=
  if op2.text.len = 0 then (some op1, op2.held)
  else if env.appendsInPlace op1 op2 then
    (some (.ofText (.flat (op1.text.len + op2.text.len)) op1.held), op2.held)
  else (concatString1 env op1 op2, op1.held ++ op2.held)

/-- The second half of `JS_ConcatString`, on strings. The parts of a rope are duplicated, and a
duplicate is a reference of its own. -/
def concatTexts (env : Outcomes) (op1 op2 : Value) : Consumed :=
  match op1.text, op2.text with
  | .flat n1, .flat n2 =>
    if n2 = 0 then (some op1, op2.held)
    else if n2 ≤ ropeShortLen ∧ n1 ≤ ropeShort2Len then concatString2 env op1 op2
    else newStringRope env op1 op2
  | .rope left (.flat n), .flat n2 =>
    if n2 = 0 then (some op1, op2.held)
    else if n2 ≤ ropeShortLen ∧ n ≤ ropeShortLen then
      match concatString2 env (.ofText (.flat n) []) op2 with
      | (none, r) => (none, r ++ op1.held)
      | (some val, r) =>
        let (ret, r') := newStringRope env (.ofText left []) val
        (ret, r ++ r' ++ op1.held)
    else newStringRope env op1 op2
  | .rope .., .flat n2 =>
    if n2 = 0 then (some op1, op2.held) else newStringRope env op1 op2
  | .flat n1, .rope (.flat n) right =>
    if n1 = 0 then (some op2, op1.held)
    else if n ≤ ropeShortLen then
      match concatString2 env op1 (.ofText (.flat n) []) with
      | (none, r) => (none, r ++ op2.held)
      | (some val, r) =>
        let (ret, r') := newStringRope env val (.ofText right [])
        (ret, r ++ r' ++ op2.held)
    else newStringRope env op1 op2
  | .flat n1, .rope .. =>
    if n1 = 0 then (some op2, op1.held) else newStringRope env op1 op2
  | .rope .., .rope .. => newStringRope env op1 op2

def toText (env : Outcomes) (site : Nat) (v : Value) : Consumed :=
  if v.tag.isString then (some v, []) else toStringFree env site v

def concatString (env : Outcomes) (op1 op2 : Value) : Consumed :=
  match toText env 0 op1 with
  | (none, r) => (none, r ++ op2.held)
  | (some op1, r) =>
    match toText env 1 op2 with
    | (none, r') => (none, r ++ r' ++ op1.held)
    | (some op2, r') =>
      let (ret, r'') := concatTexts env op1 op2
      (ret, r ++ r' ++ r'')

structure Slots where
  raised : Bool
  left : Value
  right : Value
  released : List Nat

def Slots.result (v right : Value) (released : List Nat) : Slots := ⟨false, v, right, released⟩

/-- The exception exit of `js_add_slow`. -/
def Slots.undefined (released : List Nat) : Slots :=
  ⟨true, .ofTag .undefined, .ofTag .undefined, released⟩

def ValueTag.isBigInt : ValueTag → Bool
  | bigInt | shortBigInt => true
  | _ => false

def addNumeric (env : Outcomes) (op1 op2 right : Value) (released : List Nat) : Slots :=
  if op1.tag = .int ∧ op2.tag = .int then .result (.ofTag .int) right released
  else if op1.tag.isBigInt ∧ op2.tag.isBigInt then
    if env.allocates 2 then .result (.ofTag .bigInt) right (released ++ op1.held ++ op2.held)
    else .undefined (released ++ op1.held ++ op2.held)
  else
    match toFloat64Free op1 with
    | (false, r) => .undefined (released ++ r ++ op2.held)
    | (true, r) =>
      match toFloat64Free op2 with
      | (false, r') => .undefined (released ++ r ++ r')
      | (true, r') => .result (.ofTag .float64) right (released ++ r ++ r')

def addPrimitives (env : Outcomes) (op1 op2 right : Value) (released : List Nat) : Slots :=
  if op1.tag.isString ∨ op2.tag.isString then
    match concatString env op1 op2 with
    | (none, r) => .undefined (released ++ r)
    | (some v, r) => .result v right (released ++ r)
  else
    match toNumericFree env 2 op1 with
    | (none, r) => .undefined (released ++ r ++ op2.held)
    | (some op1, r) =>
      match toNumericFree env 3 op2 with
      | (none, r') => .undefined (released ++ r ++ r' ++ op1.held)
      | (some op2, r') => addNumeric env op1 op2 right (released ++ r ++ r')

def addSlow (env : Outcomes) (op1 op2 : Value) : Slots :=
  if op1.tag = .float64 ∧ op2.tag = .float64 then .result (.ofTag .float64) op2 []
  else if op1.tag = .shortBigInt ∧ op2.tag = .shortBigInt then
    if env.fitsShort then .result (.ofTag .shortBigInt) op2 []
    else if env.allocates 3 then .result (.ofTag .bigInt) op2 []
    else .undefined []
  else if op1.tag = .object ∨ op2.tag = .object then
    match toPrimitiveFree env 0 op1 with
    | (none, r) => .undefined (r ++ op2.held)
    | (some v1, r) =>
      match toPrimitiveFree env 1 op2 with
      | (none, r') => .undefined (r ++ r' ++ v1.held)
      | (some v2, r') => addPrimitives env v1 v2 op2 (r ++ r')
  else addPrimitives env op1 op2 op2 []

def ValueTag.isArith : ValueTag → Bool
  | int | float64 => true
  | _ => false

def DirectConcat (op1 op2 : Value) : Prop :=
  op1.tag ≠ .float64 ∧ op2.tag ≠ .float64 ∧
    ((op1.tag.isString ∧ op2.tag ≠ .object) ∨ (op2.tag.isString ∧ op1.tag ≠ .object))

instance (op1 op2 : Value) : Decidable (DirectConcat op1 op2) :=
  inferInstanceAs (Decidable (_ ∧ _ ∧ _))

def caseOpAdd (env : Outcomes) (op1 op2 : Value) : Slots :=
  if op1.tag = .int ∧ op2.tag = .int then .result (.ofTag .int) op2 []
  else if op1.tag = .float64 ∧ op2.tag = .float64 then .result (.ofTag .float64) op2 []
  else if op1.tag = .float64 ∨ op2.tag = .float64 then
    if op1.tag.isArith ∧ op2.tag.isArith then .result (.ofTag .float64) op2 []
    else addSlow env op1 op2
  else if (op1.tag.isString ∧ op2.tag ≠ .object) ∨ (op2.tag.isString ∧ op1.tag ≠ .object) then
    match concatString env op1 op2 with
    | (none, r) => ⟨true, .ofTag .exception, op2, r⟩
    | (some v, r) => .result v op2 r
  else addSlow env op1 op2

/-- An addition to a local variable: its value when the result is stored or the error raised, its
value afterwards, the references made by `js_dup` and those released. -/
structure LocalSlots where
  raised : Bool
  old : Value
  var : Value
  copied : List Nat
  released : List Nat

/-- `js_dup`: another reference, named by the caller. -/
def Value.dup (v : Value) (reference : Nat) : Value :=
  ⟨v.tag, v.text, if v.tag.hasRefCount then [reference] else [], fun h => by rw [h]; rfl⟩

/-- `js_add_slow` on copies, then `set_value`; user code may have changed the variable to `var'`
by then. -/
def addToLocal (env : Outcomes) (op1 op2 var' : Value) (copied : List Nat) : LocalSlots :=
  let s := addSlow env op1 op2
  if s.raised then ⟨true, var', var', copied, s.released⟩
  else ⟨false, var', s.left, copied, s.released ++ var'.held⟩

/-- `sv` is read before anything runs, so both copies are taken at once. -/
def opAddLocLoc (env : Outcomes) (var sv var' : Value) (d1 d2 : Nat) : LocalSlots :=
  if var.tag = .int ∧ sv.tag = .int then ⟨false, var, .ofTag .int, [], []⟩
  else addToLocal env (var.dup d1) (sv.dup d2) var' ((var.dup d1).held ++ (sv.dup d2).held)

def caseOpAddLoc (env : Outcomes) (var op var' : Value) (d : Nat) : LocalSlots :=
  if var.tag = .int ∧ op.tag = .int then ⟨false, var, .ofTag .int, [], []⟩
  else if var.tag = .string then
    match toPrimitiveFree env 0 op with
    | (none, r) => ⟨true, var', var', [], r⟩
    | (some op1, r) =>
      match concatString env (var'.dup d) op1 with
      | (none, r') => ⟨true, var', var', (var'.dup d).held, r ++ r'⟩
      | (some v, r') => ⟨false, var', v, (var'.dup d).held, r ++ r' ++ var'.held⟩
  else addToLocal env (var.dup d) op var' (var.dup d).held

/-- The operand stack, its top first, in the exception handler: slots are released up to a catch
offset; at an enumerator the next method goes and the iterator is closed. -/
def unwind : List Value → List Nat × List Value
  | [] => ([], [])
  | v :: rest =>
    match v.tag with
    | .catchOffset 0 =>
      match rest with
      | [] => (v.held, [])
      | method :: rest =>
        let (r, s) := unwind rest
        (v.held ++ method.held ++ r, s)
    | .catchOffset _ => (v.held, .ofTag .exception :: rest)
    | _ =>
      let (r, s) := unwind rest
      (v.held ++ r, s)

def handleException (catchable generator : Bool) (stack : List Value) : List Nat × List Value :=
  if catchable then unwind stack
  else if generator then ([], stack)
  else (stack.flatMap Value.held, [])

def Spends (spent : List Nat) (c : Consumed) : Prop :=
  ∀ x, c.2.count x + (c.1.elim [] Value.held).count x = spent.count x

structure Slots.Settles (spent : List Nat) (s : Slots) : Prop where
  once : ∀ x, s.released.count x + s.left.held.count x = spent.count x
  cleared : s.raised → s.left.held = [] ∧ s.right.held = []

@[simp] theorem held_fresh (tag : ValueTag) (text : Text) : (Value.fresh tag text).held = [] := rfl

@[simp] theorem held_ofTag (tag : ValueTag) : (Value.ofTag tag).held = [] := rfl

@[simp] theorem held_ofText (text : Text) (held : List Nat) :
    (Value.ofText text held).held = held :=
  rfl

theorem held_of_tag {v : Value} {tag : ValueTag} (h : v.tag = tag)
    (hplain : tag.hasRefCount = false) : v.held = [] := v.plain (by rw [h, hplain])

theorem toPrimitiveFree_spends (env : Outcomes) (site : Nat) (v : Value) :
    Spends v.held (toPrimitiveFree env site v) := by
  intro x
  unfold toPrimitiveFree
  split
  · simp
  · split
    · simp
    · split <;> simp

theorem toStringFree_spends (env : Outcomes) (site : Nat) (v : Value) :
    Spends v.held (toStringFree env site v) := by
  intro x
  unfold toStringFree
  split
  · simp
  · cases env.toText site v <;> simp

theorem toText_spends (env : Outcomes) (site : Nat) (v : Value) :
    Spends v.held (toText env site v) := by
  unfold toText
  split
  · intro x
    simp
  · exact toStringFree_spends env site v

theorem primitiveToNumericFree_spends (env : Outcomes) (site : Nat) (v : Value) :
    Spends v.held (primitiveToNumericFree env site v) := by
  intro x
  unfold primitiveToNumericFree
  split <;> try simp
  · next h => simp [held_of_tag h rfl]
  · next h => simp [held_of_tag h rfl]
  · next h => simp [held_of_tag h rfl]
  · cases env.toNumber site v <;> simp
  · cases env.toNumber site v <;> simp

theorem toNumericFree_spends (env : Outcomes) (site : Nat) (v : Value) :
    Spends v.held (toNumericFree env site v) := by
  have hprim := toPrimitiveFree_spends env site v
  unfold toNumericFree
  split
  · next h => rwa [h] at hprim
  · next p r h =>
    have hnum := primitiveToNumericFree_spends env site p
    rw [h] at hprim
    intro x
    have h1 := hprim x
    have h2 := hnum x
    simp only [Option.elim_some, List.count_append] at h1 h2 ⊢
    omega

theorem newStringRope_spends (env : Outcomes) (op1 op2 : Value) :
    Spends (op1.held ++ op2.held) (newStringRope env op1 op2) := by
  intro x
  simp only [newStringRope]
  repeat' split
  · simp
  · simp
  · cases env.rebalanced (op1.text.rope op2.text) <;> simp
  · simp

theorem concatString2_spends (env : Outcomes) (op1 op2 : Value) :
    Spends (op1.held ++ op2.held) (concatString2 env op1 op2) := by
  intro x
  unfold concatString2 concatString1
  repeat' split
  all_goals simp [Nat.add_comm]

theorem joined_spends {spent kept : List Nat} {c c' : Consumed} {val : Value} {r : List Nat}
    (h : Spends spent (some val, r)) (h' : Spends val.held c')
    (hc : c = (c'.1, r ++ c'.2 ++ kept)) :
    Spends (spent ++ kept) c := by
  intro x
  have h1 := h x
  have h2 := h' x
  rw [hc]
  simp only [Option.elim_some, List.count_append] at h1 h2 ⊢
  omega

theorem Spends.symm {a b : List Nat} {c : Consumed} (h : Spends (a ++ b) c) :
    Spends (b ++ a) c := by
  intro x
  have := h x
  rw [List.count_append] at this ⊢
  omega

theorem Spends.failed {spent kept : List Nat} {r : List Nat} (h : Spends spent (none, r)) :
    Spends (spent ++ kept) (none, r ++ kept) := by
  intro x
  have := h x
  simp only [Option.elim_none, List.count_append, List.count_nil] at this ⊢
  omega

theorem kept_left_spends (op1 op2 : Value) :
    Spends (op1.held ++ op2.held) (some op1, op2.held) := by
  intro x
  simp [Nat.add_comm]

theorem concatTexts_spends (env : Outcomes) (op1 op2 : Value) :
    Spends (op1.held ++ op2.held) (concatTexts env op1 op2) := by
  unfold concatTexts
  split
  · split
    · exact kept_left_spends op1 op2
    · split
      · exact concatString2_spends env op1 op2
      · exact newStringRope_spends env op1 op2
  · next left n n2 _ _ =>
    have hjoin := concatString2_spends env (.ofText (.flat n) []) op2
    split
    · exact kept_left_spends op1 op2
    · split
      · split
        · next r h =>
          rw [h] at hjoin
          exact hjoin.failed.symm
        · next val r h =>
          rw [h] at hjoin
          exact (joined_spends hjoin (newStringRope_spends env (.ofText left []) val) rfl).symm
      · exact newStringRope_spends env op1 op2
  · split
    · exact kept_left_spends op1 op2
    · exact newStringRope_spends env op1 op2
  · next n1 n right _ _ =>
    have hjoin := (concatString2_spends env op1 (.ofText (.flat n) [])).symm
    split
    · exact (kept_left_spends op2 op1).symm
    · split
      · split
        · next r h =>
          rw [h] at hjoin
          exact hjoin.failed
        · next val r h =>
          rw [h] at hjoin
          exact joined_spends hjoin (newStringRope_spends env val (.ofText right [])).symm rfl
      · exact newStringRope_spends env op1 op2
  · split
    · exact (kept_left_spends op2 op1).symm
    · exact newStringRope_spends env op1 op2
  · exact newStringRope_spends env op1 op2

theorem concatString_spends (env : Outcomes) (op1 op2 : Value) :
    Spends (op1.held ++ op2.held) (concatString env op1 op2) := by
  have h1 := toText_spends env 0 op1
  have h2 := toText_spends env 1 op2
  unfold concatString
  split
  · next r h =>
    rw [h] at h1
    exact h1.failed
  · next v1 r h =>
    rw [h] at h1
    split
    · next r' h' =>
      rw [h'] at h2
      intro x
      have e1 := h1 x
      have e2 := h2 x
      simp only [Option.elim_some, Option.elim_none, List.count_append, List.count_nil] at e1 e2 ⊢
      omega
    · next v2 r' h' =>
      rw [h'] at h2
      have h3 := concatTexts_spends env v1 v2
      intro x
      have e1 := h1 x
      have e2 := h2 x
      have e3 := h3 x
      simp only [Option.elim_some, List.count_append] at e1 e2 e3 ⊢
      omega

theorem undefined_settles {spent released : List Nat}
    (h : ∀ x, released.count x = spent.count x) : (Slots.undefined released).Settles spent :=
  ⟨h, fun _ => ⟨rfl, rfl⟩⟩

theorem result_settles {spent released : List Nat} {v right : Value}
    (h : ∀ x, released.count x + v.held.count x = spent.count x) :
    (Slots.result v right released).Settles spent :=
  ⟨h, nofun⟩

theorem Slots.Settles.of_count {spent spent' : List Nat} {s : Slots} (h : s.Settles spent)
    (hcount : ∀ x, spent.count x = spent'.count x) : s.Settles spent' :=
  ⟨fun x => (h.once x).trans (hcount x), h.cleared⟩

theorem toFloat64Free_spends (v : Value) : (toFloat64Free v).2 = v.held := by
  unfold toFloat64Free
  split <;> next h => first | exact (held_of_tag h rfl).symm | rfl

theorem addNumeric_settles (env : Outcomes) (op1 op2 right : Value) (released : List Nat) :
    (addNumeric env op1 op2 right released).Settles (released ++ op1.held ++ op2.held) := by
  have h1 := toFloat64Free_spends op1
  have h2 := toFloat64Free_spends op2
  unfold addNumeric
  split
  · next h =>
    apply result_settles
    simp [held_of_tag h.1 rfl, held_of_tag h.2 rfl]
  · split
    · split
      · exact result_settles fun x => by simp
      · exact undefined_settles fun x => rfl
    · split
      · next r h =>
        rw [h] at h1
        exact undefined_settles fun x => by rw [← h1]
      · next r h =>
        rw [h] at h1
        split
        · next r' h' =>
          rw [h'] at h2
          exact undefined_settles fun x => by rw [← h1, ← h2]
        · next r' h' =>
          rw [h'] at h2
          exact result_settles fun x => by rw [← h1, ← h2]; rfl

theorem addPrimitives_settles (env : Outcomes) (op1 op2 right : Value) (released : List Nat) :
    (addPrimitives env op1 op2 right released).Settles (released ++ op1.held ++ op2.held) := by
  unfold addPrimitives
  split
  · have hconcat := concatString_spends env op1 op2
    split
    · next r h =>
      rw [h] at hconcat
      refine undefined_settles fun x => ?_
      have := hconcat x
      simp only [Option.elim_none, List.count_append, List.count_nil] at this ⊢
      omega
    · next v r h =>
      rw [h] at hconcat
      refine result_settles fun x => ?_
      have := hconcat x
      simp only [Option.elim_some, List.count_append] at this ⊢
      omega
  · have h1 := toNumericFree_spends env 2 op1
    split
    · next r h =>
      rw [h] at h1
      refine undefined_settles fun x => ?_
      have := h1 x
      simp only [Option.elim_none, List.count_append, List.count_nil] at this ⊢
      omega
    · next v1 r h =>
      rw [h] at h1
      have h2 := toNumericFree_spends env 3 op2
      split
      · next r' h' =>
        rw [h'] at h2
        refine undefined_settles fun x => ?_
        have e1 := h1 x
        have e2 := h2 x
        simp only [Option.elim_some, Option.elim_none, List.count_append, List.count_nil]
          at e1 e2 ⊢
        omega
      · next v2 r' h' =>
        rw [h'] at h2
        refine (addNumeric_settles env v1 v2 right (released ++ r ++ r')).of_count fun x => ?_
        have e1 := h1 x
        have e2 := h2 x
        simp only [Option.elim_some, List.count_append] at e1 e2 ⊢
        omega

theorem addSlow_settles (env : Outcomes) (op1 op2 : Value) :
    (addSlow env op1 op2).Settles (op1.held ++ op2.held) := by
  unfold addSlow
  split
  · next h =>
    apply result_settles
    simp [held_of_tag h.1 rfl, held_of_tag h.2 rfl]
  · split
    · next h =>
      have hnone : op1.held ++ op2.held = [] := by
        rw [held_of_tag h.1 rfl, held_of_tag h.2 rfl, List.append_nil]
      rw [hnone]
      repeat' split
      · exact result_settles fun x => rfl
      · exact result_settles fun x => rfl
      · exact undefined_settles fun x => rfl
    · split
      · have h1 := toPrimitiveFree_spends env 0 op1
        split
        · next r h =>
          rw [h] at h1
          exact undefined_settles fun x => by
            have := @Spends.failed _ op2.held _ h1 x
            simpa using this
        · next v1 r h =>
          rw [h] at h1
          have h2 := toPrimitiveFree_spends env 1 op2
          split
          · next r' h' =>
            rw [h'] at h2
            refine undefined_settles fun x => ?_
            have e1 := h1 x
            have e2 := h2 x
            simp only [Option.elim_some, Option.elim_none, List.count_append, List.count_nil]
              at e1 e2 ⊢
            omega
          · next v2 r' h' =>
            rw [h'] at h2
            refine (addPrimitives_settles env v1 v2 op2 (r ++ r')).of_count fun x => ?_
            have e1 := h1 x
            have e2 := h2 x
            simp only [Option.elim_some, List.count_append] at e1 e2 ⊢
            omega
      · have := addPrimitives_settles env op1 op2 op2 []
        rwa [List.nil_append] at this

theorem opAdd_settles {env : Outcomes} {op1 op2 : Value}
    (hok : ¬ (DirectConcat op1 op2 ∧ (concatString env op1 op2).1 = none)) :
    (caseOpAdd env op1 op2).Settles (op1.held ++ op2.held) := by
  have hslow := addSlow_settles env op1 op2
  have number {tag : ValueTag} {op1 op2 : Value} (h1 : op1.held = []) (h2 : op2.held = []) :
      (Slots.result (.ofTag tag) op2 []).Settles (op1.held ++ op2.held) :=
    result_settles fun x => by simp [h1, h2]
  unfold caseOpAdd
  split
  · next h => exact number (held_of_tag h.1 rfl) (held_of_tag h.2 rfl)
  · split
    · next h => exact number (held_of_tag h.1 rfl) (held_of_tag h.2 rfl)
    · split
      · split
        · next h =>
          have hplain {v : Value} (hv : v.tag.isArith) : v.held = [] := by
            apply v.plain
            revert hv
            cases v.tag <;> simp [ValueTag.isArith, ValueTag.hasRefCount]
          exact number (hplain h.1) (hplain h.2)
        · exact hslow
      · next hfloat =>
        obtain ⟨h1, h2⟩ := not_or.mp hfloat
        split
        · next hdirect =>
          have hconcat := concatString_spends env op1 op2
          split
          · next r h => exact absurd ⟨⟨h1, h2, hdirect⟩, by rw [h]⟩ hok
          · next v r h =>
            rw [h] at hconcat
            exact result_settles hconcat
        · exact hslow

theorem opAdd_direct_fails {env : Outcomes} {op1 op2 : Value} (hdirect : DirectConcat op1 op2)
    (hfail : (concatString env op1 op2).1 = none) :
    caseOpAdd env op1 op2 = ⟨true, .ofTag .exception, op2, (concatString env op1 op2).2⟩ := by
  obtain ⟨h1, h2, hstring⟩ := hdirect
  have hint : ¬ (op1.tag = .int ∧ op2.tag = .int) := by
    rintro ⟨ha, hb⟩
    simp [ha, hb, ValueTag.isString] at hstring
  unfold caseOpAdd
  rw [if_neg hint, if_neg (fun h => h1 h.1), if_neg (fun h => h.elim h1 h2), if_pos hstring]
  split
  · next r h => rw [h]
  · next v r h =>
    rw [h] at hfail
    cases hfail

theorem unwind_keeps (stack : List Value) (x : Nat) :
    (unwind stack).1.count x + ((unwind stack).2.flatMap Value.held).count x =
      (stack.flatMap Value.held).count x := by
  fun_induction unwind stack with
  | case1 => rfl
  | case2 => simp
  | case3 v _ method rest r s hrec ih =>
    rw [hrec] at ih
    simp only [List.flatMap_cons, List.count_append] at ih ⊢
    omega
  | case4 v rest => simp
  | case5 v rest r s hrec _ _ ih =>
    rw [hrec] at ih
    simp only [List.flatMap_cons, List.count_append] at ih ⊢
    omega

theorem handleException_keeps (catchable generator : Bool) (stack : List Value) (x : Nat) :
    (handleException catchable generator stack).1.count x +
        ((handleException catchable generator stack).2.flatMap Value.held).count x =
      (stack.flatMap Value.held).count x := by
  unfold handleException
  split
  · exact unwind_keeps stack x
  · split <;> simp

/-- The operand stack after the instruction and, when it raised, the handler; with it what the
handler released. -/
def afterwards (s : Slots) (below : List Value) (catchable generator : Bool) :
    List Nat × List Value :=
  if s.raised then handleException catchable generator (s.right :: s.left :: below)
  else ([], s.left :: below)

/-- Every reference of the operands and of the stack below is released once or held once by what
is left on the stack. -/
def ReleasedOnce (s : Slots) (op1 op2 : Value) (below : List Value) : Prop :=
  ∀ (catchable generator : Bool) (x : Nat),
    (s.released ++ (afterwards s below catchable generator).1 ++
        (afterwards s below catchable generator).2.flatMap Value.held).count x =
      ((op1 :: op2 :: below).flatMap Value.held).count x

def LocalReleasedOnce (s : LocalSlots) (operand : List Nat) : Prop :=
  ∀ x, if s.raised then s.var = s.old ∧ s.released.count x = (operand ++ s.copied).count x
    else s.released.count x + s.var.held.count x = (operand ++ s.copied ++ s.old.held).count x

theorem afterwards_count (s : Slots) (below : List Value) (catchable generator : Bool) (x : Nat) :
    (s.released ++ (afterwards s below catchable generator).1 ++
        (afterwards s below catchable generator).2.flatMap Value.held).count x =
      s.released.count x + s.left.held.count x + (if s.raised then s.right.held.count x else 0) +
        (below.flatMap Value.held).count x := by
  rw [List.count_append, List.count_append]
  unfold afterwards
  cases s.raised
  · simp only [Bool.false_eq_true, if_false, List.count_nil, List.flatMap_cons, List.count_append]
    omega
  · have := handleException_keeps catchable generator (s.right :: s.left :: below) x
    simp only [if_true, List.flatMap_cons, List.count_append] at this ⊢
    omega

theorem opAdd_released_iff (env : Outcomes) (op1 op2 : Value) (below : List Value) :
    ReleasedOnce (caseOpAdd env op1 op2) op1 op2 below ↔
      ¬ (DirectConcat op1 op2 ∧ (concatString env op1 op2).1 = none ∧ op2.held ≠ []) := by
  constructor
  · rintro h ⟨hdirect, hfail, hheld⟩
    obtain ⟨r, hr⟩ := List.exists_mem_of_ne_nil _ hheld
    have hspent := concatString_spends env op1 op2 r
    have hcount := h true true r
    rw [afterwards_count, opAdd_direct_fails hdirect hfail] at hcount
    rw [hfail] at hspent
    have hpos := List.count_pos_iff.mpr hr
    simp only [Option.elim_none, List.count_nil, List.count_append, held_ofTag, if_true,
      List.flatMap_cons] at hspent hcount
    omega
  · intro hok catchable generator x
    rw [afterwards_count]
    simp only [List.flatMap_cons]
    by_cases hfails : DirectConcat op1 op2 ∧ (concatString env op1 op2).1 = none
    · have hheld : op2.held = [] := by
        by_contra hne
        exact hok ⟨hfails.1, hfails.2, hne⟩
      have hspent := concatString_spends env op1 op2 x
      rw [hfails.2] at hspent
      rw [opAdd_direct_fails hfails.1 hfails.2]
      simp only [Option.elim_none, List.count_nil, List.count_append, held_ofTag, if_true, hheld]
        at hspent ⊢
      omega
    · have hsettles := opAdd_settles hfails
      have honce := hsettles.once x
      have hright :
          (if (caseOpAdd env op1 op2).raised then (caseOpAdd env op1 op2).right.held.count x
          else 0) = 0 := by
        split
        · next hr => rw [(hsettles.cleared hr).2, List.count_nil]
        · rfl
      rw [hright]
      simp only [List.count_append] at honce ⊢
      omega

theorem addToLocal_released (env : Outcomes) (op1 op2 var' : Value) {operand copied : List Nat}
    (hspent : ∀ x, (op1.held ++ op2.held).count x = (operand ++ copied).count x) :
    LocalReleasedOnce (addToLocal env op1 op2 var' copied) operand := by
  have h := (addSlow_settles env op1 op2).of_count hspent
  intro x
  have honce := h.once x
  cases hr : (addSlow env op1 op2).raised
  · have hlocal : addToLocal env op1 op2 var' copied = ⟨false, var', (addSlow env op1 op2).left,
        copied, (addSlow env op1 op2).released ++ var'.held⟩ := by simp [addToLocal, hr]
    rw [hlocal]
    simp only [Bool.false_eq_true, if_false, List.count_append] at honce ⊢
    omega
  · have hlocal : addToLocal env op1 op2 var' copied =
        ⟨true, var', var', copied, (addSlow env op1 op2).released⟩ := by simp [addToLocal, hr]
    rw [hlocal]
    rw [(h.cleared hr).1, List.count_nil] at honce
    exact ⟨rfl, honce⟩

theorem opAddLocLoc_released (env : Outcomes) (var sv var' : Value) (d1 d2 : Nat) :
    LocalReleasedOnce (opAddLocLoc env var sv var' d1 d2) [] := by
  unfold opAddLocLoc
  split
  · next h =>
    intro x
    simp [held_of_tag h.1 rfl]
  · exact addToLocal_released env _ _ var' fun x => rfl

theorem opAddLoc_released (env : Outcomes) (var op var' : Value) (d : Nat) :
    LocalReleasedOnce (caseOpAddLoc env var op var' d) op.held := by
  unfold caseOpAddLoc
  split
  · next h =>
    intro x
    simp [held_of_tag h.1 rfl, held_of_tag h.2 rfl]
  · split
    · have h1 := toPrimitiveFree_spends env 0 op
      split
      · next r h =>
        rw [h] at h1
        intro x
        have e1 := h1 x
        simp only [Option.elim_none, List.count_nil] at e1
        exact ⟨rfl, by simpa using e1⟩
      · next v1 r h =>
        rw [h] at h1
        have h2 := concatString_spends env (var'.dup d) v1
        split
        · next r' h' =>
          rw [h'] at h2
          intro x
          have e1 := h1 x
          have e2 := h2 x
          simp only [Option.elim_some, Option.elim_none, List.count_append, List.count_nil] at e1 e2
          refine ⟨rfl, ?_⟩
          simp only [List.count_append]
          omega
        · next v r' h' =>
          rw [h'] at h2
          intro x
          have e1 := h1 x
          have e2 := h2 x
          simp only [Option.elim_some, List.count_append, Bool.false_eq_true, if_false] at e1 e2 ⊢
          omega
    · exact addToLocal_released env _ _ var' fun x => by
        rw [List.count_append, List.count_append, Nat.add_comm]

/-- Every form of the addition gives up every operand once, unless `OP_add` joins a string with a
primitive, that fails, and the right operand is counted: it is then released a second time. -/
theorem additions_release_once_iff (env : Outcomes) (op1 op2 var var' : Value)
    (below : List Value) (d1 d2 : Nat) :
    (ReleasedOnce (caseOpAdd env op1 op2) op1 op2 below ∧
      LocalReleasedOnce (caseOpAddLoc env var op1 var' d1) op1.held ∧
      LocalReleasedOnce (opAddLocLoc env var op2 var' d1 d2) []) ↔
    ¬ (DirectConcat op1 op2 ∧ (concatString env op1 op2).1 = none ∧ op2.held ≠ []) :=
  ⟨fun h => (opAdd_released_iff env op1 op2 below).mp h.1,
    fun h => ⟨(opAdd_released_iff env op1 op2 below).mpr h, opAddLoc_released env var op1 var' d1,
      opAddLocLoc_released env var op2 var' d1 d2⟩⟩

/-- A string and a symbol: the conversion throws and the symbol is released twice. -/
theorem string_plus_symbol_releases_twice :
    let env : Outcomes := ⟨fun _ _ => none, fun _ _ => none, fun _ _ => none, fun _ => true,
      fun _ _ => false, fun _ => none, true⟩
    let text : Value := ⟨.string, .flat 1, [0], nofun⟩
    let symbol : Value := ⟨.symbol, .flat 0, [1], nofun⟩
    ¬ ReleasedOnce (caseOpAdd env text symbol) text symbol [] ∧
      ((caseOpAdd env text symbol).released ++
        (afterwards (caseOpAdd env text symbol) [] true false).1).count 1 = 2 :=
  ⟨fun h => absurd (h true false 1) (by decide), by decide⟩

end TurboJS.Interpreter
