import TurboJS.Bytecode.Instruction
import TurboJS.Foundation.Run

namespace TurboJS.Bytecode

/-- The values of the fragment. Numbers are exact integers, whatever their tag, or NaN; a value
of any other kind is `foreign`. -/
inductive JSValue where
  | undefined | null | uninitialized | nan
  | bool (b : Bool)
  | number (n : Int)
  | object (o : Nat)
  | foreign (id : Nat)
  deriving DecidableEq, Repr

/-- What the instructions on objects ask from the heap; `none` is an exception, or a case
outside the fragment. -/
structure HeapOps (H : Type) where
  getArrayEl : H → JSValue → JSValue → Option JSValue
  putArrayEl : H → JSValue → JSValue → JSValue → Option H
  getLength : H → JSValue → Option JSValue
  getField : H → JSValue → Nat → Option JSValue
  putField : H → JSValue → Nat → JSValue → Option H
  getVar : H → Nat → Option JSValue

def noHeap : HeapOps Unit where
  getArrayEl _ _ _ := none
  putArrayEl _ _ _ _ := none
  getLength _ _ := none
  getField _ _ _ := none
  putField _ _ _ _ := none
  getVar _ _ := none

structure State (H : Type) where
  pc : Nat
  stack : List JSValue
  slots : Slot → JSValue
  heap : H

variable {H : Type}

def State.push (s : State H) (v : JSValue) (next : Nat) : State H :=
  { s with pc := next, stack := v :: s.stack }

def State.setSlot (s : State H) (slot : Slot) (v : JSValue) : State H :=
  { s with slots := Function.update s.slots slot v }

def toBits (n : Int) : BitVec 32 := BitVec.ofInt 32 n

def ofBits (b : BitVec 32) : JSValue := .number b.toInt

def int32Min : Int := -2 ^ 31

def int32Max : Int := 2 ^ 31 - 1

def intValue : JSValue → Option Int
  | .number n => if int32Min ≤ n ∧ n ≤ int32Max then some n else none
  | _ => none

/-- `JS_ToBool` on the values of the fragment. -/
def truthy : JSValue → Option Bool
  | .bool b => some b
  | .number n => some (n ≠ 0)
  | .undefined | .null | .nan => some false
  | .object _ => some true
  | .uninitialized | .foreign _ => none

/-- The binary operators on two numbers. A result that is no integer, or that is a negative
zero, is outside the fragment. -/
def numeric (op : Plain) (m n : Int) : Option JSValue :=
  match op with
  | .add => some (.number (m + n))
  | .sub => some (.number (m - n))
  | .mul => if m * n = 0 ∧ (m < 0 ∨ n < 0) then none else some (.number (m * n))
  | .div => if n = 0 ∨ m % n ≠ 0 ∨ (m = 0 ∧ n < 0) then none else some (.number (m / n))
  | .mod => if n = 0 ∨ (m < 0 ∧ m.tmod n = 0) then none else some (.number (m.tmod n))
  | .and => some (ofBits (toBits m &&& toBits n))
  | .or => some (ofBits (toBits m ||| toBits n))
  | .xor => some (ofBits (toBits m ^^^ toBits n))
  | .shl => some (ofBits (toBits m <<< ((toBits n).toNat % 32)))
  | .sar => some (ofBits ((toBits m).sshiftRight ((toBits n).toNat % 32)))
  | .shr => some (.number ((toBits m).toNat >>> ((toBits n).toNat % 32) : Nat))
  | .lt => some (.bool (m < n))
  | .lte => some (.bool (m ≤ n))
  | .gt => some (.bool (m > n))
  | .gte => some (.bool (m ≥ n))
  | .eq => some (.bool (m = n))
  | .neq => some (.bool (m ≠ n))
  | _ => none

/-- `JS_ToNumber`: an integer, or NaN. -/
def toNumber : JSValue → Option (Option Int)
  | .number n => some (some n)
  | .nan | .undefined => some none
  | _ => none

def numericNaN (op : Plain) (m n : Option Int) : Option JSValue :=
  match op with
  | .add | .sub | .mul | .div | .mod => some .nan
  | .and | .or | .xor | .shl | .sar | .shr => numeric op (m.getD 0) (n.getD 0)
  | .lt | .lte | .gt | .gte => some (.bool false)
  | _ => none

/-- The binary operators: strict equality is defined on all values of the fragment, the
others on numbers and on what converts to NaN. -/
def binary (op : Plain) (a b : JSValue) : Option JSValue :=
  match op, a, b with
  | .strictEq, a, b => some (.bool (a = b ∧ a ≠ .nan))
  | .strictNeq, a, b => some (.bool (a ≠ b ∨ a = .nan))
  | op, .number m, .number n => numeric op m n
  | op, a, b => do
    let m ← toNumber a
    let n ← toNumber b
    numericNaN op m n

def jump (s : State H) (target : Int) : Option (State H) :=
  if 0 ≤ target then some { s with pc := target.toNat } else none

def execPlain (ops : HeapOps H) (op : Plain) (s : State H) (next : Nat) : Option (State H) :=
  match op, s.stack with
  | .nop, _ => some { s with pc := next }
  | .drop, _ :: st => some { s with pc := next, stack := st }
  | .dup, v :: st => some { s with pc := next, stack := v :: v :: st }
  | .swap, b :: a :: st => some { s with pc := next, stack := a :: b :: st }
  | .postInc, .number n :: st =>
    some { s with pc := next, stack := .number (n + 1) :: .number n :: st }
  | .neg, .number n :: st =>
    if n = 0 then none else some { s with pc := next, stack := .number (-n) :: st }
  | .toPropkey, .number n :: st => some { s with pc := next, stack := .number n :: st }
  | .isUndefinedOrNull, v :: st =>
    some { s with pc := next, stack := .bool (v = .undefined ∨ v = .null) :: st }
  | .getArrayEl, k :: o :: st => do
    let v ← ops.getArrayEl s.heap o k
    some { s with pc := next, stack := v :: st }
  | .putArrayEl, v :: k :: o :: st => do
    let h ← ops.putArrayEl s.heap o k v
    some { s with pc := next, stack := st, heap := h }
  | .getLength, o :: st => do
    let v ← ops.getLength s.heap o
    some { s with pc := next, stack := v :: st }
  | .return, _ => none
  | .object, _ => none
  | op, b :: a :: st => do
    let v ← binary op a b
    some { s with pc := next, stack := v :: st }
  | _, _ => none

/-- One instruction; `next` is the offset behind it. -/
def exec (ops : HeapOps H) (cpool : List JSValue) (i : Insn) (s : State H) (next : Nat) :
    Option (State H) :=
  match i, s.stack with
  | .get slot form, _ =>
    if form = .check ∧ s.slots slot = .uninitialized then none
    else some (s.push (s.slots slot) next)
  | .put slot form, v :: st =>
    if form = .check ∧ s.slots slot = .uninitialized then none
    else some ({ s with pc := next, stack := st }.setSlot slot v)
  | .set slot _, v :: _ => some ({ s with pc := next }.setSlot slot v)
  | .setUninitialized index, _ =>
    some ({ s with pc := next }.setSlot ⟨.local, index⟩ .uninitialized)
  | .pushShort n, _ | .pushInt n _, _ => some (s.push (.number n) next)
  | .pushConst index, _ => do
    let v ← cpool[index]?
    some (s.push v next)
  | .plain op, _ => execPlain ops op s next
  | .getField atom, o :: st => do
    let v ← ops.getField s.heap o atom
    some { s with pc := next, stack := v :: st }
  | .putField atom, v :: o :: st => do
    let h ← ops.putField s.heap o atom v
    some { s with pc := next, stack := st, heap := h }
  | .getVar atom, _ => do
    let v ← ops.getVar s.heap atom
    some (s.push v next)
  | .ifFalse target _, v :: st => do
    let b ← truthy v
    if b then some { s with pc := next, stack := st } else jump { s with stack := st } target
  | .ifTrue target _, v :: st => do
    let b ← truthy v
    if b then jump { s with stack := st } target else some { s with pc := next, stack := st }
  | .goto target _, _ => jump s target
  | _, _ => none

section

variable (ops : HeapOps H) (cpool : List JSValue) (s : State H) (pc next : Nat) (u v : JSValue)
  (st : List JSValue) (slots : Slot → JSValue) (heap : H)

@[simp, reducible] def Plain.isOperator : Plain → Bool
  | .add | .sub | .mul | .div | .mod | .and | .or | .xor | .shl | .sar | .shr | .lt | .lte | .gt
  | .gte | .eq | .neq | .strictEq | .strictNeq => true
  | _ => false

@[simp] theorem execPlain_operator {op : Plain} (h : op.isOperator = true) :
    execPlain ops op ⟨pc, v :: u :: st, slots, heap⟩ next =
      (binary op u v).bind fun w => some ⟨next, w :: st, slots, heap⟩ := by
  cases op <;> first | rfl | cases h

@[simp] theorem execPlain_drop : execPlain ops .drop ⟨pc, v :: st, slots, heap⟩ next =
    some ⟨next, st, slots, heap⟩ := rfl

@[simp] theorem execPlain_dup : execPlain ops .dup ⟨pc, v :: st, slots, heap⟩ next =
    some ⟨next, v :: v :: st, slots, heap⟩ := rfl

@[simp] theorem execPlain_swap : execPlain ops .swap ⟨pc, v :: u :: st, slots, heap⟩ next =
    some ⟨next, u :: v :: st, slots, heap⟩ := rfl

@[simp] theorem execPlain_postInc (n : Int) :
    execPlain ops .postInc ⟨pc, .number n :: st, slots, heap⟩ next =
      some ⟨next, .number (n + 1) :: .number n :: st, slots, heap⟩ := rfl

@[simp] theorem execPlain_toPropkey (n : Int) :
    execPlain ops .toPropkey ⟨pc, .number n :: st, slots, heap⟩ next =
      some ⟨next, .number n :: st, slots, heap⟩ := rfl

@[simp] theorem execPlain_isUndefinedOrNull :
    execPlain ops .isUndefinedOrNull ⟨pc, v :: st, slots, heap⟩ next =
      some ⟨next, .bool (v = .undefined ∨ v = .null) :: st, slots, heap⟩ := rfl

@[simp] theorem execPlain_getArrayEl :
    execPlain ops .getArrayEl ⟨pc, v :: u :: st, slots, heap⟩ next =
      (ops.getArrayEl heap u v).bind fun w => some ⟨next, w :: st, slots, heap⟩ := rfl

@[simp] theorem execPlain_putArrayEl (a : JSValue) :
    execPlain ops .putArrayEl ⟨pc, a :: v :: u :: st, slots, heap⟩ next =
      (ops.putArrayEl heap u v a).bind fun h => some ⟨next, st, slots, h⟩ := rfl

@[simp] theorem execPlain_getLength :
    execPlain ops .getLength ⟨pc, v :: st, slots, heap⟩ next =
      (ops.getLength heap v).bind fun w => some ⟨next, w :: st, slots, heap⟩ := rfl

@[simp] theorem exec_get (slot : Slot) (form : Form) :
    exec ops cpool (.get slot form) s next =
      if form = .check ∧ s.slots slot = .uninitialized then none
      else some (s.push (s.slots slot) next) := rfl

@[simp] theorem exec_put (slot : Slot) (form : Form) :
    exec ops cpool (.put slot form) ⟨pc, v :: st, slots, heap⟩ next =
      if form = .check ∧ slots slot = .uninitialized then none
      else some ⟨next, st, Function.update slots slot v, heap⟩ := rfl

@[simp] theorem exec_plain (op : Plain) :
    exec ops cpool (.plain op) s next = execPlain ops op s next := rfl

@[simp] theorem exec_pushShort (n : Int) :
    exec ops cpool (.pushShort n) s next = some (s.push (.number n) next) := rfl

@[simp] theorem exec_pushInt (n : Int) (width : Width) :
    exec ops cpool (.pushInt n width) s next = some (s.push (.number n) next) := rfl

@[simp] theorem exec_getVar (atom : Nat) : exec ops cpool (.getVar atom) s next =
    (ops.getVar s.heap atom).bind fun w => some (s.push w next) := rfl

end

@[simp] theorem binary_number {op : Plain} (m n : Int) (h : op ≠ .strictEq)
    (h' : op ≠ .strictNeq) : binary op (.number m) (.number n) = numeric op m n := by
  cases op <;> first | rfl | contradiction

structure FunctionBytecode where
  code : List UInt8
  cpool : List JSValue
  argCount : Nat
  varCount : Nat

def step (ops : HeapOps H) (b : FunctionBytecode) (s : State H) : Option (State H) := do
  let (i, next) ← decode b.code s.pc
  exec ops b.cpool i s next

theorem step_of_decode {ops : HeapOps H} {b : FunctionBytecode} {s : State H} {i : Insn}
    {next : Nat} (h : decode b.code s.pc = some (i, next)) :
    step ops b s = exec ops b.cpool i s next := by
  simp [step, h]

end TurboJS.Bytecode

namespace TurboJS.Bytecode
open Foundation

/-! Straight-line code: a list of instructions that stands in the bytecode and is run as a
whole. -/

variable {H : Type}

def Insn.straight : Insn → Bool
  | .ifFalse _ _ | .ifTrue _ _ | .goto _ _ => false
  | _ => true

/-- The instructions from offset `p` to offset `q`. -/
def Spells (code : List UInt8) (p : Nat) : List Insn → Nat → Prop
  | [], q => p = q
  | i :: is, q => ∃ next, decode code p = some (i, next) ∧ Spells code next is q

def execAll (ops : HeapOps H) (cpool : List JSValue) : List Insn → State H → Option (State H)
  | [], s => some s
  | i :: is, s => (exec ops cpool i s s.pc).bind (execAll ops cpool is)

section

variable {code : List UInt8} {p q r : Nat} {i : Insn} {is js : List Insn}

theorem Spells.le (h : Spells code p is q) : p ≤ q := by
  induction is generalizing p with
  | nil => exact Nat.le_of_eq h
  | cons i is ih =>
    obtain ⟨next, hd, hrest⟩ := h
    have h1 := decode_lt hd
    have h2 := ih hrest
    omega

theorem Spells.append (h : Spells code p is q) (h' : Spells code q js r) :
    Spells code p (is ++ js) r := by
  induction is generalizing p with
  | nil =>
    cases h
    exact h'
  | cons i is ih =>
    obtain ⟨next, hd, hrest⟩ := h
    exact ⟨next, hd, ih hrest⟩

theorem Spells.single (hd : decode code p = some (i, q)) : Spells code p [i] q :=
  ⟨q, hd, rfl⟩

end

/-! The effect of a straight instruction does not depend on where it stands. -/

theorem execPlain_map (ops : HeapOps H) (op : Plain) (pc pc' n n' : Nat) (st : List JSValue)
    (slots : Slot → JSValue) (heap : H) :
    execPlain ops op ⟨pc', st, slots, heap⟩ n' =
      (execPlain ops op ⟨pc, st, slots, heap⟩ n).map fun t => ⟨n', t.stack, t.slots, t.heap⟩ := by
  simp only [execPlain]
  split <;> try simp [Option.map_bind, Function.comp_def]
  -- The negation of zero has no result.
  split <;> rfl

theorem exec_map (ops : HeapOps H) (cpool : List JSValue) {i : Insn} (hs : i.straight = true)
    (pc pc' n n' : Nat) (st : List JSValue) (slots : Slot → JSValue) (heap : H) :
    exec ops cpool i ⟨pc', st, slots, heap⟩ n' =
      (exec ops cpool i ⟨pc, st, slots, heap⟩ n).map
        fun t => ⟨n', t.stack, t.slots, t.heap⟩ := by
  simp only [exec]
  split <;> try simp [Option.map_bind, Function.comp_def, State.push, State.setSlot]
  · split <;> rfl
  · split <;> rfl
  · exact execPlain_map ops _ pc pc' n n' st slots heap
  all_goals cases hs

theorem step_straight {ops : HeapOps H} {b : FunctionBytecode} {i : Insn} {p next : Nat}
    (hs : i.straight = true) (hd : decode b.code p = some (i, next)) {pc n : Nat}
    {st : List JSValue} {slots : Slot → JSValue} {heap : H} {t : State H}
    (he : exec ops b.cpool i ⟨pc, st, slots, heap⟩ n = some t) :
    step ops b ⟨p, st, slots, heap⟩ = some ⟨next, t.stack, t.slots, t.heap⟩ := by
  rw [step_of_decode hd, exec_map ops b.cpool hs pc p n next st slots heap, he]
  rfl

theorem execAll_runs {ops : HeapOps H} {b : FunctionBytecode} {is : List Insn}
    (hs : ∀ i ∈ is, i.straight = true) {p q : Nat} (hcode : Spells b.code p is q)
    {s t : State H} (he : execAll ops b.cpool is s = some t) :
    Runs (step ops b) (fun u => p ≤ u.pc ∧ u.pc < q) ⟨p, s.stack, s.slots, s.heap⟩
      ⟨q, t.stack, t.slots, t.heap⟩ := by
  induction is generalizing p s with
  | nil =>
    cases hcode
    cases he
    exact .refl _
  | cons i is ih =>
    obtain ⟨next, hd, hrest⟩ := hcode
    obtain ⟨u, hu, hu'⟩ := Option.bind_eq_some_iff.mp he
    have hlt := decode_lt hd
    have hle := hrest.le
    have hfirst := step_straight (hs i (by simp)) hd hu
    have htail := ih (fun j hj => hs j (by simp [hj])) hrest hu'
    refine .head ⟨Nat.le_refl p, by simp only; omega⟩ hfirst (htail.mono ?_)
    intro v hv
    omega

end TurboJS.Bytecode
