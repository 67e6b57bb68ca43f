import TurboJS.Bytecode.Interpreter

namespace TurboJS.Bytecode
open Foundation

/-! The interpreter with calls, and the instructions that only the functions around them use. -/

structure CallOps (H : Type) extends HeapOps H where
  call : H → JSValue → JSValue → List JSValue → Option (JSValue × H)
  arrayFrom : H → List JSValue → Option (JSValue × H)
  thisFunction : JSValue

/-- No allocation and no call but what `call` answers. -/
def callsOnly (thisFunction : JSValue) (call : JSValue → List JSValue → Option JSValue) :
    CallOps Unit where
  toHeapOps := noHeap
  call _ f _ args := (call f args).map fun v => (v, ())
  arrayFrom _ _ := none
  thisFunction := thisFunction

inductive FunctionInsn where
  | base (i : Insn)
  | specialObject (kind : Nat)
  | getArrayEl2
  | arrayFrom (count : Nat)
  deriving DecidableEq, Repr

def furtherOpcodes : List (Nat × (List UInt8 → Nat → Option (FunctionInsn × Nat))) :=
  [(12, fun code p => (readBytes code p 1).map fun n => (.specialObject n, p + 1)),
   (38, fun code p => (readBytes code p 2).map fun n => (.arrayFrom n, p + 2)),
   (71, fun _ p => some (.getArrayEl2, p))]

/-- The instruction at offset `p`, with the offset of the next one. -/
def decodeFunction (code : List UInt8) (p : Nat) : Option (FunctionInsn × Nat) :=
  match decode code p with
  | some (i, q) => some (.base i, q)
  | none => do
    let byte ← code[p]?
    let read ← furtherOpcodes.lookup byte.toNat
    read code (p + 1)

def specialObjectThisFunc : Nat := 2

variable {H : Type}

def execInvoke (ops : CallOps H) (count : Nat) (method : Bool) (s : State H) (next : Nat) :
    Option (State H) :=
  match method, s.stack.drop count with
  | false, f :: st => do
    let (v, h) ← ops.call s.heap f .undefined (s.stack.take count).reverse
    some { s with pc := next, stack := v :: st, heap := h }
  | true, f :: this :: st => do
    let (v, h) ← ops.call s.heap f this (s.stack.take count).reverse
    some { s with pc := next, stack := v :: st, heap := h }
  | _, _ => none

/-- One instruction; `next` is the offset behind it. -/
def execFunction (ops : CallOps H) (cpool : List JSValue) (i : FunctionInsn) (s : State H)
    (next : Nat) : Option (State H) :=
  match i, s.stack with
  | .base (.getField2 atom), o :: st => do
    let v ← ops.getField s.heap o atom
    some { s with pc := next, stack := v :: o :: st }
  | .base (.call count), _ => execInvoke ops count false s next
  | .base (.callMethod count), _ => execInvoke ops count true s next
  | .base i, _ => exec ops.toHeapOps cpool i s next
  | .specialObject kind, _ =>
    if kind = specialObjectThisFunc then some (s.push ops.thisFunction next) else none
  | .getArrayEl2, k :: o :: st => do
    let v ← ops.getArrayEl s.heap o k
    some { s with pc := next, stack := v :: o :: st }
  | .arrayFrom count, st => do
    let (v, h) ← ops.arrayFrom s.heap (st.take count).reverse
    some { s with pc := next, stack := v :: st.drop count, heap := h }
  | _, _ => none

def stepFunction (ops : CallOps H) (b : FunctionBytecode) (s : State H) : Option (State H) := do
  let (i, next) ← decodeFunction b.code s.pc
  execFunction ops b.cpool i s next

theorem decodeFunction_base {code : List UInt8} {p q : Nat} {i : Insn}
    (h : decode code p = some (i, q)) : decodeFunction code p = some (.base i, q) := by
  simp [decodeFunction, h]

theorem stepFunction_of_decode {ops : CallOps H} {b : FunctionBytecode} {s : State H}
    {i : FunctionInsn} {next : Nat} (h : decodeFunction b.code s.pc = some (i, next)) :
    stepFunction ops b s = execFunction ops b.cpool i s next := by
  simp [stepFunction, h]

theorem execFunction_of_exec {ops : CallOps H} {cpool : List JSValue} {i : Insn} {s t : State H}
    {next : Nat} (h : exec ops.toHeapOps cpool i s next = some t) :
    execFunction ops cpool (.base i) s next = some t := by
  cases i with
  | getField2 atom => simp [exec] at h
  | call count => simp [exec] at h
  | callMethod count => simp [exec] at h
  | _ => exact h

section

variable (ops : CallOps H) (cpool : List JSValue) (s : State H) (next : Nat)

@[simp] theorem execFunction_get (slot : Slot) (form : Form) :
    execFunction ops cpool (.base (.get slot form)) s next =
      if form = .check ∧ s.slots slot = .uninitialized then none
      else some (s.push (s.slots slot) next) := rfl

@[simp] theorem execFunction_plain (op : Plain) :
    execFunction ops cpool (.base (.plain op)) s next = execPlain ops.toHeapOps op s next := rfl

@[simp] theorem execFunction_pushShort (n : Int) :
    execFunction ops cpool (.base (.pushShort n)) s next = some (s.push (.number n) next) := rfl

@[simp] theorem execFunction_pushInt (n : Int) (width : Width) :
    execFunction ops cpool (.base (.pushInt n width)) s next =
      some (s.push (.number n) next) := rfl

@[simp] theorem execFunction_getVar (atom : Nat) :
    execFunction ops cpool (.base (.getVar atom)) s next =
      (ops.getVar s.heap atom).bind fun v => some (s.push v next) := rfl

@[simp] theorem execFunction_setUninitialized (index : Nat) :
    execFunction ops cpool (.base (.setUninitialized index)) s next =
      some ({ s with pc := next }.setSlot ⟨.local, index⟩ .uninitialized) := rfl

@[simp] theorem execFunction_call (count : Nat) :
    execFunction ops cpool (.base (.call count)) s next = execInvoke ops count false s next := rfl

@[simp] theorem execFunction_callMethod (count : Nat) :
    execFunction ops cpool (.base (.callMethod count)) s next =
      execInvoke ops count true s next := rfl

end

section

variable (ops : CallOps H) (cpool : List JSValue) (pc next : Nat) (v : JSValue)
  (st : List JSValue) (slots : Slot → JSValue) (heap : H)

@[simp] theorem execFunction_put (slot : Slot) (form : Form) :
    execFunction ops cpool (.base (.put slot form)) ⟨pc, v :: st, slots, heap⟩ next =
      if form = .check ∧ slots slot = .uninitialized then none
      else some ⟨next, st, Function.update slots slot v, heap⟩ := rfl

@[simp] theorem execFunction_getField2 (atom : Nat) :
    execFunction ops cpool (.base (.getField2 atom)) ⟨pc, v :: st, slots, heap⟩ next =
      (ops.getField heap v atom).bind fun w => some ⟨next, w :: v :: st, slots, heap⟩ := rfl

end

theorem stepFunction_of_step {ops : CallOps H} {b : FunctionBytecode} {s t : State H}
    (h : step ops.toHeapOps b s = some t) : stepFunction ops b s = some t := by
  simp only [step, Option.bind_eq_bind, Option.bind_eq_some_iff] at h
  obtain ⟨⟨i, next⟩, hd, he⟩ := h
  rw [stepFunction_of_decode (decodeFunction_base hd)]
  exact execFunction_of_exec he

def FunctionInsn.straight : FunctionInsn → Bool
  | .base i => i.straight
  | _ => true

/-- The instructions from offset `p` to offset `q`. -/
def SpellsFunction (code : List UInt8) (p : Nat) : List FunctionInsn → Nat → Prop
  | [], q => p = q
  | i :: is, q => ∃ next, decodeFunction code p = some (i, next) ∧ SpellsFunction code next is q

def execFunctionAll (ops : CallOps H) (cpool : List JSValue) :
    List FunctionInsn → State H → Option (State H)
  | [], s => some s
  | i :: is, s => (execFunction ops cpool i s s.pc).bind (execFunctionAll ops cpool is)

theorem execFunctionAll_cons {ops : CallOps H} {cpool : List JSValue} {i : FunctionInsn}
    {is : List FunctionInsn} {s t : State H} (h : execFunction ops cpool i s s.pc = some t) :
    execFunctionAll ops cpool (i :: is) s = execFunctionAll ops cpool is t := by
  rw [execFunctionAll, h, Option.bind_some]

theorem execFunctionAll_append {ops : CallOps H} {cpool : List JSValue}
    {is js : List FunctionInsn} {s t : State H} (h : execFunctionAll ops cpool is s = some t) :
    execFunctionAll ops cpool (is ++ js) s = execFunctionAll ops cpool js t := by
  induction is generalizing s with
  | nil =>
    cases h
    rfl
  | cons i is ih =>
    obtain ⟨u, hu, h⟩ := Option.bind_eq_some_iff.mp h
    rw [List.cons_append, execFunctionAll_cons hu, ih h]

section

variable {code : List UInt8} {p q r : Nat}

theorem decodeFunction_lt {i : FunctionInsn} (h : decodeFunction code p = some (i, q)) :
    p < q := by
  unfold decodeFunction at h
  split at h
  · rename_i j q' hd
    cases h
    exact decode_lt hd
  · simp only [Option.bind_eq_bind, Option.bind_eq_some_iff] at h
    obtain ⟨byte, -, read, hl, hr⟩ := h
    simp only [furtherOpcodes, List.lookup_cons, List.lookup_nil] at hl
    split at hl
    · cases hl
      obtain ⟨n, -, he⟩ := Option.map_eq_some_iff.mp hr
      cases he
      omega
    · split at hl
      · cases hl
        obtain ⟨n, -, he⟩ := Option.map_eq_some_iff.mp hr
        cases he
        omega
      · split at hl
        · cases hl
          cases hr
          omega
        · cases hl

theorem SpellsFunction.le {is : List FunctionInsn} (h : SpellsFunction code p is q) : p ≤ q := by
  induction is generalizing p with
  | nil => exact Nat.le_of_eq h
  | cons i is ih =>
    obtain ⟨next, hd, hrest⟩ := h
    have h1 := decodeFunction_lt hd
    have h2 := ih hrest
    omega

theorem SpellsFunction.append {is js : List FunctionInsn} (h : SpellsFunction code p is q)
    (h' : SpellsFunction code q js r) : SpellsFunction code p (is ++ js) r := by
  induction is generalizing p with
  | nil =>
    cases h
    exact h'
  | cons i is ih =>
    obtain ⟨next, hd, hrest⟩ := h
    exact ⟨next, hd, ih hrest⟩

theorem Spells.function {is : List Insn} (h : Spells code p is q) :
    SpellsFunction code p (is.map .base) q := by
  induction is generalizing p with
  | nil => exact h
  | cons i is ih =>
    obtain ⟨next, hd, hrest⟩ := h
    exact ⟨next, decodeFunction_base hd, ih hrest⟩

end

theorem execFunction_map (ops : CallOps H) (cpool : List JSValue) {i : FunctionInsn}
    (hs : i.straight = true) (pc pc' n n' : Nat) (st : List JSValue) (slots : Slot → JSValue)
    (heap : H) :
    execFunction ops cpool i ⟨pc', st, slots, heap⟩ n' =
      (execFunction ops cpool i ⟨pc, st, slots, heap⟩ n).map
        fun t => ⟨n', t.stack, t.slots, t.heap⟩ := by
  cases i with
  | base i =>
    have hi : i.straight = true := hs
    cases i
    case getField2 atom =>
      cases st with
      | nil => rfl
      | cons o st => simp [execFunction, Option.map_bind, Function.comp_def]
    case call count =>
      simp only [execFunction, execInvoke]
      split <;> simp_all [Option.map_bind, Function.comp_def]
    case callMethod count =>
      simp only [execFunction, execInvoke]
      split <;> simp_all [Option.map_bind, Function.comp_def]
    all_goals exact exec_map ops.toHeapOps cpool hi pc pc' n n' st slots heap
  | specialObject kind =>
    simp only [execFunction]
    split <;> rfl
  | getArrayEl2 =>
    rcases st with _ | ⟨k, _ | ⟨o, st⟩⟩
    · rfl
    · rfl
    · simp [execFunction, Option.map_bind, Function.comp_def]
  | arrayFrom count => simp [execFunction, Option.map_bind, Function.comp_def]

theorem execFunctionAll_runs {ops : CallOps H} {b : FunctionBytecode} {is : List FunctionInsn}
    (hs : ∀ i ∈ is, i.straight = true) {p q : Nat} (hcode : SpellsFunction b.code p is q)
    {s t : State H} (he : execFunctionAll ops b.cpool is s = some t) :
    Runs (stepFunction ops b) (fun u => p ≤ u.pc ∧ u.pc < q) ⟨p, s.stack, s.slots, s.heap⟩
      ⟨q, t.stack, t.slots, t.heap⟩ := by
  induction is generalizing p s with
  | nil =>
    cases hcode
    cases he
    exact .refl _
  | cons i is ih =>
    obtain ⟨next, hd, hrest⟩ := hcode
    obtain ⟨u, hu, hu'⟩ := Option.bind_eq_some_iff.mp he
    have hlt := decodeFunction_lt hd
    have hle := hrest.le
    have hfirst : stepFunction ops b ⟨p, s.stack, s.slots, s.heap⟩ =
        some ⟨next, u.stack, u.slots, u.heap⟩ := by
      rw [stepFunction_of_decode (s := ⟨p, s.stack, s.slots, s.heap⟩) hd,
        execFunction_map ops b.cpool (hs i (by simp)) s.pc p s.pc next, hu]
      rfl
    have htail := ih (fun j hj => hs j (by simp [hj])) hrest hu'
    refine .head ⟨Nat.le_refl p, by simp only; omega⟩ hfirst (htail.mono ?_)
    intro v hv
    omega

end TurboJS.Bytecode

namespace TurboJS.Bytecode
open Foundation

structure FunctionObject where
  bytecode : FunctionBytecode
  normal : Bool
  closureVarCount : Nat
  varRefCount : Nat
  varRefs : Nat → Option JSValue

def FunctionObject.enter (f : FunctionObject) (args : List JSValue) : State Unit where
  pc := 0
  stack := []
  slots := fun slot =>
    match slot.kind with
    | .argument => args[slot.index]?.getD .undefined
    | .local => .undefined
    | .varRef => (f.varRefs slot.index).getD .undefined
  heap := ()

def returned (b : FunctionBytecode) (s : State Unit) : Option JSValue :=
  match decode b.code s.pc, s.stack with
  | some (.plain .return, _), v :: _ => some v
  | _, _ => none

/-- A call by interpretation: at most `steps` instructions in each activation, at most the given
depth of activations. -/
def callFunction (functions : Nat → Option FunctionObject) (steps : Nat) :
    Nat → JSValue → List JSValue → Option JSValue
  | 0, _, _ => none
  | depth + 1, .object o, args => do
    let f ← functions o
    let ops := callsOnly (.object o) (callFunction functions steps depth)
    returned f.bytecode
      (advance (stepFunction ops f.bytecode) (fun _ => true) steps (f.enter args))
  | _ + 1, _, _ => none

variable {H : Type}

theorem advance_step {ops : CallOps H} {b : FunctionBytecode} {s t : State H}
    (h : stepFunction ops b s = some t) (n : Nat) :
    advance (stepFunction ops b) (fun _ => true) (n + 1) s =
      advance (stepFunction ops b) (fun _ => true) n t := by
  rw [advance, if_pos rfl, h]

theorem execFunctionAll_advance {ops : CallOps H} {b : FunctionBytecode} {is : List FunctionInsn}
    (hs : is.all FunctionInsn.straight = true) {p q : Nat} (hcode : SpellsFunction b.code p is q)
    {s t : State H} (he : execFunctionAll ops b.cpool is s = some t) (n : Nat) :
    advance (stepFunction ops b) (fun _ => true) (is.length + n) ⟨p, s.stack, s.slots, s.heap⟩ =
      advance (stepFunction ops b) (fun _ => true) n ⟨q, t.stack, t.slots, t.heap⟩ := by
  induction is generalizing p s with
  | nil =>
    cases hcode
    cases he
    rw [List.length_nil, Nat.zero_add]
  | cons i is ih =>
    rw [List.all_cons, Bool.and_eq_true] at hs
    obtain ⟨next, hd, hrest⟩ := hcode
    obtain ⟨u, hu, hu'⟩ := Option.bind_eq_some_iff.mp he
    have hfirst : stepFunction ops b ⟨p, s.stack, s.slots, s.heap⟩ =
        some ⟨next, u.stack, u.slots, u.heap⟩ := by
      rw [stepFunction_of_decode (s := ⟨p, s.stack, s.slots, s.heap⟩) hd,
        execFunction_map ops b.cpool hs.1 s.pc p s.pc next, hu]
      rfl
    rw [List.length_cons, Nat.add_right_comm, advance_step hfirst]
    exact ih hs.2 hrest hu'

theorem advance_return {ops : CallOps H} {b : FunctionBytecode} {s : State H} {next : Nat}
    (hd : decode b.code s.pc = some (.plain .return, next)) (n : Nat) :
    advance (stepFunction ops b) (fun _ => true) n s = s := by
  have hnone : stepFunction ops b s = none := by
    rw [stepFunction_of_decode (decodeFunction_base hd)]
    simp [execPlain]
  cases n with
  | zero => rfl
  | succ n => rw [advance, if_pos rfl, hnone]

end TurboJS.Bytecode
