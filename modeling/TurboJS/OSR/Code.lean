import TurboJS.OSR.Parse

namespace TurboJS.OSR
open Bytecode Foundation

/-! Loops over arrays: the parts that their detectors parse alike, and what the interpreter does
on them with any values in the slots. -/

def expectAll (b : FunctionBytecode) : List Insn → Nat → Option Nat
  | [], p => some p
  | i :: is, p => do
    let p ← expect b i p
    expectAll b is p

/-- `turbojs_parse_get_dense_slot` recognises the encodings of its scalar twin. -/
def parseGetDenseSlot (b : FunctionBytecode) (p : Nat) : Option (Slot × Nat) :=
  parseGetScalarSlot b p

def parsePutDenseSlot (b : FunctionBytecode) (p : Nat) (slot : Slot) : Option Nat :=
  parsePutScalarSlot b p slot

def parseGetDenseSlotOf (b : FunctionBytecode) (slot : Slot) (p : Nat) : Option Nat :=
  match parseGetDenseSlot b p with
  | some (slot', q) => if slot' = slot then some q else none
  | none => none

/-- `get_loc_check`. -/
def parseInduction (b : FunctionBytecode) (p : Nat) : Option (Nat × Nat) :=
  match decode b.code p with
  | some (.get ⟨.local, induction⟩ .check, q) => some (induction, q)
  | _ => none

/-- `if_false8`, with its target. -/
def parseIfFalse8 (b : FunctionBytecode) (p : Nat) : Option (Int × Nat) :=
  match decode b.code p with
  | some (.ifFalse target .w8, q) => some (target, q)
  | _ => none

/-- `i++`. -/
def increment (induction : Nat) : List Insn :=
  [.get ⟨.local, induction⟩ .check, .plain .postInc, .put ⟨.local, induction⟩ .check,
    .plain .drop]

section

variable {b : FunctionBytecode} {p q : Nat}

theorem expectAll_spells {is : List Insn} (h : expectAll b is p = some q) :
    Spells b.code p is q := by
  induction is generalizing p with
  | nil =>
    cases h
    rfl
  | cons i is ih =>
    obtain ⟨next, hd, hrest⟩ := Option.bind_eq_some_iff.mp h
    exact ⟨next, expect_decode hd, ih hrest⟩

theorem parseGetDenseSlot_spells {slot : Slot} (h : parseGetDenseSlot b p = some (slot, q)) :
    ∃ form, Spells b.code p [.get slot form] q := by
  obtain ⟨form, hd⟩ := parseGetScalarSlot_decode h
  exact ⟨form, .single hd⟩

theorem parseGetDenseSlotOf_spells {slot : Slot} (h : parseGetDenseSlotOf b slot p = some q) :
    ∃ form, Spells b.code p [.get slot form] q := by
  unfold parseGetDenseSlotOf at h
  split at h
  · rename_i slot' q' hp
    split at h
    · rename_i hs
      cases h
      rw [← hs]
      exact parseGetDenseSlot_spells hp
    · cases h
  · cases h

theorem parsePutDenseSlot_spells {slot : Slot} (h : parsePutDenseSlot b p slot = some q) :
    ∃ form, Spells b.code p [.put slot form] q := by
  obtain ⟨form, hd⟩ := parsePutScalarSlot_decode h
  exact ⟨form, .single hd⟩

theorem parseInduction_spells {induction : Nat} (h : parseInduction b p = some (induction, q)) :
    Spells b.code p [.get ⟨.local, induction⟩ .check] q := by
  unfold parseInduction at h
  split at h
  · rename_i hd
    cases h
    exact .single hd
  · cases h

theorem parseIfFalse8_decode {target : Int} (h : parseIfFalse8 b p = some (target, q)) :
    decode b.code p = some (.ifFalse target .w8, q) := by
  unfold parseIfFalse8 at h
  split at h
  · rename_i hd
    cases h
    exact hd
  · cases h

end

section

variable {H : Type} {ops : HeapOps H} {b : FunctionBytecode} {p q : Nat} {st : List JSValue}
  {slots : Slot → JSValue} {h : H}

theorem segment_execAll {is : List Insn} (hs : is.all Insn.straight = true)
    (hcode : Spells b.code p is q) {st' : List JSValue} {slots' : Slot → JSValue} {h' : H}
    {n m : Nat} (he : execAll ops b.cpool is ⟨n, st, slots, h⟩ = some ⟨m, st', slots', h'⟩) :
    Segment ops b p q ⟨p, st, slots, h⟩ ⟨q, st', slots', h'⟩ :=
  execAll_runs (List.all_eq_true.mp hs) hcode he

theorem segment_store {slot : Slot} {form : Form} {v : JSValue}
    (hcode : Spells b.code p [.plain .dup, .put slot form, .plain .drop] q)
    (hv : slots slot ≠ .uninitialized) :
    Segment ops b p q ⟨p, v :: st, slots, h⟩ ⟨q, st, Function.update slots slot v, h⟩ := by
  refine segment_execAll rfl hcode (n := 0) (m := 0) ?_
  simp [execAll, hv]

theorem segment_increment {induction : Nat} {n : Int}
    (hcode : Spells b.code p (increment induction) q)
    (hv : slots ⟨.local, induction⟩ = .number n) :
    Segment ops b p q ⟨p, st, slots, h⟩
      ⟨q, st, Function.update slots ⟨.local, induction⟩ (.number (n + 1)), h⟩ := by
  refine segment_execAll rfl hcode (n := 0) (m := 0) ?_
  simp [increment, execAll, State.push, hv]

theorem segment_branchFalse {target : Int} {width : Width} {v : JSValue} {c : Bool}
    (ht : 0 ≤ target) (hv : truthy v = some c)
    (hd : decode b.code p = some (.ifFalse target width, q)) :
    Segment ops b p q ⟨p, v :: st, slots, h⟩
      ⟨if c then q else target.toNat, st, slots, h⟩ := by
  refine Segment.insn (s := ⟨p, v :: st, slots, h⟩) hd ?_
  cases c <;> simp [exec, hv, jump, ht]

theorem segment_branchTrue_not {target : Int} {width : Width} {v : JSValue}
    (hv : truthy v = some false) (hd : decode b.code p = some (.ifTrue target width, q)) :
    Segment ops b p q ⟨p, v :: st, slots, h⟩ ⟨q, st, slots, h⟩ := by
  refine Segment.insn (s := ⟨p, v :: st, slots, h⟩) hd ?_
  simp [exec, hv]

theorem segment_backEdge {target : Nat} {width : Width}
    (hd : decode b.code p = some (.goto target width, q)) :
    Segment ops b p (p + 1) ⟨p, st, slots, h⟩ ⟨target, st, slots, h⟩ := by
  refine Runs.one ⟨Nat.le_refl p, Nat.lt_succ_self p⟩ ?_
  rw [step_of_decode (s := ⟨p, st, slots, h⟩) hd]
  simp [exec, jump]

end

end TurboJS.OSR
