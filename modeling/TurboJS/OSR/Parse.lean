import TurboJS.Bytecode.Interpreter

namespace TurboJS.OSR
open Bytecode Foundation

/-! Parsing of loop bytecode, and what the interpreter does on the code that was parsed. -/

/-- The encodings that `turbojs_parse_get_scalar_slot` and its put twin recognise. -/
def scalarForm : SlotKind → Form → Bool
  | .varRef, .check | .varRef, .short => true
  | .local, .long | .local, .check | .local, .short => true
  | .argument, .long | .argument, .short => true
  | _, _ => false

def parseGetScalarSlot (b : FunctionBytecode) (p : Nat) : Option (Slot × Nat) :=
  match decode b.code p with
  | some (.get slot form, q) => if scalarForm slot.kind form then some (slot, q) else none
  | _ => none

def parsePutScalarSlot (b : FunctionBytecode) (p : Nat) (slot : Slot) : Option Nat :=
  match decode b.code p with
  | some (.put slot' form, q) =>
    if scalarForm slot'.kind form ∧ slot' = slot then some q else none
  | _ => none

/-- A constant push. A number of the constant pool that is no integer fails here; in the
source it fails the caller's range test, with the same outcome. -/
def scalarConst (b : FunctionBytecode) (p : Nat) : Option (Int × Nat) :=
  match decode b.code p with
  | some (.pushShort n, q) => some (n, q)
  | some (.pushInt n _, q) => some (n, q)
  | some (.pushConst index, q) =>
    match b.cpool[index]? with
    | some (.number n) => some (n, q)
    | _ => none
  | _ => none

/-- A constant push with a value between `lo` and `hi`. -/
def scalarConstIn (lo hi : Int) (b : FunctionBytecode) (p : Nat) : Option (Int × Nat) :=
  match scalarConst b p with
  | some (n, q) => if lo ≤ n ∧ n ≤ hi then some (n, q) else none
  | none => none

/-- `turbojs_parse_branch_target` for `if_false`. -/
def parseBranchTarget (b : FunctionBytecode) (p : Nat) : Option (Int × Nat) :=
  match decode b.code p with
  | some (.ifFalse target _, q) => if target ≤ b.code.length then some (target, q) else none
  | _ => none

def parseGotoTarget (b : FunctionBytecode) (p : Nat) : Option (Int × Nat) :=
  match decode b.code p with
  | some (.goto target _, q) => if target ≤ b.code.length then some (target, q) else none
  | _ => none

def expect (b : FunctionBytecode) (insn : Insn) (p : Nat) : Option Nat :=
  match decode b.code p with
  | some (i, q) => if i = insn then some q else none
  | none => none

/-- `get_loc_check` of the induction variable. -/
def expectInduction (b : FunctionBytecode) (induction p : Nat) : Option Nat :=
  expect b (.get ⟨.local, induction⟩ .check) p

section

variable {b : FunctionBytecode} {p q : Nat}

theorem parseGetScalarSlot_decode {slot : Slot} (h : parseGetScalarSlot b p = some (slot, q)) :
    ∃ form, decode b.code p = some (.get slot form, q) := by
  unfold parseGetScalarSlot at h
  split at h
  · rename_i slot' form q' hd
    split at h
    · simp only [Option.some.injEq, Prod.mk.injEq] at h
      obtain ⟨rfl, rfl⟩ := h
      exact ⟨form, hd⟩
    · cases h
  · cases h

theorem parsePutScalarSlot_decode {slot : Slot} (h : parsePutScalarSlot b p slot = some q) :
    ∃ form, decode b.code p = some (.put slot form, q) := by
  unfold parsePutScalarSlot at h
  split at h
  · rename_i slot' form q' hd
    split at h
    · rename_i hs
      simp only [Option.some.injEq] at h
      obtain ⟨-, rfl⟩ := hs
      subst h
      exact ⟨form, hd⟩
    · cases h
  · cases h

theorem expect_decode {insn : Insn} (h : expect b insn p = some q) :
    decode b.code p = some (insn, q) := by
  unfold expect at h
  split at h
  · rename_i i q' hd
    split at h
    · rename_i hi
      simp only [Option.some.injEq] at h
      rw [hd, hi, h]
    · cases h
  · cases h

theorem parseBranchTarget_decode {target : Int} (h : parseBranchTarget b p = some (target, q)) :
    ∃ width, decode b.code p = some (.ifFalse target width, q) := by
  unfold parseBranchTarget at h
  split at h
  · rename_i t width q' hd
    split at h
    · simp only [Option.some.injEq, Prod.mk.injEq] at h
      obtain ⟨rfl, rfl⟩ := h
      exact ⟨width, hd⟩
    · cases h
  · cases h

theorem parseGotoTarget_decode {target : Int} (h : parseGotoTarget b p = some (target, q)) :
    ∃ width, decode b.code p = some (.goto target width, q) := by
  unfold parseGotoTarget at h
  split at h
  · rename_i t width q' hd
    split at h
    · simp only [Option.some.injEq, Prod.mk.injEq] at h
      obtain ⟨rfl, rfl⟩ := h
      exact ⟨width, hd⟩
    · cases h
  · cases h

theorem scalarConstIn_spec {lo hi n : Int} (h : scalarConstIn lo hi b p = some (n, q)) :
    scalarConst b p = some (n, q) ∧ lo ≤ n ∧ n ≤ hi := by
  unfold scalarConstIn at h
  split at h
  · rename_i m q' hc
    split at h
    · rename_i hr
      simp only [Option.some.injEq, Prod.mk.injEq] at h
      obtain ⟨rfl, rfl⟩ := h
      exact ⟨hc, hr⟩
    · cases h
  · cases h

end

variable {H : Type}

/-- A run of the interpreter that leaves only states with their program counter in
`[lo, hi)`. -/
def Segment (ops : HeapOps H) (b : FunctionBytecode) (lo hi : Nat) (s t : State H) : Prop :=
  Runs (step ops b) (fun u => lo ≤ u.pc ∧ u.pc < hi) s t

section

variable {ops : HeapOps H} {b : FunctionBytecode} {lo mid hi p q : Nat} {s t u : State H}

theorem Segment.widen (hlo : lo ≤ p) (hhi : q ≤ hi) (h : Segment ops b p q s t) :
    Segment ops b lo hi s t := by
  refine Runs.mono ?_ h
  intro v hv
  omega

theorem Segment.trans (h : Segment ops b lo hi s t) (h' : Segment ops b lo hi t u) :
    Segment ops b lo hi s u :=
  Runs.trans h h'

theorem Segment.append (h : Segment ops b lo mid s t) (h' : Segment ops b mid hi t u)
    (hlo : lo ≤ mid) (hhi : mid ≤ hi) : Segment ops b lo hi s u :=
  (h.widen (Nat.le_refl lo) hhi).trans (h'.widen hlo (Nat.le_refl hi))

theorem Segment.insn {i : Insn} (hd : decode b.code s.pc = some (i, q))
    (he : exec ops b.cpool i s q = some t) : Segment ops b s.pc q s t := by
  refine Runs.one ⟨Nat.le_refl _, decode_lt hd⟩ ?_
  rw [step_of_decode hd, he]

end

def int32Frame (w : Slot → BitVec 32) : Slot → JSValue := fun slot => ofBits (w slot)

/-- The interpreter at offset `pc` on such a frame. -/
def onFrame (pc : Nat) (stack : List JSValue) (w : Slot → BitVec 32) (heap : H) : State H :=
  ⟨pc, stack, int32Frame w, heap⟩

@[simp] theorem onFrame_pc (pc : Nat) (stack : List JSValue) (w : Slot → BitVec 32) (heap : H) :
    (onFrame pc stack w heap).pc = pc := rfl

@[simp] theorem onFrame_slots (pc : Nat) (stack : List JSValue) (w : Slot → BitVec 32) (heap : H) :
    (onFrame pc stack w heap).slots = int32Frame w := rfl

theorem toBits_toInt (x : BitVec 32) : toBits x.toInt = x := BitVec.ofInt_toInt

theorem toBits_add (m n : Int) : toBits (m + n) = toBits m + toBits n := BitVec.ofInt_add m n

theorem toBits_sub (m n : Int) : toBits (m - n) = toBits m - toBits n := by
  rw [Int.sub_eq_add_neg, toBits_add, BitVec.sub_eq_add_neg]
  congr 1
  exact BitVec.ofInt_neg

theorem toInt_bounds (x : BitVec 32) : int32Min ≤ x.toInt ∧ x.toInt ≤ int32Max := by
  have h1 := BitVec.toInt_lt (x := x)
  have h2 := BitVec.le_toInt x
  simp only [int32Min, int32Max]
  omega

theorem intValue_ofBits (x : BitVec 32) : intValue (ofBits x) = some x.toInt := by
  simp only [intValue, ofBits]
  rw [if_pos (toInt_bounds x)]

theorem toInt_toBits {n : Int} (h : int32Min ≤ n ∧ n ≤ int32Max) : (toBits n).toInt = n := by
  simp only [int32Min, int32Max] at h
  rw [toBits, BitVec.toInt_ofInt, Int.bmod_eq_of_le] <;> simp <;> omega

theorem ofBits_toBits {n : Int} (h : int32Min ≤ n ∧ n ≤ int32Max) :
    ofBits (toBits n) = .number n := by
  rw [ofBits, toInt_toBits h]

theorem int32Frame_update (w : Slot → BitVec 32) (slot : Slot) (x : BitVec 32) :
    Function.update (int32Frame w) slot (ofBits x) = int32Frame (Function.update w slot x) := by
  funext s
  by_cases hs : s = slot
  · subst hs
    simp [int32Frame]
  · simp [int32Frame, Function.update_of_ne hs]

theorem ofBits_injective {x y : BitVec 32} (h : ofBits x = ofBits y) : x = y := by
  simp only [ofBits, JSValue.number.injEq] at h
  exact BitVec.eq_of_toInt_eq h

section

variable {ops : HeapOps H} {b : FunctionBytecode} {p q : Nat} {st : List JSValue}
  {w : Slot → BitVec 32} {h : H}

theorem segment_get {slot : Slot} {form : Form} (hd : decode b.code p = some (.get slot form, q)) :
    Segment ops b p q (onFrame p st w h) (onFrame q (ofBits (w slot) :: st) w h) := by
  refine Segment.insn (s := onFrame p st w h) hd ?_
  simp [exec, onFrame, int32Frame, ofBits, State.push]

theorem segment_put {slot : Slot} {form : Form} {x : BitVec 32}
    (hd : decode b.code p = some (.put slot form, q)) :
    Segment ops b p q (onFrame p (ofBits x :: st) w h)
      (onFrame q st (Function.update w slot x) h) := by
  refine Segment.insn (s := onFrame p (ofBits x :: st) w h) hd ?_
  simp only [exec, onFrame, State.setSlot, int32Frame_update]
  rw [if_neg]
  rintro ⟨-, hu⟩
  cases hu

theorem segment_plain {op : Plain} {st' : List JSValue}
    (hd : decode b.code p = some (.plain op, q))
    (he : execPlain ops op (onFrame p st w h) q = some (onFrame q st' w h)) :
    Segment ops b p q (onFrame p st w h) (onFrame q st' w h) :=
  Segment.insn (s := onFrame p st w h) hd he

theorem segment_numeric {op : Plain} {m n : Int} {v : JSValue}
    (hop : op ∈ [Plain.add, .sub, .and, .or, .lt, .lte, .gt, .gte, .eq, .neq])
    (hd : decode b.code p = some (.plain op, q)) (hv : numeric op m n = some v) :
    Segment ops b p q (onFrame p (.number n :: .number m :: st) w h)
      (onFrame q (v :: st) w h) := by
  refine segment_plain hd ?_
  simp only [List.mem_cons, List.not_mem_nil, or_false] at hop
  rcases hop with rfl | rfl | rfl | rfl | rfl | rfl | rfl | rfl | rfl | rfl <;>
    simp [onFrame, hv]

theorem segment_strictEq {m n : Int} (hd : decode b.code p = some (.plain .strictEq, q)) :
    Segment ops b p q (onFrame p (.number n :: .number m :: st) w h)
      (onFrame q (.bool (m = n) :: st) w h) := by
  refine segment_plain hd ?_
  simp [onFrame, binary]

theorem segment_strictNeq {m n : Int} (hd : decode b.code p = some (.plain .strictNeq, q)) :
    Segment ops b p q (onFrame p (.number n :: .number m :: st) w h)
      (onFrame q (.bool (m ≠ n) :: st) w h) := by
  refine segment_plain hd ?_
  simp [onFrame, binary]

theorem segment_const {n : Int} (hc : scalarConst b p = some (n, q)) :
    Segment ops b p q (onFrame p st w h) (onFrame q (.number n :: st) w h) := by
  unfold scalarConst at hc
  split at hc
  · rename_i m q' hd
    simp only [Option.some.injEq, Prod.mk.injEq] at hc
    obtain ⟨rfl, rfl⟩ := hc
    exact Segment.insn (s := onFrame p st w h) hd rfl
  · rename_i m width q' hd
    simp only [Option.some.injEq, Prod.mk.injEq] at hc
    obtain ⟨rfl, rfl⟩ := hc
    exact Segment.insn (s := onFrame p st w h) hd rfl
  · rename_i index q' hd
    split at hc
    · rename_i m hm
      simp only [Option.some.injEq, Prod.mk.injEq] at hc
      obtain ⟨rfl, rfl⟩ := hc
      refine Segment.insn (s := onFrame p st w h) hd ?_
      simp [exec, hm, State.push, onFrame]
    · cases hc
  · cases hc

theorem scalarConst_lt {n : Int} (hc : scalarConst b p = some (n, q)) : p < q := by
  unfold scalarConst at hc
  split at hc
  · rename_i m q' hd
    simp only [Option.some.injEq, Prod.mk.injEq] at hc
    obtain ⟨-, rfl⟩ := hc
    exact decode_lt hd
  · rename_i m width q' hd
    simp only [Option.some.injEq, Prod.mk.injEq] at hc
    obtain ⟨-, rfl⟩ := hc
    exact decode_lt hd
  · rename_i index q' hd
    split at hc
    · simp only [Option.some.injEq, Prod.mk.injEq] at hc
      obtain ⟨-, rfl⟩ := hc
      exact decode_lt hd
    · cases hc
  · cases hc

theorem segment_ifFalse {target : Int} {width : Width} {v : JSValue} {c : Bool} (ht : 0 ≤ target)
    (hv : truthy v = some c) (hd : decode b.code p = some (.ifFalse target width, q)) :
    Segment ops b p q (onFrame p (v :: st) w h)
      (onFrame (if c then q else target.toNat) st w h) := by
  refine Segment.insn (s := onFrame p (v :: st) w h) hd ?_
  cases c <;> simp [exec, onFrame, hv, jump, ht]

theorem segment_goto {target : Int} {width : Width} (ht : 0 ≤ target)
    (hd : decode b.code p = some (.goto target width, q)) :
    Segment ops b p q (onFrame p st w h) (onFrame target.toNat st w h) := by
  refine Segment.insn (s := onFrame p st w h) hd ?_
  simp [exec, onFrame, jump, ht]

end

end TurboJS.OSR

namespace TurboJS.OSR
open Bytecode

structure OSRFrame where
  locals : Nat → JSValue
  slots : Slot → JSValue

def uint16Max : Nat := 65535

def localCount (b : FunctionBytecode) : Nat := b.argCount + b.varCount

/-- The index of a local in the captured frame, a `uint16_t` whose greatest value marks a
slot that is no local. -/
def frameLocal (b : FunctionBytecode) (slot : Slot) : Nat :=
  if slot.kind = .local then (b.argCount + slot.index) % 65536 else uint16Max

def captureFrame (b : FunctionBytecode) (slots : Slot → JSValue) : OSRFrame :=
  ⟨fun k => if k < b.argCount then slots ⟨.argument, k⟩ else slots ⟨.local, k - b.argCount⟩,
    slots⟩

def OSRFrame.storeValue (b : FunctionBytecode) (f : OSRFrame) (slot : Slot) (v : JSValue) :
    Option OSRFrame :=
  if frameLocal b slot ≠ uint16Max then
    if frameLocal b slot ≥ localCount b then none
    else some { f with locals := Function.update f.locals (frameLocal b slot) v }
  else some { f with slots := Function.update f.slots slot v }

/-- The write-back of `turbojs_observe_osr_backedge`: every local from the frame. -/
def OSRFrame.writeBack (b : FunctionBytecode) (f : OSRFrame) : Slot → JSValue
  | ⟨.local, l⟩ => if l < b.varCount then f.locals (b.argCount + l) else f.slots ⟨.local, l⟩
  | slot => f.slots slot

variable {b : FunctionBytecode}

def FrameIndexed (b : FunctionBytecode) (slot : Slot) : Prop :=
  slot.kind = .local → b.argCount + slot.index < uint16Max

instance (b : FunctionBytecode) (slot : Slot) : Decidable (FrameIndexed b slot) :=
  inferInstanceAs (Decidable (_ → _))

theorem frameLocal_local {l : Nat} (h : FrameIndexed b ⟨.local, l⟩) :
    frameLocal b ⟨.local, l⟩ = b.argCount + l := by
  have h := h rfl
  simp only [uint16Max] at h
  simp only [frameLocal, if_true]
  omega

/-- The frame `f` stands for the slots: the captured locals where there are some, else the
slots behind the pointers. -/
structure Holds (b : FunctionBytecode) (f : OSRFrame) (slots : Slot → JSValue) : Prop where
  locals : ∀ l, l < b.varCount → f.locals (b.argCount + l) = slots ⟨.local, l⟩
  others : ∀ slot, (slot.kind = .local → b.varCount ≤ slot.index) → f.slots slot = slots slot

section

variable {f f' : OSRFrame} {slots : Slot → JSValue}

theorem captureFrame_holds (slots : Slot → JSValue) : Holds b (captureFrame b slots) slots where
  locals := by
    intro l _
    have hl : ¬ b.argCount + l < b.argCount := by omega
    simp [captureFrame, hl]
  others := by
    intro slot _
    rfl

theorem Holds.update_local (hm : Holds b f slots) (l : Nat) (hl : l < b.varCount) (v : JSValue) :
    Holds b { f with locals := Function.update f.locals (b.argCount + l) v }
      (Function.update slots ⟨.local, l⟩ v) where
  locals := by
    intro l' hl'
    by_cases he : l' = l
    · subst he
      simp
    · have hslot : (⟨.local, l'⟩ : Slot) ≠ ⟨.local, l⟩ := by simpa using he
      have hindex : b.argCount + l' ≠ b.argCount + l := by omega
      simp only [Function.update_of_ne hslot, Function.update_of_ne hindex]
      exact hm.locals l' hl'
  others := by
    intro slot hs
    rw [Function.update_of_ne]
    · exact hm.others slot hs
    · rintro rfl
      have := hs rfl
      simp only at this
      omega

theorem Holds.update_other (hm : Holds b f slots) {slot : Slot} (hk : slot.kind ≠ .local)
    (v : JSValue) :
    Holds b { f with slots := Function.update f.slots slot v }
      (Function.update slots slot v) where
  locals := by
    intro l hl
    rw [Function.update_of_ne]
    · exact hm.locals l hl
    · rintro rfl
      exact hk rfl
  others := by
    intro slot' hs
    by_cases he : slot' = slot
    · subst he
      simp
    · simp only [Function.update_of_ne he]
      exact hm.others slot' hs

theorem Holds.store (hm : Holds b f slots) {slot : Slot} (hi : FrameIndexed b slot) {v : JSValue}
    (hs : f.storeValue b slot v = some f') : Holds b f' (Function.update slots slot v) := by
  obtain ⟨kind, l⟩ := slot
  cases kind
  case «local» =>
    have hidx := frameLocal_local hi
    have hlt := hi rfl
    simp only [OSRFrame.storeValue, hidx, localCount] at hs
    rw [if_pos (by simp only at hlt; omega)] at hs
    split at hs
    · cases hs
    · rename_i hb
      simp only [Option.some.injEq] at hs
      subst hs
      exact hm.update_local l (by omega) v
  all_goals
    simp only [OSRFrame.storeValue, frameLocal] at hs
    rw [if_neg (by simp)] at hs
    simp only [Option.some.injEq] at hs
    subst hs
    exact hm.update_other (by simp) v

theorem Holds.writeBack (hm : Holds b f slots) : f.writeBack b = slots := by
  funext slot
  obtain ⟨kind, l⟩ := slot
  cases kind
  case «local» =>
    simp only [OSRFrame.writeBack]
    split
    · rename_i hl
      exact hm.locals l hl
    · rename_i hl
      exact hm.others ⟨.local, l⟩ fun _ => Nat.le_of_not_lt hl
  all_goals exact hm.others _ (by simp)

end

end TurboJS.OSR
