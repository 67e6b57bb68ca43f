import TurboJS.OSR.ScalarLoop

namespace TurboJS.OSR
open Bytecode Foundation

/-! What the interpreter does on the parts of a detected loop. -/

variable {H : Type} (ops : HeapOps H) {b : FunctionBytecode}

/-- A part of the code that turns a frame into `f` of it. Values may stay behind on the
stack. -/
def Implements (ops : HeapOps H) (b : FunctionBytecode) (lo hi : Nat)
    (f : (Slot → BitVec 32) → Slot → BitVec 32) : Prop :=
  lo ≤ hi ∧ ∀ (st : List JSValue) (w : Slot → BitVec 32) (h : H), ∃ st',
    Segment ops b lo hi (onFrame lo st w h) (onFrame hi st' (f w) h)

variable {ops} in
theorem Implements.refl (lo : Nat) : Implements ops b lo lo id :=
  ⟨Nat.le_refl lo, fun st _ _ => ⟨st, .refl _⟩⟩

variable {ops} in
theorem Implements.append {lo mid hi : Nat} {f g : (Slot → BitVec 32) → Slot → BitVec 32}
    (hf : Implements ops b lo mid f) (hg : Implements ops b mid hi g) :
    Implements ops b lo hi (g ∘ f) := by
  refine ⟨Nat.le_trans hf.1 hg.1, ?_⟩
  intro st w h
  obtain ⟨st', hs⟩ := hf.2 st w h
  obtain ⟨st'', ht⟩ := hg.2 st' (f w) h
  exact ⟨st'', hs.append ht hf.1 hg.1⟩

def frameLimit (limit : Int) (limitSlot : Option Slot) (w : Slot → BitVec 32) : Int :=
  match limitSlot with
  | none => limit
  | some slot => (w slot).toInt

theorem parseLimit_segment {p q : Nat} {limit : Int} {limitSlot : Option Slot}
    (hp : parseLimit b p = some (limit, limitSlot, q)) :
    p < q ∧ limit ≤ int32Max ∧ ∀ (st : List JSValue) (w : Slot → BitVec 32) (h : H),
      Segment ops b p q (onFrame p st w h)
        (onFrame q (.number (frameLimit limit limitSlot w) :: st) w h) := by
  unfold parseLimit at hp
  split at hp
  · rename_i n q' hc
    simp only [Option.some.injEq, Prod.mk.injEq] at hp
    obtain ⟨rfl, rfl, rfl⟩ := hp
    obtain ⟨hc, -, hn⟩ := scalarConstIn_spec hc
    exact ⟨scalarConst_lt hc, hn, fun st w h => segment_const hc⟩
  · obtain ⟨⟨slot, q'⟩, hg, he⟩ := Option.map_eq_some_iff.mp hp
    simp only [Prod.mk.injEq] at he
    obtain ⟨rfl, rfl, rfl⟩ := he
    obtain ⟨form, hd⟩ := parseGetScalarSlot_decode hg
    exact ⟨decode_lt hd, by decide, fun st w h => segment_get hd⟩

theorem parseHeader_segment {p : Nat} {header : LoopHeader} (hp : parseHeader b p = some header)
    (hr : 0 ≤ header.resume) :
    p < header.body ∧ header.limit ≤ int32Max ∧
      ∀ (st : List JSValue) (w : Slot → BitVec 32) (h : H),
        Segment ops b p header.body (onFrame p st w h)
          (onFrame (if (w ⟨.local, header.induction⟩).toInt <
              frameLimit header.limit header.limitSlot w
            then header.body else header.resume.toNat) st w h) := by
  unfold parseHeader at hp
  split at hp
  · rename_i induction p1 hd
    simp only [Option.bind_eq_bind, Option.bind_eq_some_iff] at hp
    obtain ⟨⟨limit, limitSlot, p2⟩, hl, p3, hlt, ⟨resume, p4⟩, hbr, he⟩ := hp
    simp only [Option.some.injEq] at he
    subst he
    obtain ⟨h2, hlim, hs2⟩ := parseLimit_segment ops hl
    obtain ⟨width, hbr⟩ := parseBranchTarget_decode hbr
    have hlt := expect_decode hlt
    have h1 := decode_lt hd
    have h3 := decode_lt hlt
    have h4 := decode_lt hbr
    simp only at hr h2 h3 hlim ⊢
    refine ⟨by omega, hlim, ?_⟩
    intro st w h
    have hs1 : Segment ops b p p1 (onFrame p st w h)
        (onFrame p1 (ofBits (w ⟨.local, induction⟩) :: st) w h) := segment_get hd
    have hs3 : Segment ops b p2 p3
        (onFrame p2 (.number (frameLimit limit limitSlot w) ::
          ofBits (w ⟨.local, induction⟩) :: st) w h)
        (onFrame p3 (.bool ((w ⟨.local, induction⟩).toInt < frameLimit limit limitSlot w) :: st)
          w h) := segment_numeric (by decide) hlt rfl
    have hs4 : Segment ops b p3 p4
        (onFrame p3 (.bool ((w ⟨.local, induction⟩).toInt < frameLimit limit limitSlot w) :: st)
          w h) _ := segment_ifFalse hr rfl hbr
    have h12 := hs1.append (hs2 _ w h) (by omega) (by omega)
    have h13 := h12.append hs3 (by omega) (by omega)
    simpa using h13.append hs4 (by omega) (by omega)
  · cases hp

def bump (induction : Nat) (w : Slot → BitVec 32) : Slot → BitVec 32 :=
  Function.update w ⟨.local, induction⟩ (w ⟨.local, induction⟩ + 1)

theorem toInt_succ {x : BitVec 32} (hx : x.toInt < int32Max) : (x + 1).toInt = x.toInt + 1 := by
  have h1 := BitVec.le_toInt x
  simp only [int32Max] at hx
  rw [BitVec.toInt_add, Int.bmod_eq_of_le] <;> simp <;> omega

theorem parseTail_segment {induction target source p : Nat}
    (hp : parseTail b induction target source p = some ()) :
    p ≤ source ∧ ∀ (st : List JSValue) (w : Slot → BitVec 32) (h : H),
      (w ⟨.local, induction⟩).toInt < int32Max →
      Segment ops b p (source + 1) (onFrame p st w h)
        (onFrame target st (bump induction w) h) := by
  simp only [parseTail, Option.bind_eq_bind, Option.bind_eq_some_iff] at hp
  obtain ⟨p1, hget, p2, hinc, p3, hput, p4, hdrop, ⟨backedge, p5⟩, hgoto, hif⟩ := hp
  split at hif
  · rename_i hsrc
    obtain ⟨rfl, rfl⟩ := hsrc
    have hget := expect_decode hget
    have hinc := expect_decode hinc
    have hput := expect_decode hput
    have hdrop := expect_decode hdrop
    obtain ⟨width, hgoto⟩ := parseGotoTarget_decode hgoto
    have h1 := decode_lt hget
    have h2 := decode_lt hinc
    have h3 := decode_lt hput
    have h4 := decode_lt hdrop
    refine ⟨by omega, ?_⟩
    intro st w h hlt
    have hs1 : Segment ops b p p1 (onFrame p st w h)
        (onFrame p1 (ofBits (w ⟨.local, induction⟩) :: st) w h) := segment_get hget
    have hs2 : Segment ops b p1 p2
        (onFrame p1 (ofBits (w ⟨.local, induction⟩) :: st) w h)
        (onFrame p2 (ofBits (w ⟨.local, induction⟩ + 1) :: ofBits (w ⟨.local, induction⟩) :: st)
          w h) := by
      refine segment_plain hinc ?_
      simp only [execPlain, onFrame, ofBits, toInt_succ hlt]
    have hs3 : Segment ops b p2 p3
        (onFrame p2 (ofBits (w ⟨.local, induction⟩ + 1) :: ofBits (w ⟨.local, induction⟩) :: st)
          w h)
        (onFrame p3 (ofBits (w ⟨.local, induction⟩) :: st) (bump induction w) h) :=
      segment_put hput
    have hs4 : Segment ops b p3 p4
        (onFrame p3 (ofBits (w ⟨.local, induction⟩) :: st) (bump induction w) h)
        (onFrame p4 st (bump induction w) h) := segment_plain hdrop rfl
    have hs5 : Segment ops b p4 (p4 + 1) (onFrame p4 st (bump induction w) h)
        (onFrame target st (bump induction w) h) := by
      refine Runs.one ⟨Nat.le_refl p4, Nat.lt_succ_self p4⟩ ?_
      rw [step_of_decode (s := onFrame p4 st (bump induction w) h) hgoto]
      simp [exec, onFrame, jump]
    have h12 := hs1.append hs2 (by omega) (by omega)
    have h13 := h12.append hs3 (by omega) (by omega)
    have h14 := h13.append hs4 (by omega) (by omega)
    exact h14.append hs5 (by omega) (by omega)
  · cases hif

theorem parseStore_segment {slot : Slot} {p q : Nat} (hp : parseStore b slot p = some q) :
    p < q ∧ ∀ (m : Int) (st : List JSValue) (w : Slot → BitVec 32) (h : H),
      Segment ops b p q (onFrame p (.number m :: st) w h)
        (onFrame q st (Function.update w slot (toBits m)) h) := by
  simp only [parseStore, Option.bind_eq_bind, Option.bind_eq_some_iff] at hp
  obtain ⟨p1, hzero, p2, hor, p3, hdup, p4, hput, hdrop⟩ := hp
  have hzero := expect_decode hzero
  have hor := expect_decode hor
  have hdup := expect_decode hdup
  obtain ⟨form, hput⟩ := parsePutScalarSlot_decode hput
  have hdrop := expect_decode hdrop
  have h1 := decode_lt hzero
  have h2 := decode_lt hor
  have h3 := decode_lt hdup
  have h4 := decode_lt hput
  have h5 := decode_lt hdrop
  refine ⟨by omega, ?_⟩
  intro m st w h
  have hs1 : Segment ops b p p1 (onFrame p (.number m :: st) w h)
      (onFrame p1 (.number 0 :: .number m :: st) w h) :=
    Segment.insn (s := onFrame p (.number m :: st) w h) hzero rfl
  have hs2 : Segment ops b p1 p2 (onFrame p1 (.number 0 :: .number m :: st) w h)
      (onFrame p2 (ofBits (toBits m) :: st) w h) := by
    refine segment_numeric (by decide) hor ?_
    simp [numeric, toBits]
  have hs3 : Segment ops b p2 p3 (onFrame p2 (ofBits (toBits m) :: st) w h)
      (onFrame p3 (ofBits (toBits m) :: ofBits (toBits m) :: st) w h) :=
    segment_plain hdup rfl
  have hs4 : Segment ops b p3 p4 (onFrame p3 (ofBits (toBits m) :: ofBits (toBits m) :: st) w h)
      (onFrame p4 (ofBits (toBits m) :: st) (Function.update w slot (toBits m)) h) :=
    segment_put hput
  have hs5 : Segment ops b p4 q
      (onFrame p4 (ofBits (toBits m) :: st) (Function.update w slot (toBits m)) h)
      (onFrame q st (Function.update w slot (toBits m)) h) := segment_plain hdrop rfl
  have h12 := hs1.append hs2 (by omega) (by omega)
  have h13 := h12.append hs3 (by omega) (by omega)
  have h14 := h13.append hs4 (by omega) (by omega)
  exact h14.append hs5 (by omega) (by omega)

theorem parseAddSub_segment {p q : Nat} {subtract : Bool}
    (hp : parseAddSub b p = some (subtract, q)) :
    p < q ∧ ∀ (m n : Int) (st : List JSValue) (w : Slot → BitVec 32) (h : H),
      Segment ops b p q (onFrame p (.number n :: .number m :: st) w h)
        (onFrame q (.number (if subtract then m - n else m + n) :: st) w h) := by
  unfold parseAddSub at hp
  split at hp
  · rename_i q' hd
    simp only [Option.some.injEq, Prod.mk.injEq] at hp
    obtain ⟨rfl, rfl⟩ := hp
    exact ⟨decode_lt hd, fun m n st w h => segment_numeric (by decide) hd rfl⟩
  · rename_i q' hd
    simp only [Option.some.injEq, Prod.mk.injEq] at hp
    obtain ⟨rfl, rfl⟩ := hp
    exact ⟨decode_lt hd, fun m n st w h => segment_numeric (by decide) hd rfl⟩
  · cases hp

/-- What a term stands for in a frame; `slotOf` names the accumulators. -/
def Term.value (induction : Nat) (slotOf : Nat → Slot) (w : Slot → BitVec 32) : Term → BitVec 32
  | .induction => w ⟨.local, induction⟩
  | .constant c => c
  | .accumulator k => w (slotOf k)

def ScalarIntAccumulator.update (induction : Nat) (slotOf : Nat → Slot)
    (item : ScalarIntAccumulator) (w : Slot → BitVec 32) : Slot → BitVec 32 :=
  Function.update w item.slot
    (item.apply (w item.slot) (item.term.value induction slotOf w))

theorem apply_recorded (slot : Slot) (t : Term) (subtract : Bool) (induction : Nat)
    (slotOf : Nat → Slot) (w : Slot → BitVec 32) (x : BitVec 32) :
    (ScalarIntAccumulator.mk slot (t.recorded subtract) subtract).apply x
        ((t.recorded subtract).value induction slotOf w) =
      if subtract then x - t.value induction slotOf w else x + t.value induction slotOf w := by
  cases t <;> cases subtract <;>
    simp [ScalarIntAccumulator.apply, Term.recorded, Term.value, BitVec.sub_eq_add_neg]

theorem apply_once {item : ScalarIntAccumulator} (hd : item.term.isAccumulator = false)
    (induction : Nat) (slotOf : Nat → Slot) (w : Slot → BitVec 32) (x : BitVec 32) :
    item.apply x (item.term.value induction slotOf w) =
      x + item.once (w ⟨.local, induction⟩).toInt := by
  unfold ScalarIntAccumulator.apply ScalarIntAccumulator.once
  cases ht : item.term with
  | induction => cases item.subtract <;> simp [Term.value, toBits_toInt, BitVec.sub_eq_add_neg]
  | constant c => simp [Term.value]
  | accumulator k =>
    rw [ht] at hd
    simp [Term.isAccumulator] at hd

theorem parseUpdate_segment {slot : Slot} {term : Term} {item : ScalarIntAccumulator} {p q : Nat}
    (hp : parseUpdate b slot term p = some (item, q)) :
    p < q ∧ item.slot = slot ∧
      ∀ (n : Int) (induction : Nat) (slotOf : Nat → Slot) (st : List JSValue)
        (w : Slot → BitVec 32) (h : H), toBits n = term.value induction slotOf w →
        Segment ops b p q (onFrame p (.number n :: ofBits (w slot) :: st) w h)
          (onFrame q st (item.update induction slotOf w) h) := by
  simp only [parseUpdate, Option.bind_eq_bind, Option.bind_eq_some_iff] at hp
  obtain ⟨⟨subtract, p1⟩, hop, p2, hst, he⟩ := hp
  simp only [Option.some.injEq, Prod.mk.injEq] at he
  obtain ⟨rfl, rfl⟩ := he
  obtain ⟨h1, hs1⟩ := parseAddSub_segment ops hop
  obtain ⟨h2, hs2⟩ := parseStore_segment ops hst
  refine ⟨by omega, rfl, ?_⟩
  intro n induction slotOf st w h hn
  have hbits : toBits (if subtract then (w slot).toInt - n else (w slot).toInt + n) =
      (ScalarIntAccumulator.mk slot (term.recorded subtract) subtract).apply (w slot)
        ((term.recorded subtract).value induction slotOf w) := by
    rw [apply_recorded, ← hn]
    cases subtract <;> simp [toBits_sub, toBits_add, toBits_toInt]
  have hend : Segment ops b p p2 _ _ :=
    (hs1 (w slot).toInt n st w h).append (hs2 _ st w h) (by omega) (by omega)
  rw [hbits] at hend
  exact hend

theorem parseBranchTerm_segment {induction p q : Nat} {term : Term}
    (hp : parseBranchTerm b induction p = some (term, q)) :
    p < q ∧ ∀ (slotOf : Nat → Slot) (st : List JSValue) (w : Slot → BitVec 32) (h : H),
      ∃ n, toBits n = term.value induction slotOf w ∧
        Segment ops b p q (onFrame p st w h) (onFrame q (.number n :: st) w h) := by
  unfold parseBranchTerm at hp
  split at hp
  · rename_i q' hd
    simp only [Option.some.injEq, Prod.mk.injEq] at hp
    obtain ⟨rfl, rfl⟩ := hp
    have hd := expect_decode hd
    refine ⟨decode_lt hd, ?_⟩
    intro slotOf st w h
    exact ⟨_, toBits_toInt _, segment_get hd⟩
  · obtain ⟨⟨n, q'⟩, hc, he⟩ := Option.map_eq_some_iff.mp hp
    simp only [Prod.mk.injEq] at he
    obtain ⟨rfl, rfl⟩ := he
    obtain ⟨hc, -⟩ := scalarConstIn_spec hc
    refine ⟨scalarConst_lt hc, ?_⟩
    intro slotOf st w h
    exact ⟨n, rfl, segment_const hc⟩

theorem detectScalarLoop_parts {target source : Nat} {p : ScalarLoopProgram}
    (hp : detectScalarLoop b target source = some p) :
    ∃ header body, parseHeader b target = some header ∧
      parseBody b header.induction header.body = some body ∧
      parseTail b header.induction target source body.next = some () ∧ 0 ≤ header.resume ∧
      header.induction < b.varCount ∧
      p = ⟨header.induction, header.limit, header.limitSlot, body.mode, body.accumulatorSlot,
        body.intAccumulators, body.conditionalSteps, target, header.resume.toNat⟩ := by
  unfold detectScalarLoop at hp
  split at hp
  · cases hp
  · simp only [Option.bind_eq_bind, Option.bind_eq_some_iff] at hp
    obtain ⟨header, hh, body, hb, u, ht, hif⟩ := hp
    split at hif
    · rename_i hr
      simp only [Option.some.injEq] at hif
      exact ⟨header, body, hh, hb, ht, hr.1, hr.2.2, hif.symm⟩
    · cases hif

/-- One iteration of the loop on a frame, when the body is `f`. -/
def iteration (induction : Nat) (f : (Slot → BitVec 32) → Slot → BitVec 32)
    (w : Slot → BitVec 32) : Slot → BitVec 32 :=
  bump induction (f w)

structure KeepsControl (induction : Nat) (limitSlot : Option Slot)
    (f : (Slot → BitVec 32) → Slot → BitVec 32) : Prop where
  induction : ∀ w, f w ⟨.local, induction⟩ = w ⟨.local, induction⟩
  limit : ∀ slot ∈ limitSlot, ∀ w, f w slot = w slot

section

variable {induction : Nat} {limit : Int} {limitSlot : Option Slot}
  {f : (Slot → BitVec 32) → Slot → BitVec 32}

theorem iteration_induction (hf : KeepsControl induction limitSlot f) (w : Slot → BitVec 32) :
    iteration induction f w ⟨.local, induction⟩ = w ⟨.local, induction⟩ + 1 := by
  simp [iteration, bump, hf.induction]

theorem iteration_limit (hf : KeepsControl induction limitSlot f)
    (hne : ⟨.local, induction⟩ ∉ limitSlot) (w : Slot → BitVec 32) :
    frameLimit limit limitSlot (iteration induction f w) = frameLimit limit limitSlot w := by
  cases limitSlot with
  | none => rfl
  | some slot =>
    have hs : slot ≠ ⟨.local, induction⟩ := by
      intro he
      exact hne (by simp [he])
    simp [frameLimit, iteration, bump, Function.update_of_ne hs, hf.limit slot rfl]

theorem iterations_control (hf : KeepsControl induction limitSlot f) (w : Slot → BitVec 32)
    (hne : ⟨.local, induction⟩ ∉ limitSlot) (hmax : frameLimit limit limitSlot w ≤ int32Max)
    (n : Nat) (hn : (w ⟨.local, induction⟩).toInt + n ≤ frameLimit limit limitSlot w) :
    ((iteration induction f)^[n] w ⟨.local, induction⟩).toInt =
        (w ⟨.local, induction⟩).toInt + n ∧
      frameLimit limit limitSlot ((iteration induction f)^[n] w) =
        frameLimit limit limitSlot w := by
  induction n with
  | zero => simp
  | succ n ih =>
    obtain ⟨hi, hl⟩ := ih (by push_cast at hn; omega)
    rw [Function.iterate_succ_apply', iteration_induction hf, iteration_limit hf hne]
    refine ⟨?_, hl⟩
    rw [toInt_succ, hi]
    · push_cast
      omega
    · push_cast at hn
      omega

theorem loop_segment_done {target source : Nat} {header : LoopHeader} {next : Nat}
    (hh : parseHeader b target = some header) (hr : 0 ≤ header.resume)
    (hbody : Implements ops b header.body next f)
    (ht : parseTail b header.induction target source next = some ())
    (w : Slot → BitVec 32) (st : List JSValue) (h : H)
    (hn : (w ⟨.local, header.induction⟩).toInt = frameLimit header.limit header.limitSlot w) :
    Segment ops b target (source + 1) (onFrame target st w h)
      (onFrame header.resume.toNat st w h) := by
  obtain ⟨h1, -, hs1⟩ := parseHeader_segment ops hh hr
  have h2 := hbody.1
  have h3 := (parseTail_segment ops ht).1
  have hs : Segment ops b target (source + 1) _ _ :=
    (hs1 st w h).widen (Nat.le_refl _) (by omega)
  rw [if_neg (by omega)] at hs
  exact hs

/-- The interpreted loop: from the header on a frame with `i ≤ limit` to the resume offset,
one iteration of the frame for each step of the induction variable. -/
theorem loop_segment {target source : Nat} {header : LoopHeader} {next : Nat}
    (hh : parseHeader b target = some header) (hr : 0 ≤ header.resume)
    (hbody : Implements ops b header.body next f)
    (ht : parseTail b header.induction target source next = some ())
    (hf : KeepsControl header.induction header.limitSlot f)
    (w : Slot → BitVec 32) (st : List JSValue) (h : H) (n : Nat)
    (hn : (w ⟨.local, header.induction⟩).toInt + n =
      frameLimit header.limit header.limitSlot w) :
    ∃ st', Segment ops b target (source + 1) (onFrame target st w h)
      (onFrame header.resume.toNat st' ((iteration header.induction f)^[n] w) h) := by
  obtain ⟨h1, hlim, hs1⟩ := parseHeader_segment ops hh hr
  obtain ⟨h3, hs3⟩ := parseTail_segment ops ht
  have h2 := hbody.1
  induction n generalizing w st with
  | zero => exact ⟨st, loop_segment_done ops hh hr hbody ht w st h (by simpa using hn)⟩
  | succ n ih =>
    have hlt : (w ⟨.local, header.induction⟩).toInt <
        frameLimit header.limit header.limitSlot w := by
      push_cast at hn
      omega
    have hmax : frameLimit header.limit header.limitSlot w ≤ int32Max := by
      cases hls : header.limitSlot with
      | none => simpa [frameLimit] using hlim
      | some slot => exact (toInt_bounds _).2
    have hne : ⟨.local, header.induction⟩ ∉ header.limitSlot := by
      intro he
      rw [Option.mem_def.mp he] at hlt
      simp only [frameLimit] at hlt
      omega
    have hs : Segment ops b target (source + 1) _ _ :=
      (hs1 st w h).widen (Nat.le_refl _) (by omega)
    rw [if_pos hlt] at hs
    obtain ⟨st2, hb2⟩ := hbody.2 st w h
    have hs2 : Segment ops b target (source + 1) _ _ := hb2.widen (by omega) (by omega)
    have hs4 : Segment ops b target (source + 1) _ _ :=
      (hs3 st2 (f w) h (by rw [hf.induction]; omega)).widen (by omega) (by omega)
    obtain ⟨st', hrest⟩ := ih (iteration header.induction f w) st2 (by
      rw [iteration_induction hf, iteration_limit hf hne, toInt_succ (by omega), ← hn]
      push_cast
      omega)
    refine ⟨st', ?_⟩
    rw [Function.iterate_succ_apply]
    exact ((hs.trans hs2).trans hs4).trans hrest

end

end TurboJS.OSR

namespace TurboJS.OSR
open Bytecode

/-! What the runner of the scalar loops stores in a frame of int32 slots. -/

variable {b : FunctionBytecode}

/-- The frame `f` holds the slots `w`. -/
def Mirrors (b : FunctionBytecode) (f : OSRFrame) (w : Slot → BitVec 32) : Prop :=
  Holds b f (int32Frame w)

theorem captureFrame_mirrors (w : Slot → BitVec 32) :
    Mirrors b (captureFrame b (int32Frame w)) w :=
  captureFrame_holds (int32Frame w)

theorem Mirrors.update_local {f : OSRFrame} {w : Slot → BitVec 32} (hm : Mirrors b f w) (l : Nat)
    (hl : l < b.varCount) (x : BitVec 32) :
    Mirrors b { f with locals := Function.update f.locals (b.argCount + l) (ofBits x) }
      (Function.update w ⟨.local, l⟩ x) := by
  unfold Mirrors
  rw [← int32Frame_update]
  exact Holds.update_local hm l hl (ofBits x)

theorem Mirrors.store {f f' : OSRFrame} {w : Slot → BitVec 32} (hm : Mirrors b f w) {slot : Slot}
    (hi : FrameIndexed b slot) {x : BitVec 32} (hs : f.store b slot x = some f') :
    Mirrors b f' (Function.update w slot x) := by
  unfold Mirrors
  rw [← int32Frame_update]
  exact Holds.store hm hi hs

def assign (w : Slot → BitVec 32) : List Slot → List (BitVec 32) → Slot → BitVec 32
  | slot :: slots, x :: xs => assign (Function.update w slot x) slots xs
  | _, _ => w

theorem Mirrors.storeAll {slots : List Slot} {xs : List (BitVec 32)} {f f' : OSRFrame}
    {w : Slot → BitVec 32} (hm : Mirrors b f w) (hi : ∀ slot ∈ slots, FrameIndexed b slot)
    (hs : f.storeAll b slots xs = some f') : Mirrors b f' (assign w slots xs) := by
  induction slots generalizing xs f w with
  | nil =>
    simp only [OSRFrame.storeAll, Option.some.injEq] at hs
    subst hs
    exact hm
  | cons slot slots ih =>
    cases xs with
    | nil =>
      simp only [OSRFrame.storeAll, Option.some.injEq] at hs
      subst hs
      exact hm
    | cons x xs =>
      simp only [OSRFrame.storeAll, Option.bind_eq_bind, Option.bind_eq_some_iff] at hs
      obtain ⟨g, hg, hrest⟩ := hs
      refine ih (hm.store (hi slot (by simp)) hg) ?_ hrest
      intro s hmem
      exact hi s (List.mem_cons_of_mem slot hmem)

theorem Mirrors.writeBack {f : OSRFrame} {w : Slot → BitVec 32} (hm : Mirrors b f w) :
    f.writeBack b = int32Frame w :=
  Holds.writeBack hm

theorem assign_map (w w' : Slot → BitVec 32) (slots : List Slot) (slot : Slot) :
    assign w slots (slots.map w') slot = if slot ∈ slots then w' slot else w slot := by
  induction slots generalizing w with
  | nil => simp [assign]
  | cons s slots ih =>
    simp only [List.map_cons, assign, ih, List.mem_cons]
    by_cases hs : slot = s
    · subst hs
      simp
    · simp [hs]

def FramesIndexed (b : FunctionBytecode) (p : ScalarLoopProgram) : Prop :=
  FrameIndexed b ⟨.local, p.induction⟩ ∧ FrameIndexed b p.accumulatorSlot ∧
    ∀ item ∈ p.intAccumulators, FrameIndexed b item.slot

instance (b : FunctionBytecode) (p : ScalarLoopProgram) : Decidable (FramesIndexed b p) :=
  inferInstanceAs (Decidable (_ ∧ _ ∧ _))

theorem readAccumulators_int32Frame (w : Slot → BitVec 32) (slots : List Slot) :
    readAccumulators (int32Frame w) slots = some (slots.map w) := by
  unfold readAccumulators
  induction slots with
  | nil => rfl
  | cons slot slots ih =>
    rw [List.mapM_cons, ih]
    simp [int32Frame, intValue_ofBits, toBits_toInt]

theorem runtimeLimit_int32Frame {p : ScalarLoopProgram} {w : Slot → BitVec 32} {limit : Int}
    (h : runtimeLimit p (int32Frame w) = some limit) :
    limit = frameLimit p.limit p.limitSlot w := by
  unfold runtimeLimit at h
  cases hs : p.limitSlot with
  | none =>
    simp only [hs, Option.some.injEq] at h
    simp [frameLimit, h]
  | some slot =>
    simp only [hs, int32Frame, ofBits] at h
    split at h
    · simp only [Option.some.injEq] at h
      simp [frameLimit, h]
    · cases h

def ScalarLoopProgram.start (p : ScalarLoopProgram) (w : Slot → BitVec 32) : Int :=
  (w ⟨.local, p.induction⟩).toInt

def ScalarLoopProgram.stop (p : ScalarLoopProgram) (w : Slot → BitVec 32) : Int :=
  frameLimit p.limit p.limitSlot w

theorem frameLimit_le {limit : Int} (hl : limit ≤ int32Max) (limitSlot : Option Slot)
    (w : Slot → BitVec 32) : frameLimit limit limitSlot w ≤ int32Max := by
  cases limitSlot with
  | none => exact hl
  | some slot => exact (toInt_bounds _).2

theorem runScalarLoop_outcome {p : ScalarLoopProgram} {w : Slot → BitVec 32} {out : OSRExit}
    (hi : FramesIndexed b p) (hv : p.induction < b.varCount) (hl : p.limit ≤ int32Max)
    (hrun : runScalarLoop b p (int32Frame w) = some out) :
    0 ≤ p.start w ∧ p.start w ≤ p.stop w ∧ out.resume = p.resume ∧
      ∃ targets values,
        scalarLoopValues p (int32Frame w) (p.start w) (p.stop w) = some (targets, values) ∧
        ((∀ slot ∈ targets, FrameIndexed b slot) →
          out.slots = int32Frame (Function.update (assign w targets values)
            ⟨.local, p.induction⟩ (toBits (p.stop w)))) := by
  have hidx := frameLocal_local hi.1
  have hm := captureFrame_mirrors (b := b) w
  simp only [runScalarLoop, hidx] at hrun
  rw [if_neg (by simp only [localCount]; omega), hm.locals _ hv, int32Frame,
    intValue_ofBits] at hrun
  simp only [Option.bind_eq_bind, Option.bind_some, Option.bind_eq_some_iff] at hrun
  obtain ⟨limit, hlim, hrest⟩ := hrun
  have hlim := runtimeLimit_int32Frame hlim
  split at hrest
  · cases hrest
  · rename_i hrange
    simp only [Option.bind_eq_some_iff] at hrest
    obtain ⟨⟨targets, values⟩, hvals, f, hf, he⟩ := hrest
    simp only [Option.some.injEq] at he
    subst he hlim
    refine ⟨?_, ?_, rfl, targets, values, hvals, ?_⟩
    · simp only [ScalarLoopProgram.start]
      omega
    · simp only [ScalarLoopProgram.start, ScalarLoopProgram.stop]
      omega
    · intro hts
      have hmf := hm.storeAll hts hf
      have hmax := frameLimit_le hl p.limitSlot w
      have hend := hmf.update_local p.induction hv (toBits (p.stop w))
      have hlo : int32Min ≤ p.stop w := by
        simp only [ScalarLoopProgram.stop, int32Min]
        omega
      rw [ofBits_toBits ⟨hlo, hmax⟩] at hend
      exact hend.writeBack

end TurboJS.OSR
