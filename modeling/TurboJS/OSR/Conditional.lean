import TurboJS.OSR.Recurrence
import Mathlib.Data.BitVec

namespace TurboJS.OSR
open Bytecode Foundation

/-! Conditional loops: the interpreted blocks, the runner, and where they agree. -/

variable {H : Type} (ops : HeapOps H) {b : FunctionBytecode}

/-! ## The interpreted blocks -/

def ConditionalStep.thresholdIn (step : ConditionalStep) (w : Slot → BitVec 32) : Int :=
  frameLimit step.conditionValue step.compareSlot w

def addTo (w : Slot → BitVec 32) (slot : Slot) (x : BitVec 32) : Slot → BitVec 32 :=
  Function.update w slot (w slot + x)

def ConditionalStep.effect (induction : Nat) (step : ConditionalStep) (w : Slot → BitVec 32) :
    Slot → BitVec 32 :=
  addTo w step.onTrue.slot (step.once (w ⟨.local, induction⟩).toInt (step.thresholdIn w))

structure StepParsed (step : ConditionalStep) : Prop where
  slot : step.onFalse.slot = step.onTrue.slot
  onTrue : step.onTrue.term.isAccumulator = false
  onFalse : step.onFalse.term.isAccumulator = false
  mask : step.conditionKind = .mask →
    step.compareSlot = none ∧ 0 ≤ step.conditionValue ∧ step.conditionValue ≤ int32Max

theorem parseRelation_segment {p q : Nat} {kind : ConditionKind}
    (hp : parseRelation b p = some (kind, q)) :
    p < q ∧ kind ≠ .mask ∧ ∀ (m n : Int) (st : List JSValue) (w : Slot → BitVec 32) (h : H),
      Segment ops b p q (onFrame p (.number n :: .number m :: st) w h)
        (onFrame q (.bool (kind.holds m n) :: st) w h) := by
  unfold parseRelation at hp
  split at hp
  case h_5 q' hd | h_6 q' hd | h_7 q' hd | h_8 q' hd =>
    simp only [Option.some.injEq, Prod.mk.injEq] at hp
    obtain ⟨rfl, rfl⟩ := hp
    refine ⟨decode_lt hd, by decide, ?_⟩
    intro m n st w h
    first
      | exact segment_numeric (by decide) hd rfl
      | exact segment_strictEq hd
      | exact segment_strictNeq hd
  case h_9 => cases hp
  all_goals
    rename_i q' hd
    simp only [Option.some.injEq, Prod.mk.injEq] at hp
    obtain ⟨rfl, rfl⟩ := hp
    refine ⟨decode_lt hd, by decide, ?_⟩
    intro m n st w h
    exact segment_numeric (by decide) hd rfl

theorem flip_holds {kind : ConditionKind} (hk : kind ≠ .mask) (i t : Int) :
    kind.flip.holds i t = kind.holds t i := by
  cases kind <;> simp [ConditionKind.flip, ConditionKind.holds, eq_comm] at hk ⊢

theorem flip_ne_mask {kind : ConditionKind} (hk : kind ≠ .mask) : kind.flip ≠ .mask := by
  cases kind <;> simp [ConditionKind.flip] at hk ⊢

def Decides (ops : HeapOps H) (b : FunctionBytecode) (induction p : Nat) (c : ParsedCondition) :
    Prop :=
  p < c.next ∧
    (c.kind = .mask → c.slot = none ∧ 0 ≤ c.value ∧ c.value ≤ int32Max) ∧
    ∀ (st : List JSValue) (w : Slot → BitVec 32) (h : H), ∃ v,
      truthy v = some (c.kind.holds (w ⟨.local, induction⟩).toInt
        (frameLimit c.value c.slot w)) ∧
      Segment ops b p c.next (onFrame p st w h) (onFrame c.next (v :: st) w h)

theorem parseInductionCondition_const {induction p p1 p2 : Nat} {n : Int} {c : ParsedCondition}
    (hi : expectInduction b induction p = some p1)
    (hc : scalarConstIn int32Min int32Max b p1 = some (n, p2))
    (hp : parseInductionCondition b p1 = some c) : Decides ops b induction p c := by
  have hi := expect_decode hi
  have h1 := decode_lt hi
  obtain ⟨hconst, -, hmax⟩ := scalarConstIn_spec hc
  have h2 := scalarConst_lt hconst
  have hpush : ∀ (st : List JSValue) (w : Slot → BitVec 32) (h : H),
      Segment ops b p p2 (onFrame p st w h)
        (onFrame p2 (.number n :: ofBits (w ⟨.local, induction⟩) :: st) w h) := by
    intro st w h
    exact (segment_get hi).append (segment_const hconst) (by omega) (by omega)
  simp only [parseInductionCondition, hc] at hp
  split at hp
  · rename_i q hand
    have hand := expect_decode hand
    have h3 := decode_lt hand
    split at hp
    · cases hp
    · rename_i hn
      simp only [Option.some.injEq] at hp
      subst hp
      refine ⟨by simp only; omega, fun _ => ⟨rfl, by simp only; omega, hmax⟩, ?_⟩
      intro st w h
      have hs : Segment ops b p2 q
          (onFrame p2 (.number n :: ofBits (w ⟨.local, induction⟩) :: st) w h)
          (onFrame q (ofBits (w ⟨.local, induction⟩ &&& toBits n) :: st) w h) := by
        refine segment_numeric (by decide) hand ?_
        simp [numeric, toBits_toInt]
      refine ⟨_, ?_, (hpush st w h).append hs (by omega) (Nat.le_of_lt h3)⟩
      simp only [truthy, ofBits, ConditionKind.holds, frameLimit, toBits_toInt,
        Option.some.injEq, decide_eq_decide, ne_eq, not_iff_not]
      exact BitVec.toInt_inj (y := 0#32)
  · obtain ⟨⟨kind, q⟩, hrel, rfl⟩ := Option.map_eq_some_iff.mp hp
    obtain ⟨h3, hk, hs⟩ := parseRelation_segment ops hrel
    refine ⟨by simp only; omega, fun he => absurd he hk, ?_⟩
    intro st w h
    exact ⟨_, rfl, (hpush st w h).append (hs _ n st w h) (by omega) (Nat.le_of_lt h3)⟩

theorem parseCondition_decides {induction p : Nat} {c : ParsedCondition}
    (hp : parseCondition b induction p = some c) : Decides ops b induction p c := by
  unfold parseCondition at hp
  split at hp
  · rename_i p1 hi
    rcases hc : scalarConstIn int32Min int32Max b p1 with _ | ⟨n, p2⟩
    · simp only [parseInductionCondition, hc, Option.bind_eq_bind, Option.bind_eq_some_iff,
        Option.some.injEq] at hp
      obtain ⟨⟨slot, p2⟩, hg, ⟨kind, q⟩, hrel, rfl⟩ := hp
      have hi := expect_decode hi
      obtain ⟨form, hd⟩ := parseGetScalarSlot_decode hg
      obtain ⟨h3, hk, hs⟩ := parseRelation_segment ops hrel
      have h1 := decode_lt hi
      have h2 := decode_lt hd
      simp only at h2 h3
      refine ⟨by simp only; omega, fun he => absurd he hk, ?_⟩
      intro st w h
      have hget : Segment ops b p p2 (onFrame p st w h)
          (onFrame p2 (ofBits (w slot) :: ofBits (w ⟨.local, induction⟩) :: st) w h) :=
        (segment_get hi).append (segment_get hd) (by omega) (by omega)
      exact ⟨_, rfl, hget.append (hs _ _ st w h) (by omega) (Nat.le_of_lt h3)⟩
    · exact parseInductionCondition_const ops hi hc hp
  · simp only [Option.bind_eq_bind, Option.bind_eq_some_iff, Option.some.injEq] at hp
    obtain ⟨⟨slot, p1⟩, hg, p2, hi, ⟨kind, q⟩, hrel, rfl⟩ := hp
    have hi := expect_decode hi
    obtain ⟨form, hd⟩ := parseGetScalarSlot_decode hg
    obtain ⟨h3, hk, hs⟩ := parseRelation_segment ops hrel
    have h1 := decode_lt hd
    have h2 := decode_lt hi
    simp only at h2 h3
    refine ⟨by simp only; omega, fun he => absurd he (flip_ne_mask hk), ?_⟩
    intro st w h
    have hget : Segment ops b p p2 (onFrame p st w h)
        (onFrame p2 (ofBits (w ⟨.local, induction⟩) :: ofBits (w slot) :: st) w h) :=
      (segment_get hd).append (segment_get hi) (by omega) (by omega)
    refine ⟨_, ?_, hget.append (hs _ _ st w h) (by omega) (Nat.le_of_lt h3)⟩
    simp [truthy, flip_holds hk, frameLimit]

theorem parseBranchTerm_isAccumulator {induction p q : Nat} {term : Term}
    (hp : parseBranchTerm b induction p = some (term, q)) : term.isAccumulator = false := by
  unfold parseBranchTerm at hp
  split at hp
  · simp only [Option.some.injEq, Prod.mk.injEq] at hp
    obtain ⟨rfl, -⟩ := hp
    rfl
  · obtain ⟨r, -, he⟩ := Option.map_eq_some_iff.mp hp
    simp only [Prod.mk.injEq] at he
    obtain ⟨rfl, -⟩ := he
    rfl

theorem parseBranch_segment {induction p q : Nat} {item : ScalarIntAccumulator}
    (hp : parseBranch b induction p = some (item, q)) :
    p < q ∧ item.term.isAccumulator = false ∧
      ∀ (st : List JSValue) (w : Slot → BitVec 32) (h : H),
        Segment ops b p q (onFrame p st w h)
          (onFrame q st (addTo w item.slot (item.once (w ⟨.local, induction⟩).toInt)) h) := by
  simp only [parseBranch, Option.bind_eq_bind, Option.bind_eq_some_iff] at hp
  obtain ⟨⟨slot, p1⟩, hg, ⟨term, p2⟩, ht, hu⟩ := hp
  obtain ⟨form, hd⟩ := parseGetScalarSlot_decode hg
  have h1 := decode_lt hd
  obtain ⟨h2, hs2⟩ := parseBranchTerm_segment ops ht
  obtain ⟨h3, hslot, hs3⟩ := parseUpdate_segment ops hu
  have hacc : item.term.isAccumulator = false := by
    simp only [parseUpdate, Option.bind_eq_bind, Option.bind_eq_some_iff, Option.some.injEq,
      Prod.mk.injEq] at hu
    obtain ⟨r, -, q', -, rfl, -⟩ := hu
    have hterm := parseBranchTerm_isAccumulator ht
    cases hcase : term with
    | induction => rfl
    | constant c => rfl
    | accumulator k => simp [hcase, Term.isAccumulator] at hterm
  simp only at h1 h2 h3
  refine ⟨by omega, hacc, ?_⟩
  intro st w h
  obtain ⟨n, hn, hsn⟩ := hs2 (fun _ => slot) (ofBits (w slot) :: st) w h
  have hget : Segment ops b p p1 (onFrame p st w h) (onFrame p1 (ofBits (w slot) :: st) w h) :=
    segment_get hd
  have hend := (hget.append hsn (by omega) (by omega)).append
    (hs3 n induction (fun _ => slot) st w h hn) (by omega) (by omega)
  rw [ScalarIntAccumulator.update, apply_once hacc] at hend
  exact hend

theorem parseConditionalStep_implements {induction p q : Nat} {step : ConditionalStep}
    (hp : parseConditionalStep b induction p = some (step, q)) :
    StepParsed step ∧ Implements ops b p q (step.effect induction) := by
  simp only [parseConditionalStep, Option.bind_eq_bind, Option.bind_eq_some_iff] at hp
  obtain ⟨c, hc, ⟨elsePc, p1⟩, hbr, ⟨onTrue, p2⟩, ht, ⟨joinPc, p3⟩, hgo, ⟨onFalse, p4⟩, hf,
    hif⟩ := hp
  simp only at ht hgo hf hif
  split at hif
  · rename_i hpcs
    obtain ⟨helse, hjoin, hslot⟩ := hpcs
    simp only [Option.some.injEq, Prod.mk.injEq] at hif
    obtain ⟨rfl, rfl⟩ := hif
    obtain ⟨h1, hmask, hs1⟩ := parseCondition_decides ops hc
    obtain ⟨width, hbr⟩ := parseBranchTarget_decode hbr
    have h2 := decode_lt hbr
    obtain ⟨h3, hacc, hs3⟩ := parseBranch_segment ops ht
    obtain ⟨width', hgo⟩ := parseGotoTarget_decode hgo
    have h4 := decode_lt hgo
    obtain ⟨h5, hacc', hs5⟩ := parseBranch_segment ops hf
    refine ⟨⟨hslot, hacc, hacc', hmask⟩, by omega, ?_⟩
    intro st w h
    obtain ⟨v, hv, hsv⟩ := hs1 st w h
    have hbranch : Segment ops b c.next p1 (onFrame c.next (v :: st) w h) _ :=
      segment_ifFalse (by omega) hv hbr
    have hcond : Segment ops b p p4 _ _ :=
      (hsv.append hbranch (by omega) (by omega)).widen (Nat.le_refl p) (by omega)
    refine ⟨st, ?_⟩
    by_cases hholds : c.kind.holds (w ⟨.local, induction⟩).toInt
        (frameLimit c.value c.slot w) = true
    · rw [if_pos hholds] at hcond
      have heff : ConditionalStep.effect induction ⟨c.kind, c.value, c.slot, 0, onTrue, onFalse⟩ w =
          addTo w onTrue.slot (onTrue.once (w ⟨.local, induction⟩).toInt) := by
        simp [ConditionalStep.effect, ConditionalStep.once, ConditionalStep.thresholdIn, hholds]
      rw [heff]
      have hgoto : Segment ops b p2 p3
          (onFrame p2 st (addTo w onTrue.slot (onTrue.once (w ⟨.local, induction⟩).toInt)) h) _ :=
        segment_goto (by omega) hgo
      have hjump : joinPc.toNat = p4 := by omega
      rw [hjump] at hgoto
      have hthen := (hs3 st w h).append hgoto (by omega) (by omega)
      exact hcond.trans (hthen.widen (by omega) (by omega))
    · rw [if_neg hholds] at hcond
      have heff : ConditionalStep.effect induction ⟨c.kind, c.value, c.slot, 0, onTrue, onFalse⟩ w =
          addTo w onTrue.slot (onFalse.once (w ⟨.local, induction⟩).toInt) := by
        simp [ConditionalStep.effect, ConditionalStep.once, ConditionalStep.thresholdIn, hholds]
      rw [heff]
      have hjump : elsePc.toNat = p3 := by omega
      rw [hjump] at hcond
      have helse := hs5 st w h
      rw [hslot] at helse
      exact hcond.trans (helse.widen (by omega) (by omega))
  · cases hif

def effects (induction : Nat) (steps : List ConditionalStep) (w : Slot → BitVec 32) :
    Slot → BitVec 32 :=
  steps.foldl (fun w step => step.effect induction w) w

structure ProgramParsed (c : ConditionalProgram) : Prop where
  distinct : c.accumulators.Nodup
  parsed : ∀ step ∈ c.steps, StepParsed step
  target : ∀ step ∈ c.steps,
    c.accumulators[step.targetAccumulatorIndex]? = some step.onTrue.slot
  bounded : c.accumulators.length ≤ c.steps.length

theorem ProgramParsed.push {c c' : ConditionalProgram} {step : ConditionalStep}
    (hc : ProgramParsed c) (hs : StepParsed step) (h : c.push step = some c') :
    ProgramParsed c' ∧ ∃ k, c'.steps = c.steps ++ [{ step with targetAccumulatorIndex := k }] := by
  unfold ConditionalProgram.push at h
  have hparsed : ∀ k, StepParsed { step with targetAccumulatorIndex := k } := fun k =>
    ⟨hs.slot, hs.onTrue, hs.onFalse, hs.mask⟩
  split at h
  · rename_i k hk
    simp only [Option.some.injEq] at h
    subst h
    obtain ⟨hlt, hslot, -⟩ := List.findIdx?_eq_some_iff_getElem.mp hk
    simp only [decide_eq_true_eq] at hslot
    have hbound := hc.bounded
    refine ⟨⟨hc.distinct, ?_, ?_, by simp only [List.length_append]; omega⟩, k, rfl⟩
    · intro s hmem
      rcases List.mem_append.mp hmem with hmem | hmem
      · exact hc.parsed s hmem
      · rw [List.mem_singleton.mp hmem]
        exact hparsed k
    · intro s hmem
      rcases List.mem_append.mp hmem with hmem | hmem
      · exact hc.target s hmem
      · rw [List.mem_singleton.mp hmem]
        simp [List.getElem?_eq_getElem hlt, hslot]
  · rename_i hk
    split at h
    · cases h
    · simp only [Option.some.injEq] at h
      subst h
      have hnew : step.onTrue.slot ∉ c.accumulators := by
        intro hmem
        have := List.findIdx?_eq_none_iff.mp hk _ hmem
        simp at this
      have hbound := hc.bounded
      refine ⟨⟨?_, ?_, ?_, ?_⟩, c.accumulators.length, rfl⟩
      · simp only [List.nodup_append, List.mem_singleton, List.nodup_singleton, true_and]
        refine ⟨hc.distinct, ?_⟩
        rintro a ha s rfl rfl
        exact hnew ha
      · intro s hmem
        rcases List.mem_append.mp hmem with hmem | hmem
        · exact hc.parsed s hmem
        · rw [List.mem_singleton.mp hmem]
          exact hparsed _
      · intro s hmem
        rcases List.mem_append.mp hmem with hmem | hmem
        · have hget := hc.target s hmem
          obtain ⟨hlt, -⟩ := List.getElem?_eq_some_iff.mp hget
          rw [List.getElem?_append_left hlt, hget]
        · rw [List.mem_singleton.mp hmem]
          simp
      · simp only [List.length_append, List.length_singleton]
        omega

theorem parseConditionalSteps_implements {induction : Nat} {fuel : Nat}
    {c c' : ConditionalProgram} {p q : Nat} (hc : ProgramParsed c)
    (hp : parseConditionalSteps b induction fuel c p = (c', q)) :
    ProgramParsed c' ∧ ∃ new, c'.steps = c.steps ++ new ∧
      Implements ops b p q (effects induction new) := by
  induction fuel generalizing c p with
  | zero =>
    simp only [parseConditionalSteps, Prod.mk.injEq] at hp
    obtain ⟨rfl, rfl⟩ := hp
    exact ⟨hc, [], by simp, .refl _⟩
  | succ fuel ih =>
    unfold parseConditionalSteps at hp
    split at hp
    · simp only [Prod.mk.injEq] at hp
      obtain ⟨rfl, rfl⟩ := hp
      exact ⟨hc, [], by simp, .refl _⟩
    · rename_i step q1 hstep
      split at hp
      · simp only [Prod.mk.injEq] at hp
        obtain ⟨rfl, rfl⟩ := hp
        exact ⟨hc, [], by simp, .refl _⟩
      · rename_i c1 hpush
        obtain ⟨hparsed, himp⟩ := parseConditionalStep_implements ops hstep
        obtain ⟨hc1, k, hsteps⟩ := hc.push hparsed hpush
        obtain ⟨hc', new, hnew, hrest⟩ := ih hc1 hp
        refine ⟨hc', { step with targetAccumulatorIndex := k } :: new, ?_, ?_⟩
        · rw [hnew, hsteps]
          simp
        · exact himp.append hrest

/-- What the steps of a slot add, when each step adds `g`. -/
def slotSum (g : ConditionalStep → BitVec 32) (steps : List ConditionalStep) (slot : Slot) :
    BitVec 32 :=
  (steps.map fun step => if step.onTrue.slot = slot then g step else 0).sum

theorem slotSum_cons (g : ConditionalStep → BitVec 32) (step : ConditionalStep)
    (steps : List ConditionalStep) (slot : Slot) :
    slotSum g (step :: steps) slot =
      (if step.onTrue.slot = slot then g step else 0) + slotSum g steps slot := by
  simp [slotSum]

theorem slotSum_congr {g g' : ConditionalStep → BitVec 32} {steps : List ConditionalStep}
    (h : ∀ step ∈ steps, g step = g' step) (slot : Slot) :
    slotSum g steps slot = slotSum g' steps slot := by
  unfold slotSum
  congr 1
  apply List.map_congr_left
  intro step hs
  rw [h step hs]

theorem slotSum_add (g g' : ConditionalStep → BitVec 32) (steps : List ConditionalStep)
    (slot : Slot) :
    slotSum (fun step => g step + g' step) steps slot =
      slotSum g steps slot + slotSum g' steps slot := by
  unfold slotSum
  rw [← List.sum_map_add]
  congr 1
  apply List.map_congr_left
  intro step _
  split <;> simp

theorem slotSum_other {g : ConditionalStep → BitVec 32} {steps : List ConditionalStep}
    {slot : Slot} (h : slot ∉ steps.map (·.onTrue.slot)) : slotSum g steps slot = 0 := by
  induction steps with
  | nil => rfl
  | cons step steps ih =>
    simp only [List.map_cons, List.mem_cons, not_or] at h
    rw [slotSum_cons, if_neg (Ne.symm h.1), ih h.2, add_zero]

structure StepsApart (induction : Nat) (steps : List ConditionalStep) : Prop where
  control : ⟨.local, induction⟩ ∉ steps.map (·.onTrue.slot)
  compare : ∀ step ∈ steps, ∀ slot ∈ step.compareSlot,
    slot ∉ steps.map (·.onTrue.slot) ∧ slot ≠ ⟨.local, induction⟩

theorem thresholdIn_congr {step : ConditionalStep} {w w' : Slot → BitVec 32}
    (h : ∀ slot ∈ step.compareSlot, w' slot = w slot) : step.thresholdIn w' = step.thresholdIn w := by
  unfold ConditionalStep.thresholdIn frameLimit
  cases hc : step.compareSlot with
  | none => rfl
  | some slot => simp [h slot (by simp [hc])]

section

variable {induction : Nat} {steps : List ConditionalStep}

theorem StepsApart.tail {step : ConditionalStep} (h : StepsApart induction (step :: steps)) :
    StepsApart induction steps where
  control := by
    have hi := h.control
    simp only [List.map_cons, List.mem_cons, not_or] at hi
    exact hi.2
  compare := by
    intro s hs slot hc
    obtain ⟨h1, h2⟩ := h.compare s (List.mem_cons_of_mem step hs) slot hc
    simp only [List.map_cons, List.mem_cons, not_or] at h1
    exact ⟨h1.2, h2⟩

theorem effects_apply (h : StepsApart induction steps) (w : Slot → BitVec 32) (slot : Slot) :
    effects induction steps w slot = w slot +
      slotSum (fun step => step.once (w ⟨.local, induction⟩).toInt (step.thresholdIn w))
        steps slot := by
  induction steps generalizing w with
  | nil => simp [effects, slotSum]
  | cons step steps ih =>
    have hi := h.control
    simp only [List.map_cons, List.mem_cons, not_or] at hi
    have hind : step.effect induction w ⟨.local, induction⟩ = w ⟨.local, induction⟩ := by
      rw [ConditionalStep.effect, addTo, Function.update_of_ne hi.1]
    have hthr : ∀ s ∈ steps, s.thresholdIn (step.effect induction w) = s.thresholdIn w := by
      intro s hs
      apply thresholdIn_congr
      intro slot' hc
      have hne := (h.compare s (List.mem_cons_of_mem step hs) slot' hc).1
      simp only [List.map_cons, List.mem_cons, not_or] at hne
      rw [ConditionalStep.effect, addTo, Function.update_of_ne hne.1]
    have hstep : effects induction (step :: steps) w =
        effects induction steps (step.effect induction w) := rfl
    have hcongr : slotSum (fun s => s.once (w ⟨.local, induction⟩).toInt
          (s.thresholdIn (step.effect induction w))) steps slot =
        slotSum (fun s => s.once (w ⟨.local, induction⟩).toInt (s.thresholdIn w)) steps slot :=
      slotSum_congr (fun s hs => by rw [hthr s hs]) slot
    rw [hstep, ih h.tail, slotSum_cons, hind, hcongr]
    by_cases hs : step.onTrue.slot = slot
    · subst hs
      rw [ConditionalStep.effect, addTo, Function.update_self, if_pos rfl, add_assoc]
    · rw [ConditionalStep.effect, addTo, Function.update_of_ne (Ne.symm hs), if_neg hs, zero_add]

theorem effects_other (h : StepsApart induction steps) {slot : Slot}
    (hs : slot ∉ steps.map (·.onTrue.slot)) (w : Slot → BitVec 32) :
    effects induction steps w slot = w slot := by
  rw [effects_apply h, slotSum_other hs, add_zero]

theorem effects_keepsControl {limitSlot : Option Slot} (h : StepsApart induction steps)
    (hl : ∀ slot ∈ limitSlot, slot ∉ steps.map (·.onTrue.slot)) :
    KeepsControl induction limitSlot (effects induction steps) where
  induction := effects_other h h.control
  limit := fun slot hs => effects_other h (hl slot hs)

theorem iterations_threshold (h : StepsApart induction steps) {step : ConditionalStep}
    (hm : step ∈ steps) (w : Slot → BitVec 32) (n : Nat) :
    step.thresholdIn ((iteration induction (effects induction steps))^[n] w) =
      step.thresholdIn w := by
  induction n with
  | zero => rfl
  | succ n ih =>
    rw [Function.iterate_succ_apply', ← ih]
    apply thresholdIn_congr
    intro slot hc
    obtain ⟨h1, h2⟩ := h.compare step hm slot hc
    rw [iteration, bump, Function.update_of_ne h2, effects_other h h1]

theorem iterations_effects {limitSlot : Option Slot} {limit : Int}
    (h : StepsApart induction steps)
    (hl : ∀ slot ∈ limitSlot, slot ∉ steps.map (·.onTrue.slot)) (w : Slot → BitVec 32)
    (hne : ⟨.local, induction⟩ ∉ limitSlot) (hmax : frameLimit limit limitSlot w ≤ int32Max)
    (n : Nat) (hn : (w ⟨.local, induction⟩).toInt + n ≤ frameLimit limit limitSlot w)
    {slot : Slot} (hs : slot ≠ ⟨.local, induction⟩) :
    (iteration induction (effects induction steps))^[n] w slot = w slot +
      slotSum (fun step => stepSum step (w ⟨.local, induction⟩).toInt (step.thresholdIn w) n)
        steps slot := by
  induction n with
  | zero =>
    have hzero : slotSum (fun step => stepSum step (w ⟨.local, induction⟩).toInt
        (step.thresholdIn w) 0) steps slot = 0 := by
      simp [slotSum, stepSum]
    rw [hzero, add_zero]
    rfl
  | succ n ih =>
    have hlt : (w ⟨.local, induction⟩).toInt + n ≤ frameLimit limit limitSlot w := by
      push_cast at hn
      omega
    have hw := (iterations_control (effects_keepsControl h hl) w hne hmax n hlt).1
    have hcongr : slotSum (fun step => step.once ((w ⟨.local, induction⟩).toInt + n)
          (step.thresholdIn ((iteration induction (effects induction steps))^[n] w))) steps slot =
        slotSum (fun step => step.once ((w ⟨.local, induction⟩).toInt + n) (step.thresholdIn w))
          steps slot :=
      slotSum_congr (fun step hm => by rw [iterations_threshold h hm]) slot
    rw [Function.iterate_succ_apply', iteration, bump, Function.update_of_ne hs,
      effects_apply h, ih hlt, hw, hcongr, add_assoc, ← slotSum_add]
    rfl

end

section

variable {accumulators : List Slot} {steps : List ConditionalStep} {t : ConditionalStep → Int}

theorem addAt_map (hnd : accumulators.Nodup) {k : Nat} {slot : Slot}
    (hk : accumulators[k]? = some slot) (w : Slot → BitVec 32) (x : BitVec 32) :
    addAt (accumulators.map w) k x = accumulators.map (addTo w slot x) := by
  obtain ⟨hlt, hget⟩ := List.getElem?_eq_some_iff.mp hk
  apply List.ext_getElem
  · simp [addAt]
  · intro j hj hj'
    simp only [List.length_map] at hj'
    simp only [addAt, List.getElem_modify, List.getElem_map]
    split
    · rename_i he
      subst he
      simp [addTo, hget]
    · rename_i he
      have hne : accumulators[j] ≠ slot := by
        intro hs
        have hkj : accumulators[k]? = accumulators[j]? := by
          rw [hk, List.getElem?_eq_getElem hj', hs]
        exact he ((List.getElem?_inj hlt hnd).mp hkj)
      simp only [addTo, Function.update_of_ne hne]

theorem addAt_foldl (hnd : accumulators.Nodup) (g : ConditionalStep → BitVec 32)
    (l : List ConditionalStep)
    (ht : ∀ step ∈ l, accumulators[step.targetAccumulatorIndex]? = some step.onTrue.slot)
    (w : Slot → BitVec 32) :
    l.foldl (fun values step => addAt values step.targetAccumulatorIndex (g step))
        (accumulators.map w) =
      accumulators.map fun slot => w slot + slotSum g l slot := by
  induction l generalizing w with
  | nil => simp [slotSum]
  | cons step l ih =>
    rw [List.foldl_cons, addAt_map hnd (ht step (by simp)),
      ih (fun s hs => ht s (List.mem_cons_of_mem step hs))]
    apply List.map_congr_left
    intro slot _
    rw [slotSum_cons]
    by_cases hs : step.onTrue.slot = slot
    · subst hs
      rw [addTo, Function.update_self, if_pos rfl, add_assoc]
    · rw [addTo, Function.update_of_ne (Ne.symm hs), if_neg hs, zero_add]

theorem slotSum_split (closed : ConditionalStep → Option (BitVec 32))
    (g : ConditionalStep → BitVec 32) (hc : ∀ step ∈ steps, ∀ x ∈ closed step, x = g step)
    (slot : Slot) :
    slotSum (fun step => (closed step).getD 0) steps slot +
        slotSum g (steps.filter fun step => (closed step).isNone) slot =
      slotSum g steps slot := by
  induction steps with
  | nil => simp [slotSum]
  | cons step steps ih =>
    have ih := ih fun s hs => hc s (List.mem_cons_of_mem step hs)
    rw [slotSum_cons, slotSum_cons, ← ih]
    cases hx : closed step with
    | none =>
      rw [List.filter_cons_of_pos (by simp [hx]), slotSum_cons]
      split <;> simp [add_left_comm]
    | some x =>
      rw [List.filter_cons_of_neg (by simp [hx]), hc step (by simp) x (by simp [hx])]
      split <;> simp [add_assoc]

theorem conditionalProgramLoop_eq (hnd : accumulators.Nodup)
    (ht : ∀ step ∈ steps, accumulators[step.targetAccumulatorIndex]? = some step.onTrue.slot)
    (hparsed : ∀ step ∈ steps, StepParsed step) {i : Int} (hi : 0 ≤ i) {n : Nat}
    (hn : i + n ≤ int32Max)
    (hthr : ∀ step ∈ steps, step.compareSlot = none → t step = step.conditionValue)
    (w : Slot → BitVec 32) :
    conditionalProgramLoop i (i + n) (steps.map fun step => (step, t step))
        (accumulators.map w) =
      accumulators.map fun slot =>
        w slot + slotSum (fun step => stepSum step i (t step) n) steps slot := by
  have hclosed : ∀ step ∈ steps, ∀ x ∈ step.closed i (i + n) (t step),
      x = stepSum step i (t step) n := by
    intro step hs x hx
    refine closed_eq hi hn ?_ hx
    intro hk
    obtain ⟨hnone, h0, hmax⟩ := (hparsed step hs).mask hk
    rw [hthr step hs hnone]
    exact ⟨h0, hmax⟩
  have hcount : (i + n - i).toNat = n := by omega
  have hfilter : (steps.map fun step => (step, t step)).filter
      (fun s => (s.1.closed i (i + n) s.2).isNone) =
      (steps.filter fun step => (step.closed i (i + n) (t step)).isNone).map
        fun step => (step, t step) := by
    rw [List.filter_map]
    rfl
  simp only [conditionalProgramLoop, hcount, hfilter, List.foldl_map]
  rw [addAt_foldl hnd _ steps ht]
  have hsub : ∀ step ∈ steps.filter fun step => (step.closed i (i + n) (t step)).isNone,
      accumulators[step.targetAccumulatorIndex]? = some step.onTrue.slot := fun step hs =>
    ht step (List.mem_filter.mp hs).1
  -- After `m` iterations the steps without a closed form have added `m` times.
  refine Eq.trans (forUp_induction
    (P := fun m values => values = accumulators.map fun slot =>
      (w slot + slotSum (fun step => (step.closed i (i + n) (t step)).getD 0) steps slot) +
        slotSum (fun step => stepSum step i (t step) m)
          (steps.filter fun step => (step.closed i (i + n) (t step)).isNone) slot)
    (by simp [slotSum, stepSum]) ?_) ?_
  · rintro m values - rfl
    rw [addAt_foldl hnd _ _ hsub]
    apply List.map_congr_left
    intro slot _
    rw [add_assoc, ← slotSum_add]
    rfl
  · apply List.map_congr_left
    intro slot _
    rw [add_assoc, slotSum_split _ _ hclosed]

end

theorem conditionalProgramLoop_second (i limit : Int) {steps : List (ConditionalStep × Int)}
    (ht : ∀ s ∈ steps, s.1.targetAccumulatorIndex = 0) (x y : BitVec 32) :
    ∃ x', conditionalProgramLoop i limit steps [x, y] = [x', y] := by
  have hfold : ∀ (l : List (ConditionalStep × Int)) (g : ConditionalStep × Int → BitVec 32),
      (∀ s ∈ l, s.1.targetAccumulatorIndex = 0) → ∀ x, ∃ x',
        l.foldl (fun values s => addAt values s.1.targetAccumulatorIndex (g s)) [x, y] =
          [x', y] := by
    intro l g hl
    induction l with
    | nil => exact fun x => ⟨x, rfl⟩
    | cons s l ih =>
      intro x
      obtain ⟨x', hx⟩ := ih (fun r hr => hl r (List.mem_cons_of_mem s hr)) (x + g s)
      refine ⟨x', ?_⟩
      rw [List.foldl_cons, hl s (by simp)]
      exact hx
  obtain ⟨x1, hx1⟩ := hfold steps (fun s => (s.1.closed i limit s.2).getD 0) ht x
  simp only [conditionalProgramLoop, hx1]
  refine forUp_invariant (P := fun values => ∃ x', values = [x', y]) ⟨x1, rfl⟩ ?_
  rintro m values - ⟨x', rfl⟩
  exact hfold _ _ (fun s hs => ht s (List.mem_filter.mp hs).1) x'

theorem conditionalLoop_eq (i : Int) (n : Nat) (step : ConditionalStep) (x : BitVec 32) :
    conditionalLoop i (i + n) step x = x + stepSum step i step.conditionValue n := by
  have hcount : (i + n - i).toNat = n := by omega
  rw [conditionalLoop, hcount]
  refine forUp_induction (P := fun m y => y = x + stepSum step i step.conditionValue m)
    (by simp [stepSum]) ?_
  rintro m y - rfl
  rw [stepSum, add_assoc]

theorem threshold_int32Frame (w : Slot → BitVec 32) (step : ConditionalStep) :
    step.threshold (int32Frame w) = some (step.thresholdIn w) := by
  unfold ConditionalStep.threshold ConditionalStep.thresholdIn frameLimit
  cases step.compareSlot with
  | none => rfl
  | some slot => exact intValue_ofBits _

theorem thresholds_int32Frame {w : Slot → BitVec 32} {count : Nat}
    {steps : List ConditionalStep} {thresholds : List Int}
    (h : (steps.mapM fun step => if step.targetAccumulatorIndex ≥ count then none
      else step.threshold (int32Frame w)) = some thresholds) :
    steps.zip thresholds = steps.map fun step => (step, step.thresholdIn w) := by
  induction steps generalizing thresholds with
  | nil => rfl
  | cons step steps ih =>
    rw [List.mapM_cons] at h
    simp only [Option.bind_eq_bind, Option.bind_eq_some_iff, Option.pure_def,
      Option.some.injEq] at h
    obtain ⟨x, hx, rest, hrest, rfl⟩ := h
    split at hx
    · cases hx
    · rw [threshold_int32Frame, Option.some.injEq] at hx
      rw [List.zip_cons_cons, ih hrest, List.map_cons, hx]

def ConditionalMode (p : ScalarLoopProgram) : Prop :=
  p.mode = .conditionalInt32 ∨ p.mode = .conditionalProgramInt32

/-- A program of one step whose threshold is a slot. The runner writes its accumulator twice,
the second time with its first value. -/
def OneSlotStep (p : ScalarLoopProgram) : Prop :=
  ∃ step, p.conditionalSteps = [step] ∧ step.compareSlot ≠ none

inductive ConditionalShape (p : ScalarLoopProgram) (c : ConditionalProgram) : Prop where
  | single (step : ConditionalStep) (hm : p.mode = .conditionalInt32)
      (hs : p.conditionalSteps = [step]) (hc : step.compareSlot = none)
      (ha : p.accumulatorSlot = step.onTrue.slot)
  | slotStep (step : ConditionalStep) (hm : p.mode = .conditionalProgramInt32)
      (hs : p.conditionalSteps = [step]) (hc : step.compareSlot ≠ none)
      (ht : step.targetAccumulatorIndex = 0)
      (ha : p.intAccumulators = [step.onTrue, step.onFalse])
  | program (hm : p.mode = .conditionalProgramInt32)
      (hs : ¬ ∃ step, p.conditionalSteps = [step])
      (ha : p.intAccumulators.map (·.slot) = c.accumulators)

theorem single_accumulator {c : ConditionalProgram} (hc : ProgramParsed c) {slot : Slot}
    {step : ConditionalStep} (ha : c.accumulators = [slot]) (hs : step ∈ c.steps) :
    step.targetAccumulatorIndex = 0 ∧ slot = step.onTrue.slot := by
  have ht := hc.target step hs
  rw [ha] at ht
  obtain ⟨hlt, hget⟩ := List.getElem?_eq_some_iff.mp ht
  have hzero : step.targetAccumulatorIndex = 0 := by simpa using hlt
  simp only [hzero, List.getElem_cons_zero] at hget
  exact ⟨hzero, hget⟩

theorem detectScalarLoop_conditional {target source : Nat} {p : ScalarLoopProgram}
    (hp : detectScalarLoop b target source = some p) (hm : ConditionalMode p) :
    ∃ header next c, parseHeader b target = some header ∧ 0 ≤ header.resume ∧
      Implements ops b header.body next (effects p.induction p.conditionalSteps) ∧
      parseTail b p.induction target source next = some () ∧ p.induction < b.varCount ∧
      p.induction = header.induction ∧ p.limit = header.limit ∧
      p.limitSlot = header.limitSlot ∧ p.resume = header.resume.toNat ∧
      ProgramParsed c ∧ c.steps = p.conditionalSteps ∧ ConditionalShape p c := by
  obtain ⟨header, body, hh, hb, ht, hr, hv, rfl⟩ := detectScalarLoop_parts hp
  rcases hc : parseConditionalSteps b header.induction scalarMaxConditionalSteps ⟨[], []⟩
    header.body with ⟨c, q⟩
  have hempty : ProgramParsed ⟨[], []⟩ := ⟨List.nodup_nil, by simp, by simp, Nat.le_refl 0⟩
  obtain ⟨hparsed, new, hnew, himp⟩ := parseConditionalSteps_implements ops hempty hc
  simp only [List.nil_append] at hnew
  subst hnew
  have hbody : conditionalBody c q = some body := by
    simp only [parseBody, hc] at hb
    split at hb
    · rename_i body' hbody
      rw [hbody, hb]
    · -- A recurrence has none of the conditional modes.
      simp only [recurrenceBody, Option.bind_eq_bind, Option.bind_eq_some_iff] at hb
      obtain ⟨r, -, hif⟩ := hb
      split at hif
      · cases hif
      · simp only [Option.some.injEq] at hif
        subst hif
        simp only [ConditionalMode, recurrenceMode] at hm
        split_ifs at hm <;> simp at hm
  unfold conditionalBody at hbody
  split at hbody
  · rename_i slot step hacc hsteps
    simp only [Option.some.injEq] at hbody
    subst hbody
    have hmem : step ∈ c.steps := by simp [hsteps]
    obtain ⟨hzero, hslot⟩ := single_accumulator hparsed hacc hmem
    rw [hsteps] at himp
    refine ⟨header, q, c, hh, hr, himp, ht, hv, rfl, rfl, rfl, rfl, hparsed, hsteps, ?_⟩
    by_cases hnone : step.compareSlot = none
    · exact .single step (by simp [hnone]) rfl hnone hslot
    · exact .slotStep step (by simp [hnone]) rfl hnone hzero rfl
  · rename_i slot rest step steps hnot hacc hsteps
    simp only [Option.some.injEq] at hbody
    subst hbody
    refine ⟨header, q, c, hh, hr, himp, ht, hv, rfl, rfl, rfl, rfl, hparsed, rfl, ?_⟩
    refine .program rfl ?_ (by simp [Function.comp_def])
    rintro ⟨s, hs⟩
    have hb := hparsed.bounded
    simp only at hs
    rw [hs, hacc] at hb
    simp only [List.length_cons, List.length_nil] at hb
    have hrest : rest = [] := List.eq_nil_of_length_eq_zero (by omega)
    rw [hsteps] at hs
    simp only [List.cons.injEq] at hs
    exact hnot hrest hs.2
  · cases hbody

def ConditionalApart (p : ScalarLoopProgram) : Prop :=
  StepsApart p.induction p.conditionalSteps ∧
    ∀ slot ∈ p.limitSlot, slot ∉ p.conditionalSteps.map (·.onTrue.slot)

/-- When the runner is faithful on a frame: the 16-bit frame indices are exact, and either no
iteration is left, or the slots are apart and the program is no single step with a slot as
its threshold, or its updates cancel out. -/
def ConditionalFaithful (b : FunctionBytecode) (p : ScalarLoopProgram) (w : Slot → BitVec 32) :
    Prop :=
  FramesIndexed b p ∧ (p.start w = p.stop w ∨ ConditionalApart p ∧
    (OneSlotStep p → ∀ step ∈ p.conditionalSteps,
      stepSum step (p.start w) (step.thresholdIn w) (p.stop w - p.start w).toNat = 0))

section

variable {p : ScalarLoopProgram} {c : ConditionalProgram} {w : Slot → BitVec 32}
  {targets : List Slot} {values : List (BitVec 32)}

def ScalarLoopProgram.added (p : ScalarLoopProgram) (w : Slot → BitVec 32) (slot : Slot) :
    BitVec 32 :=
  slotSum (fun step => stepSum step (p.start w) (step.thresholdIn w)
    (p.stop w - p.start w).toNat) p.conditionalSteps slot

theorem conditional_stores (hc : ProgramParsed c) (hsteps : c.steps = p.conditionalSteps)
    (hshape : ConditionalShape p c) (h0 : 0 ≤ p.start w) (hle : p.start w ≤ p.stop w)
    (hmax : p.stop w ≤ int32Max)
    (hv : scalarLoopValues p (int32Frame w) (p.start w) (p.stop w) = some (targets, values))
    (slot : Slot) :
    (OneSlotStep p → assign w targets values slot = w slot) ∧
      (¬ OneSlotStep p → assign w targets values slot = w slot + p.added w slot) := by
  obtain ⟨n, hn⟩ : ∃ n : Nat, p.stop w = p.start w + n := ⟨(p.stop w - p.start w).toNat, by omega⟩
  have hcount : (p.stop w - p.start w).toNat = n := by omega
  unfold ScalarLoopProgram.added
  rw [hcount]
  simp only [scalarLoopValues, readAccumulators_int32Frame] at hv
  cases hshape with
  | single step hm hs hnone ha =>
    rw [hm] at hv
    simp only [hs, List.head?_cons, Option.bind_eq_bind, Option.bind_some, int32Frame,
      intValue_ofBits, Option.some.injEq, Prod.mk.injEq, toBits_toInt, hn, conditionalLoop_eq] at hv
    obtain ⟨rfl, rfl⟩ := hv
    constructor
    · rintro ⟨s, hs', hc'⟩
      rw [hs] at hs'
      simp only [List.cons.injEq, and_true] at hs'
      exact absurd (hs' ▸ hnone) hc'
    · intro _
      have hthr : step.thresholdIn w = step.conditionValue := by
        simp [ConditionalStep.thresholdIn, hnone, frameLimit]
      rw [hs, slotSum_cons, hthr, ha]
      by_cases he : slot = step.onTrue.slot
      · subst he
        simp [assign, slotSum]
      · simp [assign, slotSum, he, Ne.symm he]
  | slotStep step hm hs hsome ht ha =>
    have hone : OneSlotStep p := ⟨step, hs, hsome⟩
    refine ⟨fun _ => ?_, fun h => absurd hone h⟩
    have hslot := (hc.parsed step (by simp [hsteps, hs])).slot
    rw [hm] at hv
    simp only at hv
    split at hv
    · cases hv
    · simp only [Option.bind_eq_bind, Option.bind_some, Option.bind_eq_some_iff] at hv
      obtain ⟨thresholds, hthr, he⟩ := hv
      simp only [Option.some.injEq, Prod.mk.injEq] at he
      obtain ⟨rfl, rfl⟩ := he
      rw [thresholds_int32Frame hthr, ha]
      simp only [List.map_cons, List.map_nil, hslot]
      have hzero : ∀ s ∈ p.conditionalSteps.map fun step => (step, step.thresholdIn w),
          s.1.targetAccumulatorIndex = 0 := by simp [hs, ht]
      obtain ⟨x', hx'⟩ := conditionalProgramLoop_second (p.start w) (p.stop w) hzero
        (w step.onTrue.slot) (w step.onTrue.slot)
      rw [hx']
      by_cases he : slot = step.onTrue.slot
      · subst he
        simp [assign]
      · simp [assign, he]
  | program hm hs ha =>
    have hnot : ¬ OneSlotStep p := by
      rintro ⟨step, hstep, -⟩
      exact hs ⟨step, hstep⟩
    refine ⟨fun h => absurd h hnot, fun _ => ?_⟩
    rw [hm] at hv
    simp only at hv
    split at hv
    · cases hv
    · simp only [Option.bind_eq_bind, Option.bind_some, Option.bind_eq_some_iff] at hv
      obtain ⟨thresholds, hthr, he⟩ := hv
      simp only [Option.some.injEq, Prod.mk.injEq] at he
      obtain ⟨rfl, rfl⟩ := he
      rw [thresholds_int32Frame hthr, ha, hn,
        conditionalProgramLoop_eq hc.distinct (fun s hs => hc.target s (hsteps ▸ hs))
          (fun s hs => hc.parsed s (hsteps ▸ hs)) h0 (by omega)
          (fun s _ hnone => by simp [ConditionalStep.thresholdIn, hnone, frameLimit]),
        assign_map]
      split
      · rfl
      · rename_i hmem
        rw [slotSum_other, add_zero]
        intro hstep
        obtain ⟨s, hs', rfl⟩ := List.mem_map.mp hstep
        exact hmem (List.mem_of_getElem? (hc.target s (hsteps ▸ hs')))

end

def ScalarLoopProgram.conditioned (p : ScalarLoopProgram) (w : Slot → BitVec 32) :
    Slot → BitVec 32 :=
  (iteration p.induction (effects p.induction p.conditionalSteps))^[
    (p.stop w - p.start w).toNat] w

section

variable {p : ScalarLoopProgram} {c : ConditionalProgram} {w : Slot → BitVec 32}
  {targets : List Slot} {values : List (BitVec 32)}

theorem conditional_stores_at_limit (hc : ProgramParsed c)
    (hsteps : c.steps = p.conditionalSteps) (hshape : ConditionalShape p c)
    (h0 : 0 ≤ p.start w) (he : p.start w = p.stop w) (hmax : p.stop w ≤ int32Max)
    (hv : scalarLoopValues p (int32Frame w) (p.start w) (p.stop w) = some (targets, values)) :
    Function.update (assign w targets values) ⟨.local, p.induction⟩ (toBits (p.stop w)) = w := by
  funext slot
  by_cases hs : slot = ⟨.local, p.induction⟩
  · subst hs
    rw [Function.update_self, ← he, ScalarLoopProgram.start, toBits_toInt]
  · rw [Function.update_of_ne hs]
    obtain ⟨h1, h2⟩ := conditional_stores hc hsteps hshape h0 (Int.le_of_eq he) hmax hv slot
    by_cases hone : OneSlotStep p
    · exact h1 hone
    · have hzero : p.added w slot = 0 := by
        simp [ScalarLoopProgram.added, he, slotSum, stepSum]
      rw [h2 hone, hzero, add_zero]

theorem conditional_stores_apart_iff (hc : ProgramParsed c)
    (hsteps : c.steps = p.conditionalSteps) (hshape : ConditionalShape p c)
    (ha : ConditionalApart p) (hl : p.limit ≤ int32Max) (h0 : 0 ≤ p.start w)
    (hlt : p.start w < p.stop w)
    (hv : scalarLoopValues p (int32Frame w) (p.start w) (p.stop w) = some (targets, values)) :
    Function.update (assign w targets values) ⟨.local, p.induction⟩ (toBits (p.stop w)) =
      p.conditioned w ↔
      (OneSlotStep p → ∀ step ∈ p.conditionalSteps,
        stepSum step (p.start w) (step.thresholdIn w) (p.stop w - p.start w).toNat = 0) := by
  have hmax := frameLimit_le hl p.limitSlot w
  have hne : ⟨.local, p.induction⟩ ∉ p.limitSlot := by
    intro he
    simp only [ScalarLoopProgram.start, ScalarLoopProgram.stop, Option.mem_def.mp he,
      frameLimit] at hlt
    omega
  obtain ⟨n, hn⟩ : ∃ n : Nat, p.stop w = p.start w + n := ⟨(p.stop w - p.start w).toNat, by omega⟩
  have hcount : (p.stop w - p.start w).toNat = n := by omega
  have hind : p.conditioned w ⟨.local, p.induction⟩ = toBits (p.stop w) := by
    have hw := (iterations_control (effects_keepsControl ha.1 ha.2) w hne hmax n
      (Int.le_of_eq hn.symm)).1
    rw [hn, ScalarLoopProgram.start, ← hw, toBits_toInt, ScalarLoopProgram.conditioned, hcount]
  have hother : ∀ slot, slot ≠ ⟨.local, p.induction⟩ →
      p.conditioned w slot = w slot + p.added w slot := by
    intro slot hs
    rw [ScalarLoopProgram.conditioned, ScalarLoopProgram.added, hcount]
    exact iterations_effects ha.1 ha.2 w hne hmax n (Int.le_of_eq hn.symm) hs
  have hstores := conditional_stores hc hsteps hshape h0 (Int.le_of_lt hlt) hmax hv
  by_cases hone : OneSlotStep p
  · obtain ⟨step, hstep, hsome⟩ := hone
    have hslot : step.onTrue.slot ≠ ⟨.local, p.induction⟩ := by
      intro he
      exact ha.1.control (by simp [hstep, he])
    have hadded : ∀ slot, p.added w slot = if step.onTrue.slot = slot then
        stepSum step (p.start w) (step.thresholdIn w) (p.stop w - p.start w).toNat else 0 := by
      intro slot
      simp [ScalarLoopProgram.added, hstep, slotSum]
    simp only [show OneSlotStep p from ⟨step, hstep, hsome⟩, hstep, List.mem_singleton, forall_eq,
      forall_const]
    constructor
    · intro heq
      have hat := congrFun heq step.onTrue.slot
      rw [Function.update_of_ne hslot, (hstores _).1 ⟨step, hstep, hsome⟩, hother _ hslot,
        hadded, if_pos rfl] at hat
      simpa using hat
    · intro hzero
      funext slot
      by_cases hs : slot = ⟨.local, p.induction⟩
      · subst hs
        rw [Function.update_self, hind]
      · rw [Function.update_of_ne hs, (hstores _).1 ⟨step, hstep, hsome⟩, hother _ hs, hadded,
          hzero, ite_self, add_zero]
  · simp only [hone, false_implies, iff_true]
    funext slot
    by_cases hs : slot = ⟨.local, p.induction⟩
    · subst hs
      rw [Function.update_self, hind]
    · rw [Function.update_of_ne hs, (hstores slot).2 hone, hother slot hs]

theorem conditional_targets (hshape : ConditionalShape p c) (hi : FramesIndexed b p)
    {i limit : Int}
    (hv : scalarLoopValues p (int32Frame w) i limit = some (targets, values)) :
    ∀ slot ∈ targets, FrameIndexed b slot := by
  have hitems : ∀ slot ∈ p.intAccumulators.map (·.slot), FrameIndexed b slot := by
    intro slot hs
    obtain ⟨item, hitem, rfl⟩ := List.mem_map.mp hs
    exact hi.2.2 item hitem
  have hprogram : p.mode = .conditionalProgramInt32 → targets = p.intAccumulators.map (·.slot) := by
    intro hm
    simp only [scalarLoopValues, hm] at hv
    split at hv
    · cases hv
    · simp only [Option.bind_eq_bind, Option.bind_eq_some_iff, Option.some.injEq,
        Prod.mk.injEq] at hv
      obtain ⟨xs, -, ts, -, ht, -⟩ := hv
      exact ht.symm
  cases hshape with
  | single step hm hs hnone ha =>
    simp only [scalarLoopValues, hm, Option.bind_eq_bind, Option.bind_eq_some_iff,
      Option.some.injEq, Prod.mk.injEq] at hv
    obtain ⟨s, -, x, -, rfl, -⟩ := hv
    simp only [List.mem_singleton, forall_eq]
    exact hi.2.1
  | slotStep step hm hs hsome ht ha => exact hprogram hm ▸ hitems
  | program hm hs ha => exact hprogram hm ▸ hitems

end

/-- Conditional loops: a completed run agrees with the interpreted loop when the runner is
faithful on the frame, and on slots that are apart only then. -/
theorem conditional_loop_agrees_iff {target source : Nat} {p : ScalarLoopProgram}
    (hp : detectScalarLoop b target source = some p) (hm : ConditionalMode p)
    (w : Slot → BitVec 32) (st : List JSValue) (h : H) {out : OSRExit}
    (hrun : runScalarLoop b p (int32Frame w) = some out) :
    (ConditionalFaithful b p w → Agrees ops b target source (onFrame target st w h) out) ∧
      (FramesIndexed b p → ConditionalApart p → (p.resume < target ∨ source < p.resume) →
        Agrees ops b target source (onFrame target st w h) out → ConditionalFaithful b p w) := by
  obtain ⟨header, next, c, hh, hr, hbody, ht, hv, hi, hlim, hls, hres, hparsed, hsteps, hshape⟩ :=
    detectScalarLoop_conditional ops hp hm
  have hl : p.limit ≤ int32Max := hlim ▸ (parseHeader_segment ops hh hr).2.1
  have hmax := frameLimit_le hl p.limitSlot w
  rw [hi] at ht
  have hdone : p.start w = p.stop w → Segment ops b target (source + 1)
      (onFrame target st w h) (onFrame p.resume st w h) := by
    intro he
    rw [hres]
    refine loop_segment_done ops hh hr hbody ht w st h ?_
    rw [← hi, ← hlim, ← hls]
    exact he
  have hloop : ConditionalApart p → p.start w ≤ p.stop w → ∃ st',
      Segment ops b target (source + 1) (onFrame target st w h)
        (onFrame p.resume st' (p.conditioned w) h) := by
    intro ha hle
    have hf := effects_keepsControl ha.1 ha.2
    rw [hi] at hbody
    rw [hls] at hf
    rw [hi] at hf
    obtain ⟨st', hs⟩ := loop_segment ops hh hr hbody ht hf w st h
      (p.stop w - p.start w).toNat (by
        rw [← hlim, ← hls, ← hi]
        simp only [ScalarLoopProgram.start, ScalarLoopProgram.stop] at hle ⊢
        omega)
    refine ⟨st', ?_⟩
    rw [ScalarLoopProgram.conditioned, hres, hi]
    exact hs
  constructor
  · rintro ⟨hfi, hcase⟩
    obtain ⟨h0, hle, hresume, targets, values, hvals, hout⟩ := runScalarLoop_outcome hfi hv hl hrun
    have hout := hout (conditional_targets hshape hfi hvals)
    by_cases he : p.start w = p.stop w
    · refine ⟨_, hdone he, hresume.symm, ?_⟩
      rw [hout, conditional_stores_at_limit hparsed hsteps hshape h0 he hmax hvals]
      rfl
    · rcases hcase with hcase | ⟨ha, hkeeps⟩
      · exact absurd hcase he
      · obtain ⟨st', hs⟩ := hloop ha hle
        refine ⟨_, hs, hresume.symm, ?_⟩
        rw [hout, (conditional_stores_apart_iff hparsed hsteps hshape ha hl h0 (by omega)
          hvals).mpr hkeeps]
        rfl
  · intro hfi ha houtside hagree
    refine ⟨hfi, ?_⟩
    by_cases he : p.start w = p.stop w
    · exact .inl he
    · refine .inr ⟨ha, ?_⟩
      obtain ⟨h0, hle, hresume, targets, values, hvals, hout⟩ :=
        runScalarLoop_outcome hfi hv hl hrun
      have hout := hout (conditional_targets hshape hfi hvals)
      obtain ⟨st', hs⟩ := hloop ha hle
      obtain ⟨t, hst, hpc, hslots⟩ := hagree
      have hexit := Runs.exit_unique hst hs (by simp only [hpc, hresume]; omega)
        (by simp only [onFrame_pc]; omega)
      subst hexit
      rw [hout] at hslots
      refine (conditional_stores_apart_iff hparsed hsteps hshape ha hl h0 (by omega) hvals).mp ?_
      funext slot
      exact (ofBits_injective (congrFun hslots slot)).symm

/-- `for (; i < 3; i++) if (i < t) acc = (acc + 1) | 0; else acc = (acc + 2) | 0`, with the
opcode that pushes `t` as a parameter. -/
def thresholdLoop (push : UInt8) : FunctionBytecode where
  code := [97, 0, 0, 190, 166, 241, 36, 97, 0, 0, push, 166, 241, 11,
    205, 188, 157, 187, 164, 17, 209, 14, 243, 9, 205, 189, 157, 187, 164, 17, 209, 14,
    97, 0, 0, 144, 98, 0, 0, 14, 243, 215]
  cpool := []
  argCount := 0
  varCount := 3

def thresholdStep (value : Int) (slot : Option Slot) : ConditionalStep :=
  ⟨.lt, value, slot, 0, ⟨⟨.local, 1⟩, .constant 1, false⟩, ⟨⟨.local, 1⟩, .constant 2, false⟩⟩

def thresholdProgram (mode : ScalarLoopMode) (step : ConditionalStep) : ScalarLoopProgram :=
  ⟨0, 3, none, mode, ⟨.local, 1⟩, [step.onTrue, step.onFalse], [step], 0, 42⟩

theorem constant_threshold_agrees :
    detectScalarLoop (thresholdLoop 188) 0 40 =
        some (thresholdProgram .conditionalInt32 (thresholdStep 1 none)) ∧
      ∃ out, runScalarLoop (thresholdLoop 188)
          (thresholdProgram .conditionalInt32 (thresholdStep 1 none))
          (int32Frame fun _ => 0) = some out ∧
        ConditionalFaithful (thresholdLoop 188)
          (thresholdProgram .conditionalInt32 (thresholdStep 1 none)) (fun _ => 0) ∧
        Agrees noHeap (thresholdLoop 188) 0 40 (onFrame 0 [] (fun _ => 0) ()) out := by
  have hp : detectScalarLoop (thresholdLoop 188) 0 40 =
      some (thresholdProgram .conditionalInt32 (thresholdStep 1 none)) := by
    decide +kernel
  have hfaithful : ConditionalFaithful (thresholdLoop 188)
      (thresholdProgram .conditionalInt32 (thresholdStep 1 none)) (fun _ => 0) := by
    refine ⟨by decide, .inr ⟨⟨⟨by decide, ?_⟩, ?_⟩, ?_⟩⟩
    · intro step hstep slot hslot
      simp only [thresholdProgram, List.mem_singleton] at hstep
      subst hstep
      cases hslot
    · intro slot hslot
      cases hslot
    · rintro ⟨step, hstep, hsome⟩
      simp only [thresholdProgram, List.cons.injEq, and_true] at hstep
      exact absurd (hstep ▸ rfl) hsome
  refine ⟨hp, _, rfl, hfaithful, ?_⟩
  exact (conditional_loop_agrees_iff noHeap hp (.inl rfl) (fun _ => 0) [] () rfl).1 hfaithful

/-- A single step whose threshold is a slot: with all slots zero the runner leaves the
accumulator at 0 and the interpreter at 6. -/
theorem slot_threshold_drops_the_update :
    ¬ ∀ (b : FunctionBytecode) (target source : Nat) (p : ScalarLoopProgram)
      (w : Slot → BitVec 32) (out : OSRExit), detectScalarLoop b target source = some p →
      ConditionalMode p → runScalarLoop b p (int32Frame w) = some out →
      Agrees noHeap b target source (onFrame target [] w ()) out := by
  intro hall
  have hp : detectScalarLoop (thresholdLoop 206) 0 40 = some (thresholdProgram
      .conditionalProgramInt32 (thresholdStep 0 (some ⟨.local, 2⟩))) := by
    decide +kernel
  obtain ⟨out, hrun⟩ : ∃ out, runScalarLoop (thresholdLoop 206) (thresholdProgram
      .conditionalProgramInt32 (thresholdStep 0 (some ⟨.local, 2⟩)))
      (int32Frame fun _ => 0) = some out := ⟨_, rfl⟩
  obtain ⟨t, hst, hpc, hslots⟩ := hall _ _ _ _ _ _ hp (.inr rfl) hrun
  have hvalue : (runScalarLoop (thresholdLoop 206) (thresholdProgram
      .conditionalProgramInt32 (thresholdStep 0 (some ⟨.local, 2⟩)))
      (int32Frame fun _ => 0)).map (fun out => (out.resume, out.slots ⟨.local, 1⟩)) =
      some (42, .number 0) := by
    decide +kernel
  simp only [hrun, Option.map_some, Option.some.injEq, Prod.mk.injEq] at hvalue
  have hadvance := advance_runs (step noHeap (thresholdLoop 206))
    (fun s => decide (0 ≤ s.pc ∧ s.pc < 41)) 100 (onFrame 0 [] (fun _ => 0) ())
  simp only [decide_eq_true_eq] at hadvance
  have hend : ((advance (step noHeap (thresholdLoop 206))
      (fun s => decide (0 ≤ s.pc ∧ s.pc < 41)) 100 (onFrame 0 [] (fun _ => 0) ())).pc = 42) ∧
      (advance (step noHeap (thresholdLoop 206))
        (fun s => decide (0 ≤ s.pc ∧ s.pc < 41)) 100
        (onFrame 0 [] (fun _ => 0) ())).slots ⟨.local, 1⟩ = .number 6 := by
    decide +kernel
  have hsame := Runs.exit_unique hst hadvance (by rw [hpc, hvalue.1]; decide)
    (by rw [hend.1]; decide)
  rw [← hsame, hslots, hvalue.2] at hend
  exact absurd hend.2 (by decide)

end TurboJS.OSR
