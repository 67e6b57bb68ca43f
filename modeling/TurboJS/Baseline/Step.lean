import TurboJS.Baseline.Instruction

namespace TurboJS.Baseline

open IR Foundation

section

variable {w : World} {f : Function} {code ops : List Op} {W : Set Nat} {fr : Frame}
  {n k : Nat} {m : Machine} {i : Instruction}

theorem computes_argument (harg : m.gpr 11 = .pointer .arguments) (arg : Nat) :
    Computes w f [.loadArg 0 arg] m (w.arguments.getD arg 0) := by
  refine ⟨m.set 0 (.word (w.arguments.getD arg 0)), ?_, .set m (by omega) _, by simp⟩
  simp [execAll_cons, exec, harg]

theorem computes_constant (v : Word) : Computes w f [.movImm64 0 v] m v :=
  ⟨m.set 0 (.word v), rfl, .set m (by omega) _, by simp⟩

theorem computes_cell (disp : Int) : Computes w f [.loadFrame 0 disp] m (m.frame disp) :=
  ⟨m.set 0 (.word (m.frame disp)), rfl, .set m (by omega) _, by simp⟩

theorem execAll_operandsF64 (w : World) (f : Function) (i : Instruction) (m : Machine) :
    ∃ m', execAll w f [loadSlot 0 i.left, loadSlot 1 i.right, .movqXmmGpr 0 0, .movqXmmGpr 1 1] m =
        some m' ∧ Scratched m m' ∧ m'.xmm 0 = m.frame (slotDisp i.left) ∧
      m'.xmm 1 = m.frame (slotDisp i.right) := by
  have hexec : execAll w f
      [loadSlot 0 i.left, loadSlot 1 i.right, .movqXmmGpr 0 0, .movqXmmGpr 1 1] m =
      some ((((m.set 0 (.word (m.frame (slotDisp i.left)))).set 1
        (.word (m.frame (slotDisp i.right)))).setXmm 0 (m.frame (slotDisp i.left))).setXmm 1
          (m.frame (slotDisp i.right))) := by
    simp [execAll_cons, loadSlot, exec, Machine.word]
  refine ⟨_, hexec, ?_, by simp, by simp⟩
  exact (((Scratched.set m (by omega) _).trans (.set _ (by omega) _)).trans (.setXmm _ _ _)).trans
    (.setXmm _ _ _)

theorem computes_f64 (op : F64Op) :
    Computes w f ([loadSlot 0 i.left, loadSlot 1 i.right, .movqXmmGpr 0 0, .movqXmmGpr 1 1] ++
        ([.scalarF64 op 0 1, .movqGprXmm 0 0] : List Op)) m
      (f64Operation w.env op (m.frame (slotDisp i.left)) (m.frame (slotDisp i.right))) := by
  obtain ⟨m₁, h₁, hs, hl, hr⟩ := execAll_operandsF64 w f i m
  refine ⟨(m₁.setXmm 0 (f64Operation w.env op (m₁.xmm 0) (m₁.xmm 1))).set 0
    (.word (f64Operation w.env op (m₁.xmm 0) (m₁.xmm 1))), ?_, ?_, by simp [hl, hr]⟩
  · rw [execAll_append, h₁]
    simp [execAll_cons, exec]
  · exact (hs.trans (.setXmm _ _ _)).trans (.set _ (by omega) _)

theorem computes_comparisonF64 (p : F64Predicate) :
    Computes w f ([loadSlot 0 i.left, loadSlot 1 i.right, .movqXmmGpr 0 0, .movqXmmGpr 1 1] ++
        ([.compareF64 p 0 1, .movqGprXmm 0 0, .andEaxOne] : List Op)) m
      (ofBool (f64Compare w.env p (m.frame (slotDisp i.left)) (m.frame (slotDisp i.right)))) := by
  obtain ⟨m₁, h₁, hs, hl, hr⟩ := execAll_operandsF64 w f i m
  generalize hv : (if f64Compare w.env p (m₁.xmm 0) (m₁.xmm 1) then -1 else 0 : Word) = v
  have hand : v &&& 1 =
      ofBool (f64Compare w.env p (m.frame (slotDisp i.left)) (m.frame (slotDisp i.right))) := by
    rw [← hv, hl, hr]
    cases f64Compare w.env p (m.frame (slotDisp i.left)) (m.frame (slotDisp i.right)) <;> decide
  refine ⟨(((m₁.setXmm 0 v).set 0 (.word v)).set 0 (.word (v &&& 1))).setFlags none, ?_, ?_, ?_⟩
  · rw [execAll_append, h₁]
    simp [execAll_cons, exec, Machine.word, ← hv]
  · exact (((hs.trans (.setXmm _ _ _)).trans (.set _ (by omega) _)).trans
      (.set _ (by omega) _)).trans (.setFlags _ _)
  · rw [Machine.setFlags_gpr, Machine.set_gpr, Function.update_self, hand]

theorem computes_i64ToF64 :
    Computes w f [loadSlot 0 i.left, .cvtsi2sd 0 0, .movqGprXmm 0 0] m
      (w.env.i64ToF64 (m.frame (slotDisp i.left))) := by
  refine ⟨((m.set 0 (.word (m.frame (slotDisp i.left)))).setXmm 0
    (w.env.i64ToF64 (m.frame (slotDisp i.left)))).set 0
      (.word (w.env.i64ToF64 (m.frame (slotDisp i.left)))), ?_, ?_, by simp⟩
  · simp [execAll_cons, loadSlot, exec, Machine.word]
  · exact ((Scratched.set m (by omega) _).trans (.setXmm _ _ _)).trans (.set _ (by omega) _)

theorem computes_f64ToI64 :
    Computes w f [loadSlot 0 i.left, .movqXmmGpr 0 0, .cvttsd2si 0 0] m
      (w.env.f64ToI64 (m.frame (slotDisp i.left))) := by
  refine ⟨((m.set 0 (.word (m.frame (slotDisp i.left)))).setXmm 0
    (m.frame (slotDisp i.left))).set 0
      (.word (w.env.f64ToI64 (m.frame (slotDisp i.left)))), ?_, ?_, by simp⟩
  · simp [execAll_cons, loadSlot, exec, Machine.word]
  · exact ((Scratched.set m (by omega) _).trans (.setXmm _ _ _)).trans (.set _ (by omega) _)

theorem lowByte (a : Word) (b : Bool) : (a &&& ~~~255 ||| ofBool b) &&& 255 = ofBool b := by
  have hmask : (a &&& ~~~255) &&& 255 = (0 : Word) := by
    rw [BitVec.and_assoc, show (~~~255 &&& 255 : Word) = 0#64 by decide, BitVec.and_zero]
    rfl
  have hor : (a &&& ~~~255 ||| ofBool b) &&& 255 =
      (a &&& ~~~255) &&& 255 ||| ofBool b &&& 255 := by
    ext j
    simp only [BitVec.getElem_and, BitVec.getElem_or, Bool.and_or_distrib_right]
  have hzero : ∀ x : Word, 0 ||| x = x := fun x => BitVec.zero_or
  rw [hor, hmask, hzero]
  cases b <;> decide

theorem computes_lessThan :
    Computes w f (binaryOps i .cmp ++ ([.setlAl, .movzxRaxAl] : List Op)) m
      (ofBool ((m.frame (slotDisp i.left)).slt (m.frame (slotDisp i.right)))) := by
  generalize ha : m.frame (slotDisp i.left) = a
  generalize hb : m.frame (slotDisp i.right) = b
  refine ⟨((((m.set 0 (.word a)).set 1 (.word b)).compare a b).set 0
    (.word (a &&& ~~~255 ||| ofBool (a.slt b)))).set 0
      (.word ((a &&& ~~~255 ||| ofBool (a.slt b)) &&& 255)), ?_, ?_, ?_⟩
  · simp [binaryOps, execAll_cons, loadSlot, exec, Machine.word, Machine.compare, ha, hb]
  · exact ((((Scratched.set m (by omega) _).trans (.set _ (by omega) _)).trans
      (.setFlags _ _)).trans (.set _ (by omega) _)).trans (.set _ (by omega) _)
  · rw [Machine.set_gpr, Function.update_self, lowByte]

structure At (f : Function) (code : List Op) (k : Nat) (i : Instruction) (W : Set Nat)
    (fr : Frame) (n : Nat) (m : Machine) : Prop where
  compiled : baselineCode f = some code
  small : extent Op.size code < 2 ^ 31
  instruction : f.instructions[k]? = some i
  agrees : Agrees f W fr n m
  cells : ∀ c ∈ W, c < f.registerCount + f.localCount
  reads : ∀ c ∈ cellReads f i, c ∈ W

theorem At.checks (h : At f code k i W fr n m) : checkInstruction f i = none :=
  baselineCode_checks h.compiled h.instruction

theorem At.value (h : At f code k i W fr n m) (body : List Op) {v : Word}
    (hemit : emitInstruction f k i (branchDisp f k i) =
      some (body ++ [storeSlot i.destination 0]))
    (hd : i.destination < f.registerCount) (hw : cellWrite f i = some i.destination)
    (hp : pollsAt k i = false) (hc : Computes w f body m v) :
    Simulates w f code k (offsetOf f k) (offsetOf f (k + 1)) i W fr n m
      (.next (fr.setRegister i.destination v)) := by
  obtain ⟨ops, hops, hat, hnext⟩ := baselineCode_placed h.compiled h.instruction
  rw [hemit] at hops
  cases hops
  exact simulates_value hat hnext h.agrees hd hw hp hc

def binaryOpcodes : List Opcode :=
  [.addI64, .subI64, .mulI64, .addF64, .subF64, .mulF64, .divF64, .lessThanF64, .lessEqualF64,
    .equalF64, .addI32Checked, .subI32Checked, .mulI32Checked, .divI32Checked, .remI32Checked,
    .lessThanI64]

theorem At.binary (h : At f code k i W fr n m) (hop : i.opcode ∈ binaryOpcodes) :
    i.destination < f.registerCount ∧ cellWrite f i = some i.destination ∧ pollsAt k i = false ∧
      isCallNative i = false ∧ m.frame (slotDisp i.left) = fr.registers i.left ∧
      m.frame (slotDisp i.right) = fr.registers i.right := by
  have hcheck := h.checks
  have hreads := h.reads
  have hbounds : (i.destination < f.registerCount ∧ i.left < f.registerCount ∧
      i.right < f.registerCount) ∧ cellReads f i = [i.left, i.right] ∧
      cellWrite f i = some i.destination ∧ pollsAt k i = false ∧ isCallNative i = false := by
    simp only [binaryOpcodes, List.mem_cons, List.not_mem_nil, or_false] at hop
    rcases hop with hop | hop | hop | hop | hop | hop | hop | hop | hop | hop | hop | hop | hop |
      hop | hop | hop
    all_goals
      simp [checkInstruction, hop, validRegister] at hcheck
      simp [cellReads, cellWrite, pollsAt, isCallNative, hop]
      omega
  obtain ⟨⟨hd, hl, hr⟩, hcells, hw, hp, hn⟩ := hbounds
  rw [hcells] at hreads
  refine ⟨hd, hw, hp, hn, ?_, ?_⟩
  · exact h.agrees.register hl (hreads _ (by simp))
  · exact h.agrees.register hr (hreads _ (by simp))

theorem At.arithmetic (h : At f code k i W fr n m) (op : Nat → Nat → Op)
    {g : Word → Word → Word} (hg : Operates w f op g) (hop : i.opcode ∈ binaryOpcodes)
    (heff : nativeEffect w f k i n fr =
      .next (fr.setRegister i.destination (g (fr.registers i.left) (fr.registers i.right))))
    (hemit : emitInstruction f k i (branchDisp f k i) =
      some (binaryOps i op ++ [storeSlot i.destination 0])) :
    Simulates w f code k (offsetOf f k) (offsetOf f (k + 1)) i W fr n m
      (nativeEffect w f k i n fr) := by
  rw [heff]
  obtain ⟨hd, hw, hp, -, hl, hr⟩ := h.binary hop
  have hc := hg.computes (i := i) m
  rw [hl, hr] at hc
  exact h.value _ hemit hd hw hp hc

theorem At.checked (h : At f code k i W fr n m) (op : Nat → Nat → Op)
    {g : Word → Word → Word} (hg : Operates w f op g) (hop : i.opcode ∈ binaryOpcodes)
    (heff : nativeEffect w f k i n fr =
      checkedI32 (g (fr.registers i.left) (fr.registers i.right)) fr i.destination)
    (hemit : emitInstruction f k i (branchDisp f k i) =
      some (binaryOps i op ++ checkI32 f k ++ [storeSlot i.destination 0])) :
    Simulates w f code k (offsetOf f k) (offsetOf f (k + 1)) i W fr n m
      (nativeEffect w f k i n fr) := by
  rw [heff]
  obtain ⟨hd, hw, hp, -, hl, hr⟩ := h.binary hop
  have hc := hg.computes (i := i) m
  rw [hl, hr] at hc
  obtain ⟨ops, hops, hat, hnext⟩ := baselineCode_placed h.compiled h.instruction
  rw [hemit] at hops
  cases hops
  exact simulates_checked hat hnext h.small h.agrees h.cells hd hw hp hc

theorem At.float (h : At f code k i W fr n m) (op : F64Op) (hop : i.opcode ∈ binaryOpcodes)
    (heff : nativeEffect w f k i n fr = .next (fr.setRegister i.destination
      (f64Operation w.env op (fr.registers i.left) (fr.registers i.right))))
    (hemit : emitInstruction f k i (branchDisp f k i) = some (binaryF64 i op)) :
    Simulates w f code k (offsetOf f k) (offsetOf f (k + 1)) i W fr n m
      (nativeEffect w f k i n fr) := by
  rw [heff]
  obtain ⟨hd, hw, hp, -, hl, hr⟩ := h.binary hop
  have hc := computes_f64 (w := w) (f := f) (m := m) (i := i) op
  rw [hl, hr] at hc
  exact h.value _ hemit hd hw hp hc

theorem At.floatComparison (h : At f code k i W fr n m) (p : F64Predicate)
    (hop : i.opcode ∈ binaryOpcodes)
    (heff : nativeEffect w f k i n fr = .next (fr.setRegister i.destination
      (ofBool (f64Compare w.env p (fr.registers i.left) (fr.registers i.right)))))
    (hemit : emitInstruction f k i (branchDisp f k i) = some (comparisonF64 i p)) :
    Simulates w f code k (offsetOf f k) (offsetOf f (k + 1)) i W fr n m
      (nativeEffect w f k i n fr) := by
  rw [heff]
  obtain ⟨hd, hw, hp, -, hl, hr⟩ := h.binary hop
  have hc := computes_comparisonF64 (w := w) (f := f) (m := m) (i := i) p
  rw [hl, hr] at hc
  exact h.value _ hemit hd hw hp hc

theorem At.division (h : At f code k i W fr n m) (w : World) (wantRemainder : Bool)
    (hop : i.opcode = if wantRemainder then .remI32Checked else .divI32Checked) :
    Simulates w f code k (offsetOf f k) (offsetOf f (k + 1)) i W fr n m
      (nativeEffect w f k i n fr) := by
  have hmem : i.opcode ∈ binaryOpcodes := by
    rw [hop]
    cases wantRemainder <;> simp [binaryOpcodes]
  obtain ⟨hd, hw, hp, hn, hl, hr⟩ := h.binary hmem
  have hemit : emitInstruction f k i (branchDisp f k i) =
      some ([loadSlot 0 i.left, loadSlot 1 i.right] ++ emitDivremChecked f k wantRemainder ++
        [storeSlot i.destination 0]) := by
    cases wantRemainder <;> simp [emitInstruction, hop]
  have hfaults : divisionFaults i fr = true ↔
      fr.registers i.left = BitVec.intMin 64 ∧ fr.registers i.right = -1 := by
    cases wantRemainder <;> simp [divisionFaults, hop]
  by_cases hover : divisionFaults i fr = true
  · have heff : nativeEffect w f k i n fr = .fail .unsupported := by
      simp [nativeEffect, hp, hn, hover]
    rw [heff]
    trivial
  · have heff : nativeEffect w f k i n fr =
        if fr.registers i.right = 0 then .bail .divisionByZero
        else if wantRemainder = false ∧ fr.registers i.left = int32Min ∧
            fr.registers i.right = -1 then .bail .divisionOverflow
        else .next (fr.setRegister i.destination (if wantRemainder then
          (fr.registers i.left).srem (fr.registers i.right)
          else (fr.registers i.left).sdiv (fr.registers i.right))) := by
      rw [nativeEffect_plain hp hn (by simpa using hover)]
      cases wantRemainder <;> simp [refEffect, effect, hop]
    obtain ⟨ops, hops, hat, hnext⟩ := baselineCode_placed h.compiled h.instruction
    rw [hemit] at hops
    cases hops
    rw [heff]
    exact simulates_divrem hat hnext h.small h.agrees h.cells hd hw hp hl hr
      (fun hboth => hover (hfaults.mpr hboth))

theorem At.target (h : At f code k i W fr n m) (ht : i.target < f.instructions.length) :
    (offsetOf f (k + 1) : Int) + branchDisp f k i = offsetOf f i.target :=
  branchDisp_eq h.compiled h.instruction (List.getElem?_eq_getElem ht) h.small

theorem At.branch (h : At f code k i W fr n m) {onZero : Bool}
    (hop : i.opcode = .branchTrue ∨ i.opcode = .branchFalse)
    (hemit : emitInstruction f k i (branchDisp f k i) = some (backwardPoll f k i.target ++
      [loadSlot 0 i.left, .test 0, .jcc onZero (branchDisp f k i)])) :
    Simulates w f code k (offsetOf f k) (offsetOf f (k + 1)) i W fr n m
      (if i.target ≤ k ∧ w.requested n = true then .bail .safepointRequested
        else if (fr.registers i.left == 0) = onZero then .goto i.target fr else .next fr) := by
  have hcheck := h.checks
  have hreads := h.reads
  have hbounds : i.left < f.registerCount ∧ i.target < f.instructions.length ∧
      cellReads f i = [i.left] := by
    rcases hop with hop | hop
    all_goals
      simp [checkInstruction, hop, validRegister, check_passed] at hcheck
      simp [cellReads, hop, hcheck]
  obtain ⟨hl, ht, hcells⟩ := hbounds
  rw [hcells] at hreads
  obtain ⟨ops, hops, hat, hnext⟩ := baselineCode_placed h.compiled h.instruction
  rw [hemit] at hops
  cases hops
  exact simulates_branch hat hnext h.small h.agrees h.cells hop hl (hreads _ (by simp))
    (h.target ht)

/-- The code of an instruction does what `nativeEffect` says. -/
theorem At.simulates (h : At f code k i W fr n m) (w : World) :
    Simulates w f code k (offsetOf f k) (offsetOf f (k + 1)) i W fr n m
      (nativeEffect w f k i n fr) := by
  have hcheck := h.checks
  have hreads := h.reads
  obtain ⟨ops, hops, hat, hnext⟩ := baselineCode_placed h.compiled h.instruction
  cases hop : i.opcode
  case nop =>
    simp only [emitInstruction, hop, Option.some.injEq] at hops
    subst hops
    have heff : nativeEffect w f k i n fr = .next fr := by
      simp [nativeEffect, pollsAt, isCallNative, divisionFaults, refEffect, effect, hop]
    rw [heff]
    refine ⟨m, ?_, ?_⟩
    · rw [hnext]
      exact hat.straight rfl
    · simpa [writtenAfter, cellWrite, pollsAfter, pollsAt, hop] using h.agrees
  case argument =>
    simp [checkInstruction, hop, validRegister, check_passed] at hcheck
    have heff : nativeEffect w f k i n fr =
        .next (fr.setRegister i.destination (w.arguments.getD i.immediate.toNat 0)) := by
      simp [nativeEffect, pollsAt, isCallNative, divisionFaults, refEffect, hop]
    rw [heff]
    exact h.value [.loadArg 0 i.immediate.toNat] (by simp [emitInstruction, hop]) hcheck.1
      (by simp [cellWrite, hop]) (by simp [pollsAt, hop])
      (computes_argument h.agrees.arguments i.immediate.toNat)
  case constantI64 | constantF64 =>
    simp [checkInstruction, hop, validRegister] at hcheck
    have heff : nativeEffect w f k i n fr = .next (fr.setRegister i.destination i.immediate) := by
      simp [nativeEffect, pollsAt, isCallNative, divisionFaults, refEffect, effect, hop]
    rw [heff]
    exact h.value [.movImm64 0 i.immediate] (by simp [emitInstruction, hop]) hcheck
      (by simp [cellWrite, hop]) (by simp [pollsAt, hop]) (computes_constant i.immediate)
  case addI64 =>
    exact h.arithmetic .add operates_add (by simp [hop, binaryOpcodes])
      (by simp [nativeEffect, pollsAt, isCallNative, divisionFaults, refEffect, effect, hop])
      (by simp [emitInstruction, hop])
  case subI64 =>
    exact h.arithmetic .sub operates_sub (by simp [hop, binaryOpcodes])
      (by simp [nativeEffect, pollsAt, isCallNative, divisionFaults, refEffect, effect, hop])
      (by simp [emitInstruction, hop])
  case mulI64 =>
    exact h.arithmetic .imul operates_imul (by simp [hop, binaryOpcodes])
      (by simp [nativeEffect, pollsAt, isCallNative, divisionFaults, refEffect, effect, hop])
      (by simp [emitInstruction, hop])
  case addF64 =>
    exact h.float .add (by simp [hop, binaryOpcodes])
      (by simp [nativeEffect, pollsAt, isCallNative, divisionFaults, refEffect, effect, f64Operation, hop])
      (by simp [emitInstruction, hop])
  case subF64 =>
    exact h.float .sub (by simp [hop, binaryOpcodes])
      (by simp [nativeEffect, pollsAt, isCallNative, divisionFaults, refEffect, effect, f64Operation, hop])
      (by simp [emitInstruction, hop])
  case mulF64 =>
    exact h.float .mul (by simp [hop, binaryOpcodes])
      (by simp [nativeEffect, pollsAt, isCallNative, divisionFaults, refEffect, effect, f64Operation, hop])
      (by simp [emitInstruction, hop])
  case divF64 =>
    exact h.float .div (by simp [hop, binaryOpcodes])
      (by simp [nativeEffect, pollsAt, isCallNative, divisionFaults, refEffect, effect, f64Operation, hop])
      (by simp [emitInstruction, hop])
  case lessThanF64 =>
    exact h.floatComparison .lessThan (by simp [hop, binaryOpcodes])
      (by simp [nativeEffect, pollsAt, isCallNative, divisionFaults, refEffect, effect, f64Compare, hop])
      (by simp [emitInstruction, hop])
  case lessEqualF64 =>
    exact h.floatComparison .lessEqual (by simp [hop, binaryOpcodes])
      (by simp [nativeEffect, pollsAt, isCallNative, divisionFaults, refEffect, effect, f64Compare, hop])
      (by simp [emitInstruction, hop])
  case equalF64 =>
    exact h.floatComparison .equal (by simp [hop, binaryOpcodes])
      (by simp [nativeEffect, pollsAt, isCallNative, divisionFaults, refEffect, effect, f64Compare, hop])
      (by simp [emitInstruction, hop])
  case addI32Checked =>
    exact h.checked .add operates_add (by simp [hop, binaryOpcodes])
      (by simp [nativeEffect, pollsAt, isCallNative, divisionFaults, refEffect, effect, hop])
      (by simp [emitInstruction, hop])
  case subI32Checked =>
    exact h.checked .sub operates_sub (by simp [hop, binaryOpcodes])
      (by simp [nativeEffect, pollsAt, isCallNative, divisionFaults, refEffect, effect, hop])
      (by simp [emitInstruction, hop])
  case mulI32Checked =>
    exact h.checked .imul operates_imul (by simp [hop, binaryOpcodes])
      (by simp [nativeEffect, pollsAt, isCallNative, divisionFaults, refEffect, effect, hop])
      (by simp [emitInstruction, hop])
  case divI32Checked => exact h.division w false hop
  case remI32Checked => exact h.division w true hop
  case lessThanI64 =>
    obtain ⟨hd, hw, hp, -, hl, hr⟩ := h.binary (by simp [hop, binaryOpcodes])
    have heff : nativeEffect w f k i n fr = .next (fr.setRegister i.destination
        (ofBool ((fr.registers i.left).slt (fr.registers i.right)))) := by
      simp [nativeEffect, pollsAt, isCallNative, divisionFaults, refEffect, effect, hop]
    have hc := computes_lessThan (w := w) (f := f) (m := m) (i := i)
    rw [hl, hr] at hc
    rw [heff]
    exact h.value _ (by simp [emitInstruction, hop]) hd hw hp hc
  case i64ToF64 =>
    simp [checkInstruction, hop, validRegister] at hcheck
    have hl := h.agrees.register hcheck.2 (hreads i.left (by simp [cellReads, hop]))
    have heff : nativeEffect w f k i n fr = .next (fr.setRegister i.destination
        (w.env.i64ToF64 (fr.registers i.left))) := by
      simp [nativeEffect, pollsAt, isCallNative, divisionFaults, refEffect, effect, hop]
    have hc := computes_i64ToF64 (w := w) (f := f) (m := m) (i := i)
    rw [hl] at hc
    rw [heff]
    exact h.value _ (by simp [emitInstruction, hop]) hcheck.1 (by simp [cellWrite, hop])
      (by simp [pollsAt, hop]) hc
  case f64ToI64Trunc =>
    simp [checkInstruction, hop, validRegister] at hcheck
    have hl := h.agrees.register hcheck.2 (hreads i.left (by simp [cellReads, hop]))
    have heff : nativeEffect w f k i n fr = .next (fr.setRegister i.destination
        (w.env.f64ToI64 (fr.registers i.left))) := by
      simp [nativeEffect, pollsAt, isCallNative, divisionFaults, refEffect, effect, hop]
    have hc := computes_f64ToI64 (w := w) (f := f) (m := m) (i := i)
    rw [hl] at hc
    rw [heff]
    exact h.value _ (by simp [emitInstruction, hop]) hcheck.1 (by simp [cellWrite, hop])
      (by simp [pollsAt, hop]) hc
  case localGet =>
    simp [checkInstruction, hop, validRegister] at hcheck
    have hcell := h.agrees.cells _ (hreads (f.registerCount + i.immediate.toNat)
      (by simp [cellReads, hop]))
    have hl : m.frame (localDisp f i.immediate.toNat) = fr.locals i.immediate.toNat := by
      rw [localDisp_eq, hcell, frameCell, if_neg (by omega), Nat.add_sub_cancel_left]
    have heff : nativeEffect w f k i n fr = .next (fr.setRegister i.destination
        (fr.locals i.immediate.toNat)) := by
      simp [nativeEffect, pollsAt, isCallNative, divisionFaults, refEffect, effect, hop]
    have hc := computes_cell (w := w) (f := f) (m := m) (localDisp f i.immediate.toNat)
    rw [hl] at hc
    rw [heff]
    exact h.value _ (by simp [emitInstruction, hop]) hcheck.1 (by simp [cellWrite, hop])
      (by simp [pollsAt, hop]) hc
  case localSet =>
    simp [checkInstruction, hop, validRegister] at hcheck
    have hl := h.agrees.register hcheck.1 (hreads i.left (by simp [cellReads, hop]))
    have heff : nativeEffect w f k i n fr =
        .next (fr.setLocal i.immediate.toNat (fr.registers i.left)) := by
      simp [nativeEffect, pollsAt, isCallNative, divisionFaults, refEffect, effect, hop]
    simp only [emitInstruction, hop, Option.some.injEq] at hops
    subst hops
    have hexec : execAll w f [loadSlot 0 i.left, .storeFrame (localDisp f i.immediate.toNat) 0] m =
        some ((m.set 0 (.word (fr.registers i.left))).setFrame
          (slotDisp (f.registerCount + i.immediate.toNat)) (fr.registers i.left)) := by
      simp [execAll_cons, loadSlot, exec, Machine.word, hl, localDisp_eq]
    have hrun := hat.straight hexec
    rw [← hnext] at hrun
    rw [heff]
    refine ⟨_, hrun, ?_⟩
    simp only [writtenAfter, cellWrite, hop, pollsAfter, pollsAt]
    exact (h.agrees.scratched (.set m (by omega) _)).storeLocal _ _
  case callNativeI64 | callNativeF64 =>
    have hcall : isCallNative i = true := by simp [isCallNative, hop]
    have heff : nativeEffect w f k i n fr = nativeCall w f i fr := by
      simp [nativeEffect, pollsAt, hop, hcall]
    have hw : writtenAfter f i W = insert i.destination W := by
      simp [writtenAfter, cellWrite, hop]
    have hp : pollsAfter k i n = n := by simp [pollsAfter, pollsAt, hop]
    cases hs : i.site with
    | none => simp [checkInstruction, hop, hs] at hcheck
    | some site =>
      simp [checkInstruction, hop, hs, validRegister, check_passed] at hcheck
      simp only [emitInstruction, hop, hs, Option.map_some, Option.some.injEq] at hops
      subst hops
      have hsite : siteAt f k = some site := by simp [siteAt, h.instruction, hs]
      have hcalls := hat.callNative w h.small h.agrees h.cells hsite hs hcheck.1.1 hcheck.1.2
        hcheck.2 (fun c hc => hreads c (by simpa [cellReads, hop, hs, siteReads] using hc))
      rw [heff]
      rw [← hnext] at hcalls
      cases hnative : nativeCall w f i fr with
      | next fr' =>
        rw [hnative] at hcalls
        obtain ⟨m', hrun, hag⟩ := hcalls
        refine ⟨m', hrun, ?_⟩
        rw [hw, hp]
        exact hag
      | goto t fr' =>
        rw [hnative] at hcalls
        exact hcalls.elim
      | done v =>
        rw [hnative] at hcalls
        exact hcalls.elim
      | bail reason =>
        rw [hnative] at hcalls
        exact hcalls
      | fail s => trivial
  case runtimeHelper =>
    have heff : nativeEffect w f k i n fr = .bail .runtimeHelper := by
      simp [nativeEffect, pollsAt, isCallNative, divisionFaults, refEffect, effect, hop]
    simp only [emitInstruction, hop, Option.some.injEq] at hops
    subst hops
    rw [heff]
    obtain ⟨m', hleaves, hl⟩ := hat.bailout h.agrees.deopt
    exact ⟨m', hleaves, h.agrees.bailsAt h.cells hl⟩
  case jump =>
    simp [checkInstruction, hop] at hcheck
    have heff : nativeEffect w f k i n fr =
        if i.target ≤ k ∧ w.requested n = true then .bail .safepointRequested
        else .goto i.target fr := by
      simp [nativeEffect, pollsAt, isCallNative, divisionFaults, refEffect, effect, hop]
    simp only [emitInstruction, hop, Option.some.injEq] at hops
    subst hops
    rw [heff]
    exact simulates_jump hat hnext h.small h.agrees h.cells hop (h.target hcheck)
  case branchTrue =>
    have heff : nativeEffect w f k i n fr =
        if i.target ≤ k ∧ w.requested n = true then .bail .safepointRequested
        else if (fr.registers i.left == 0) = false then .goto i.target fr else .next fr := by
      simp [nativeEffect, pollsAt, isCallNative, divisionFaults, refEffect, effect, hop]
    rw [heff]
    exact h.branch (.inl hop) (by simp [emitInstruction, hop])
  case branchFalse =>
    have heff : nativeEffect w f k i n fr =
        if i.target ≤ k ∧ w.requested n = true then .bail .safepointRequested
        else if (fr.registers i.left == 0) = true then .goto i.target fr else .next fr := by
      simp [nativeEffect, pollsAt, isCallNative, divisionFaults, refEffect, effect, hop]
    rw [heff]
    exact h.branch (.inr hop) (by simp [emitInstruction, hop])
  case returnI64 | returnF64 =>
    simp [checkInstruction, hop, validRegister] at hcheck
    have heff : nativeEffect w f k i n fr = .done (fr.registers i.left) := by
      simp [nativeEffect, pollsAt, isCallNative, divisionFaults, refEffect, effect, hop]
    simp only [emitInstruction, hop, Option.some.injEq] at hops
    subst hops
    rw [heff]
    exact simulates_return hat h.agrees hcheck (hreads i.left (by simp [cellReads, hop]))
  all_goals
    simp [emitInstruction, hop] at hops

end

end TurboJS.Baseline
