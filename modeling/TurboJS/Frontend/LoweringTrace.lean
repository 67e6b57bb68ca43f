import TurboJS.Frontend.NumberMachine
import TurboJS.Foundation.Worklist
import Mathlib.Data.Finset.Card

namespace TurboJS.Frontend

open IR (Status Diagnostic maxRegisters)
open Foundation

/-! The analysis ends in a labelling that every instruction respects. -/

theorem fetch_eq_some {code : List UInt8} {offset op next : Nat}
    (h : fetch code offset = some (op, next)) : offset < next ∧ next ≤ code.length := by
  simp only [fetch, Option.bind_eq_bind, Option.bind_eq_some_iff] at h
  obtain ⟨byte, -, row, -, hrow⟩ := h
  split at hrow
  · cases hrow
  · rename_i hsize
    cases hrow
    omega

structure EffectAt (code : List UInt8) (offset : Nat) (e : StackEffect) (op : Nat)
    (o : Operation) : Prop where
  fetched : fetch code offset = some (op, e.nextOffset)
  operation : operation code offset op = o
  counts : stackCounts op o = (e.popCount, e.pushCount)
  target : o.target = e.branchTarget.map Int.ofNat
  targetInside : ∀ t, e.branchTarget = some t → t < code.length
  falls : e.hasFallthrough = o.fallsThrough

theorem engineStackEffect_ok {code : List UInt8} {offset : Nat} {e : StackEffect}
    (h : engineStackEffect code offset = .ok e) : ∃ op o, EffectAt code offset e op o := by
  unfold engineStackEffect at h
  split at h
  · cases h
  · cases hf : fetch code offset with
    | none => simp [hf] at h
    | some p =>
      obtain ⟨op, next⟩ := p
      simp only [hf] at h
      cases ht : (operation code offset op).target with
      | none =>
        simp only [ht, Except.ok.injEq] at h
        subst h
        exact ⟨op, _, hf, rfl, rfl, ht, by simp, rfl⟩
      | some t =>
        simp only [ht] at h
        split at h
        · cases h
        · rename_i hin
          cases h
          refine ⟨op, _, hf, rfl, rfl, ?_, ?_, rfl⟩
          · rw [ht, Option.map_some, Int.ofNat_eq_natCast, Int.toNat_of_nonneg (by omega)]
          · intro u hu
            cases hu
            omega

def SettledAt (code : List UInt8) (a : Analysis) (offset : Nat) : Prop :=
  ∃ d e, a.depths offset = some d ∧ engineStackEffect code offset = .ok e ∧ e.popCount ≤ d ∧
    (∀ t, e.branchTarget = some t → a.branchTargets t = true) ∧
    ∀ t ∈ e.successors code.length, a.depths t = some (d - e.popCount + e.pushCount)

/-- The invariant of the worklist loop; `seen` are the offsets taken from the list. -/
structure AnalysisInv (code : List UInt8) (seen : Finset Nat) (a : Analysis) : Prop where
  zero : a.depths 0 = some 0
  nodup : a.work.Nodup
  pending : ∀ o ∈ a.work, o ∉ seen
  inside : ∀ o ∈ seen, o < code.length
  labelled : ∀ o, (a.depths o).isSome = true ↔ o ∈ seen ∨ o ∈ a.work
  settled : ∀ o ∈ seen, SettledAt code a o
  bounded : ∀ o d, a.depths o = some d → d ≤ a.maximum

theorem mergeSuccessor_ok {depth b : Nat} {a a' : Analysis}
    (h : mergeSuccessor depth a b = .ok a') :
    a.depths b = none ∧
      a' = { a with depths := Function.update a.depths b (some depth), work := a.work ++ [b] } ∨
    a.depths b = some depth ∧ a' = a := by
  unfold mergeSuccessor at h
  cases hb : a.depths b with
  | none =>
    simp only [hb, Except.ok.injEq] at h
    exact .inl ⟨rfl, h.symm⟩
  | some d =>
    simp only [hb] at h
    split at h
    · cases h
    · rename_i hd
      cases h
      exact .inr ⟨by rw [not_not.mp hd], rfl⟩

theorem mergeSuccessor_carries (depth : Nat) :
    Carries Analysis.depths Analysis.work (mergeSuccessor depth) depth := by
  intro a b a' h
  rcases mergeSuccessor_ok h with ⟨hnone, rfl⟩ | ⟨hsome, rfl⟩
  · exact .inl ⟨hnone, rfl, rfl⟩
  · exact .inr ⟨hsome, rfl, rfl⟩

theorem mergeSuccessors_frame {depth : Nat} {l : List Nat} {a a' : Analysis}
    (h : l.foldlM (mergeSuccessor depth) a = .ok a') :
    a'.branchTargets = a.branchTargets ∧ a'.maximum = a.maximum := by
  refine foldlM_invariant
    (P := fun u => u.branchTargets = a.branchTargets ∧ u.maximum = a.maximum) ?_ ⟨rfl, rfl⟩ h
  intro u b v hu hv
  rcases mergeSuccessor_ok hv with ⟨-, rfl⟩ | ⟨-, rfl⟩
  · exact hu
  · exact hu

theorem analyzeOffset_inv {code : List UInt8} {seen : Finset Nat} {offset : Nat}
    {rest : List Nat} {a a' : Analysis} (h : AnalysisInv code seen a)
    (hwork : a.work = offset :: rest)
    (hrun : analyzeOffset code offset { a with work := rest } = .ok a') :
    AnalysisInv code (insert offset seen) a' ∧ offset ∉ seen := by
  have hmem : offset ∈ a.work := by rw [hwork]; exact List.mem_cons_self
  have hunseen := h.pending offset hmem
  obtain ⟨d, hd⟩ := Option.isSome_iff_exists.mp ((h.labelled offset).mpr (.inr hmem))
  obtain ⟨hnot, hrest⟩ := List.nodup_cons.mp (hwork ▸ h.nodup)
  unfold analyzeOffset at hrun
  cases heff : engineStackEffect code offset with
  | error s => simp [heff] at hrun
  | ok e =>
    simp only [heff, hd, Option.getD_some] at hrun
    split at hrun
    · cases hrun
    · rename_i hpop
      obtain ⟨new, hnew, hc⟩ := (mergeSuccessor_carries _).foldlM hrun
      obtain ⟨htargets, hmax⟩ := mergeSuccessors_frame hrun
      simp only at hnew hc htargets hmax
      obtain ⟨op, o, heffAt⟩ := engineStackEffect_ok heff
      have hinside : offset < code.length := by
        have := fetch_eq_some heffAt.fetched
        omega
      have hfreshnew : ∀ b ∈ new, b ∉ seen ∧ b ∉ a.work := by
        intro b hb
        have hnone := (hc.fresh b hb).2
        have hno : ¬ (b ∈ seen ∨ b ∈ a.work) := by
          rw [← h.labelled b, hnone]
          simp
        exact ⟨fun hs => hno (.inl hs), fun hw => hno (.inr hw)⟩
      have hsettle : ∀ b, SettledAt code a b → SettledAt code a' b := by
        rintro b ⟨v, e', hv, he', hpop', ht, hs⟩
        refine ⟨v, e', hc.kept b v hv, he', hpop', ?_, ?_⟩
        · intro t hte
          rw [htargets]
          simp [ht t hte]
        · intro t hte
          exact hc.kept t _ (hs t hte)
      refine ⟨⟨hc.kept 0 0 h.zero, ?_, ?_, ?_, ?_, ?_, ?_⟩, hunseen⟩
      · rw [hnew]
        refine List.nodup_append.mpr ⟨hrest, hc.nodup, ?_⟩
        rintro b hb b' hb' rfl
        exact (hfreshnew b hb').2 (by rw [hwork]; exact List.mem_cons_of_mem _ hb)
      · intro b hb
        rw [hnew, List.mem_append] at hb
        rw [Finset.mem_insert, not_or]
        rcases hb with hb | hb
        · refine ⟨fun heq => hnot (heq ▸ hb), h.pending b ?_⟩
          rw [hwork]
          exact List.mem_cons_of_mem _ hb
        · refine ⟨?_, (hfreshnew b hb).1⟩
          rintro rfl
          exact (hfreshnew b hb).2 hmem
      · intro b hb
        rcases Finset.mem_insert.mp hb with rfl | hb
        · exact hinside
        · exact h.inside b hb
      · intro b
        rw [hnew, List.mem_append, Finset.mem_insert]
        constructor
        · intro hb
          rcases hc.labelled b hb with hold | hin
          · rcases (h.labelled b).mp hold with hs | hw
            · exact .inl (.inr hs)
            · rw [hwork] at hw
              rcases List.mem_cons.mp hw with rfl | hw
              · exact .inl (.inl rfl)
              · exact .inr (.inl hw)
          · exact .inr (.inr hin)
        · rintro ((rfl | hs) | hw | hin)
          · exact hc.isSome (by rw [hd]; rfl)
          · exact hc.isSome ((h.labelled b).mpr (.inl hs))
          · refine hc.isSome ((h.labelled b).mpr (.inr ?_))
            rw [hwork]
            exact List.mem_cons_of_mem _ hw
          · rw [hc.carried b (hc.fresh b hin).1]
            rfl
      · intro b hb
        rcases Finset.mem_insert.mp hb with rfl | hb
        · refine ⟨d, e, hc.kept b d hd, heff, by omega, ?_, hc.carried⟩
          intro t ht
          rw [htargets]
          simp [ht]
        · exact hsettle b (h.settled b hb)
      · rw [hmax]
        refine hc.forall_label (Nat.le_max_right _ _) ?_
        intro b v hv
        exact Nat.le_trans (h.bounded b v hv) (Nat.le_max_left _ _)

theorem analyzeOffsets_inv {code : List UInt8} {fuel : Nat} {seen : Finset Nat} {a a' : Analysis}
    (h : AnalysisInv code seen a) (hfuel : code.length < fuel + seen.card)
    (hrun : analyzeOffsets code fuel a = .ok a') :
    ∃ seen', AnalysisInv code seen' a' ∧ a'.work = [] := by
  induction fuel generalizing seen a with
  | zero =>
    have hsub : seen ⊆ Finset.range code.length := by
      intro o ho
      exact Finset.mem_range.mpr (h.inside o ho)
    have hcard := Finset.card_le_card hsub
    rw [Finset.card_range] at hcard
    omega
  | succ fuel ih =>
    unfold analyzeOffsets at hrun
    cases hwork : a.work with
    | nil =>
      simp only [hwork, Except.ok.injEq] at hrun
      subst hrun
      exact ⟨seen, h, hwork⟩
    | cons offset rest =>
      simp only [hwork] at hrun
      obtain ⟨u, hu, hrest⟩ := bind_eq_ok.mp hrun
      obtain ⟨hinv, hunseen⟩ := analyzeOffset_inv h hwork hu
      refine ih hinv ?_ hrest
      rw [Finset.card_insert_of_notMem hunseen]
      omega

/-- The result of the analysis: the first offset has depth 0, every labelled offset is settled
and no label exceeds the maximum. -/
structure Analyzed (code : List UInt8) (a : Analysis) : Prop where
  zero : a.depths 0 = some 0
  settled : ∀ o d, a.depths o = some d → SettledAt code a o
  bounded : ∀ o d, a.depths o = some d → d ≤ a.maximum

theorem analyzeStackDepths_ok {code : List UInt8} {a : Analysis}
    (h : analyzeStackDepths code = .ok a) : Analyzed code a := by
  have hinit : AnalysisInv code ∅
      ⟨Function.update (fun _ => none) 0 (some 0), fun _ => false, [0], 0⟩ := by
    refine ⟨by simp, by simp, by simp, by simp, ?_, by simp, ?_⟩
    · intro o
      by_cases ho : o = 0 <;> simp [ho]
    · intro o d hd
      by_cases ho : o = 0
      · simp_all
      · simp [ho] at hd
  obtain ⟨seen, hinv, hwork⟩ := analyzeOffsets_inv hinit (by simp) h
  refine ⟨hinv.zero, ?_, hinv.bounded⟩
  intro o d hd
  have hin := (hinv.labelled o).mp (by rw [hd]; rfl)
  rw [hwork] at hin
  exact hinv.settled o (by simpa using hin)

section rounds

variable {info : EngineBytecodeInfo} {a : Analysis} {st st' : Lowering}

theorem produce_ok {offset : Nat} {i : IR.Instruction} {rest : List Nat}
    (h : st.produce offset i rest = .ok st') :
    st' = { st.emit [{ i with destination := st.registerCount, bytecodeOffset := offset }] with
      registerCount := st.registerCount + 1
      stack := st.registerCount :: rest } := by
  unfold Lowering.produce at h
  split at h
  · cases h
  · split at h
    · cases h
    · cases h
      rfl

def AddsFixup (st st' : Lowering) : Prop :=
  ∃ k target, st'.fixups = st.fixups ++ [(k, target)] ∧ st.instructions.length ≤ k ∧
    k < st'.instructions.length

structure Extends (info : EngineBytecodeInfo) (st st' : Lowering) : Prop where
  pc : st'.pc = st.pc ∨ st'.pc = info.bytecode.length
  instructions : st.instructions <+: st'.instructions
  bytecodeToIR : st'.bytecodeToIR = st.bytecodeToIR
  fixups : st'.fixups = st.fixups ∨ AddsFixup st st'

theorem Extends.refl (st : Lowering) : Extends info st st :=
  ⟨.inl rfl, List.prefix_rfl, rfl, .inl rfl⟩

theorem Extends.produce {offset : Nat} {i : IR.Instruction} {rest : List Nat}
    (h : st.produce offset i rest = .ok st') : Extends info st st' := by
  rw [produce_ok h]
  exact ⟨.inl rfl, List.prefix_append _ _, rfl, .inl rfl⟩

theorem Extends.lowerStore {offset index : Nat} {keep : Bool}
    (h : lowerStore info st offset index keep = .ok st') : Extends info st st' := by
  unfold Frontend.lowerStore at h
  split at h
  · cases h
  · split at h
    · cases h
    · cases h
      exact ⟨.inl rfl, List.prefix_append _ _, rfl, .inl rfl⟩

theorem Extends.lowerBranch {offset : Nat} {kind : BranchKind} {target : Int}
    (h : lowerBranch info st offset kind target = .ok st') : Extends info st st' := by
  unfold Frontend.lowerBranch at h
  split at h
  · cases h
  · simp only at h
    split at h
    all_goals first
      | cases h
      | split at h
        · cases h
        · cases h
          refine ⟨.inl rfl, ?_, rfl, .inr ⟨_, _, rfl, ?_, ?_⟩⟩
          · simp [Lowering.emit]
          · simp [Lowering.emit]
          · simp [Lowering.emit]

theorem Extends.lowerCall {offset argc : Nat} (h : lowerCall info st offset argc = .ok st') :
    Extends info st st' := by
  unfold Frontend.lowerCall at h
  split at h
  · cases h
  · split at h
    · cases h
    · split at h
      · cases h
      · exact .produce h

theorem Extends.lowerCallMethod {offset argc : Nat} {tail : Bool}
    (h : lowerCallMethod info st offset argc tail = .ok st') : Extends info st st' := by
  unfold Frontend.lowerCallMethod at h
  split at h
  · cases h
  · split at h
    · cases h
    · split at h
      · cases h
      · obtain ⟨u, hu, h⟩ := bind_eq_ok.mp h
        have hcall : Extends info st u := .produce hu
        split at h
        · cases h
          refine ⟨hcall.pc, hcall.instructions.trans (List.prefix_append _ _),
            hcall.bytecodeToIR, ?_⟩
          rw [produce_ok hu]
          exact .inl rfl
        · cases h
          exact hcall

theorem Extends.lowerGetField2 {offset atom : Nat}
    (h : lowerGetField2 info st offset atom = .ok st') : Extends info st st' := by
  unfold Frontend.lowerGetField2 at h
  split at h
  · cases h
  · split at h
    · cases h
    · split at h
      · cases h
      · obtain ⟨u, hu, h⟩ := bind_eq_ok.mp h
        cases h
        obtain ⟨hpc, hi, hir, hf⟩ : Extends info st u := .produce hu
        exact ⟨hpc, hi, hir, hf⟩

theorem Extends.lowerArithmetic {offset : Nat} {op : Arithmetic}
    (h : lowerArithmetic info st offset op = .ok st') : Extends info st st' := by
  unfold Frontend.lowerArithmetic at h
  split at h
  · split at h
    · cases h
    · split at h
      · cases h
      · exact .produce h
  · cases h

theorem Extends.lowerHelper {offset op : Nat} (h : lowerHelper info st offset op = .ok st') :
    Extends info st st' := by
  unfold Frontend.lowerHelper at h
  split at h
  · cases h
  · cases h
    exact ⟨.inr rfl, List.prefix_append _ _, rfl, .inl rfl⟩

theorem Extends.lowerOperation {offset op : Nat} {o : Operation}
    (h : lowerOperation info st offset op o = .ok st') : Extends info st st' := by
  cases o with
  | nop =>
    cases h
    exact .refl st
  | pushI32 n => exact .produce h
  | getArg index =>
    simp only [Frontend.lowerOperation] at h
    split at h
    · cases h
    · exact .produce h
  | getLoc index =>
    simp only [Frontend.lowerOperation] at h
    split at h
    · cases h
    · exact .produce h
  | putLoc index => exact .lowerStore h
  | setLoc index => exact .lowerStore h
  | getField2 atom => exact .lowerGetField2 h
  | callableLoad kind index =>
    simp only [Frontend.lowerOperation] at h
    split at h
    · cases h
    · exact .produce h
  | arithmetic op => exact .lowerArithmetic h
  | branch kind target => exact .lowerBranch h
  | callMethod argc tail => exact .lowerCallMethod h
  | call argc => exact .lowerCall h
  | ret =>
    simp only [Frontend.lowerOperation] at h
    split at h
    · cases h
    · cases h
      exact ⟨.inl rfl, List.prefix_append _ _, rfl, .inl rfl⟩
  | other => exact .lowerHelper h

def spilledAt (info : EngineBytecodeInfo) (st : Lowering) : List IR.Instruction :=
  if st.fallthroughReachable then spillStackToLocals info.localCount st.pc st.stack else []

def openedPlain (st : Lowering) : Lowering :=
  { st with
    bytecodeToIR := Function.update st.bytecodeToIR st.pc (some st.instructions.length) }

def openedTarget (info : EngineBytecodeInfo) (st : Lowering) (depth : Nat) : Lowering :=
  { st with
    bytecodeToIR := Function.update st.bytecodeToIR st.pc
      (some (st.instructions ++ spilledAt info st).length)
    instructions := st.instructions ++ spilledAt info st ++
      reloadStackFromLocals info.localCount st.pc st.registerCount depth
    registerCount := st.registerCount + depth
    stack := reloadedStack st.registerCount depth
    fallthroughReachable := true }

theorem openOffset_ok {depth : Nat} {opened : Lowering}
    (h : openOffset info a st depth = .ok opened) :
    a.branchTargets st.pc = false ∧ opened = openedPlain st ∨
    a.branchTargets st.pc = true ∧ (st.fallthroughReachable = true → st.stack.length = depth) ∧
      opened = openedTarget info st depth := by
  unfold openOffset at h
  simp only at h
  split at h
  · rename_i htarget
    split at h
    · cases h
    · rename_i hdepth
      split at h
      · cases h
      · cases h
        refine .inr ⟨htarget, fun hf => ?_, ?_⟩
        · by_contra hne
          exact hdepth ⟨hf, hne⟩
        · unfold openedTarget spilledAt
          cases st.fallthroughReachable <;> simp [Lowering.emit]
  · rename_i htarget
    cases h
    exact .inl ⟨by simpa using htarget, rfl⟩

structure OpenedAt (info : EngineBytecodeInfo) (a : Analysis) (st opened : Lowering)
    (depth : Nat) : Prop where
  labelled : a.depths st.pc = some depth
  run : openOffset info a st depth = .ok opened

theorem OpenedAt.spec {opened : Lowering} {depth : Nat} (h : OpenedAt info a st opened depth) :
    st.instructions <+: opened.instructions ∧ opened.fixups = st.fixups ∧
      ∃ k, opened.bytecodeToIR = Function.update st.bytecodeToIR st.pc (some k) := by
  rcases openOffset_ok h.run with ⟨-, rfl⟩ | ⟨-, -, rfl⟩
  · exact ⟨List.prefix_rfl, rfl, _, rfl⟩
  · exact ⟨⟨spilledAt info st ++ reloadStackFromLocals info.localCount st.pc st.registerCount depth,
      by simp [openedTarget]⟩, rfl, _, rfl⟩

theorem lowerOffset_ok (h : lowerOffset info a st = .ok st') :
    a.depths st.pc = none ∧ st.pc < st'.pc ∧ st'.instructions = st.instructions ∧
      st'.fixups = st.fixups ∧ st'.bytecodeToIR = st.bytecodeToIR ∨
    ∃ depth opened op next, OpenedAt info a st opened depth ∧
      fetch info.bytecode st.pc = some (op, next) ∧
      lowerOperation info { opened with pc := next, offset := st.pc } st.pc op
        (operation info.bytecode st.pc op) = .ok st' := by
  unfold lowerOffset at h
  simp only at h
  cases hd : a.depths st.pc with
  | none =>
    simp only [hd] at h
    cases he : engineStackEffect info.bytecode st.pc with
    | error s => simp [he] at h
    | ok e =>
      simp only [he, Except.ok.injEq] at h
      subst h
      obtain ⟨op, o, heff⟩ := engineStackEffect_ok he
      exact .inl ⟨rfl, (fetch_eq_some heff.fetched).1, rfl, rfl, rfl⟩
  | some depth =>
    simp only [hd] at h
    cases hf : fetch info.bytecode st.pc with
    | none => simp [hf] at h
    | some p =>
      obtain ⟨op, next⟩ := p
      simp only [hf] at h
      obtain ⟨opened, hopened, hop⟩ := bind_eq_ok.mp h
      exact .inr ⟨depth, opened, op, next, ⟨hd, hopened⟩, rfl, hop⟩

end rounds

section trace

variable {info : EngineBytecodeInfo} {a : Analysis} {st st' fin : Lowering}

def Rounds (info : EngineBytecodeInfo) (a : Analysis) : Lowering → Lowering → Prop :=
  Runs (fun st => (lowerOffset info a st).toOption) fun st => st.pc < info.bytecode.length

theorem lowerOffset_lt (hin : st.pc < info.bytecode.length) (h : lowerOffset info a st = .ok st') :
    st.pc < st'.pc := by
  rcases lowerOffset_ok h with ⟨-, hlt, -⟩ | ⟨depth, opened, op, next, -, hf, hop⟩
  · exact hlt
  · have hnext := (fetch_eq_some hf).1
    rcases (Extends.lowerOperation hop).pc with hpc | hpc
    · rw [hpc]
      exact hnext
    · rw [hpc]
      exact hin

theorem lowerOffsets_rounds {fuel : Nat} (hfuel : info.bytecode.length ≤ st.pc + fuel)
    (h : lowerOffsets info a fuel st = .ok fin) :
    Rounds info a st fin ∧ info.bytecode.length ≤ fin.pc := by
  induction fuel generalizing st with
  | zero =>
    cases h
    exact ⟨.refl _, hfuel⟩
  | succ fuel ih =>
    unfold lowerOffsets at h
    split at h
    · rename_i hin
      obtain ⟨u, hu, hrest⟩ := bind_eq_ok.mp h
      have hlt := lowerOffset_lt hin hu
      obtain ⟨hrounds, hdone⟩ := ih (by omega) hrest
      exact ⟨.head hin (by rw [hu]; rfl) hrounds, hdone⟩
    · rename_i hout
      cases h
      exact ⟨.refl _, by omega⟩

theorem Rounds.next (h : Rounds info a st fin) (hdone : info.bytecode.length ≤ fin.pc)
    (hin : st.pc < info.bytecode.length) :
    ∃ st', lowerOffset info a st = .ok st' ∧ Rounds info a st' fin := by
  cases h with
  | refl => omega
  | head _ hs rest => exact ⟨_, ok_of_toOption hs, rest⟩

theorem Rounds.eq_of_done (h : Rounds info a st fin) (hout : info.bytecode.length ≤ st.pc) :
    st = fin := by
  cases h with
  | refl => rfl
  | head hin _ _ => omega

theorem lowerOffset_extends (h : lowerOffset info a st = .ok st') :
    st.instructions <+: st'.instructions ∧ (st'.fixups = st.fixups ∨ AddsFixup st st') := by
  rcases lowerOffset_ok h with ⟨-, -, hi, hf, -⟩ | ⟨depth, opened, op, next, hopened, -, hop⟩
  · rw [hi]
    exact ⟨List.prefix_rfl, .inl hf⟩
  · obtain ⟨hkept, hfixups, -⟩ := hopened.spec
    have hext := Extends.lowerOperation hop
    refine ⟨hkept.trans hext.instructions, ?_⟩
    rcases hext.fixups with hf | ⟨k, target, hf, hlo, hhi⟩
    · exact .inl (hf.trans hfixups)
    · refine .inr ⟨k, target, ?_, Nat.le_trans hkept.length_le hlo, hhi⟩
      rw [hf]
      exact congrArg (· ++ [(k, target)]) hfixups

theorem Rounds.prefixes (h : Rounds info a st fin) :
    st.instructions <+: fin.instructions ∧ st.fixups <+: fin.fixups := by
  induction h with
  | refl => exact ⟨List.prefix_rfl, List.prefix_rfl⟩
  | head _ hs _ ih =>
    obtain ⟨hi, hf⟩ := lowerOffset_extends (ok_of_toOption hs)
    refine ⟨hi.trans ih.1, List.IsPrefix.trans ?_ ih.2⟩
    rcases hf with hf | ⟨k, target, hf, -⟩
    · rw [hf]
    · rw [hf]
      exact List.prefix_append _ _

def FixupsInOrder (st : Lowering) : Prop :=
  st.fixups.Pairwise (fun p q => p.1 < q.1) ∧ ∀ p ∈ st.fixups, p.1 < st.instructions.length

theorem Rounds.fixupsInOrder (h : Rounds info a st fin) (hst : FixupsInOrder st) :
    FixupsInOrder fin := by
  induction h with
  | refl => exact hst
  | head _ hs _ ih =>
    obtain ⟨hi, hf⟩ := lowerOffset_extends (ok_of_toOption hs)
    obtain ⟨hpair, hlt⟩ := hst
    have hlen := hi.length_le
    apply ih
    rcases hf with hf | ⟨k, target, hf, hlo, hhi⟩
    · refine ⟨hf ▸ hpair, ?_⟩
      intro p hp
      exact Nat.lt_of_lt_of_le (hlt p (hf ▸ hp)) hlen
    · refine ⟨?_, ?_⟩
      · rw [hf, List.pairwise_append]
        refine ⟨hpair, List.pairwise_singleton _ _, ?_⟩
        intro p hp q hq
        rw [List.mem_singleton.mp hq]
        exact Nat.lt_of_lt_of_le (hlt p hp) hlo
      · intro p hp
        rw [hf, List.mem_append, List.mem_singleton] at hp
        rcases hp with hp | rfl
        · exact Nat.lt_of_lt_of_le (hlt p hp) hlen
        · exact hhi

theorem Rounds.arrival (h : Rounds info a st fin) {o x : Nat}
    (hx : fin.bytecodeToIR o = some x) :
    st.bytecodeToIR o = some x ∨
    ∃ u opened depth, Rounds info a u fin ∧ u.pc = o ∧ OpenedAt info a u opened depth ∧
      opened.bytecodeToIR o = some x := by
  induction h with
  | refl => exact .inl hx
  | @head s t u hin hs rest ih =>
    rcases ih hx with hold | hnew
    · rcases lowerOffset_ok (ok_of_toOption hs) with ⟨-, -, -, -, hir⟩ |
        ⟨depth, opened, op, next, hopened, -, hop⟩
      · exact .inl (hir ▸ hold)
      · have hir := (Extends.lowerOperation hop).bytecodeToIR
        simp only at hir
        rw [hir] at hold
        by_cases ho : o = s.pc
        · subst ho
          exact .inr ⟨s, opened, depth, .head hin hs rest, rfl, hopened, hold⟩
        · obtain ⟨-, -, k, hk⟩ := hopened.spec
          rw [hk, Function.update_of_ne ho] at hold
          exact .inl hold
    · exact .inr hnew

end trace

section fixups

variable {st : Lowering} {toIR : Nat → Option Nat} {fixups : List (Nat × Nat)}
  {is js : List IR.Instruction} {k : Nat} {i : IR.Instruction}

theorem applyFixup_ok {fixup : Nat × Nat} (h : applyFixup st toIR is fixup = .ok js) :
    ∃ target, toIR fixup.2 = some target ∧
      js = is.modify fixup.1 fun i => { i with target } := by
  unfold applyFixup at h
  cases ht : toIR fixup.2 with
  | none => simp [ht] at h
  | some target =>
    simp only [ht, Except.ok.injEq] at h
    exact ⟨target, rfl, h.symm⟩

theorem applyFixups_get (h : fixups.foldlM (applyFixup st toIR) is = .ok js)
    (hi : is[k]? = some i) : ∃ target, js[k]? = some { i with target } := by
  induction fixups generalizing is i with
  | nil =>
    cases h
    exact ⟨i.target, hi⟩
  | cons fixup fixups ih =>
    obtain ⟨is', hstep, hrest⟩ := foldlM_cons_eq_ok.mp h
    obtain ⟨t, -, rfl⟩ := applyFixup_ok hstep
    by_cases hk : fixup.1 = k
    · refine ih (i := { i with target := t }) hrest ?_
      rw [List.getElem?_modify, hi]
      simp [hk]
    · refine ih hrest ?_
      rw [List.getElem?_modify, hi]
      simp [hk]

theorem applyFixups_length (h : fixups.foldlM (applyFixup st toIR) is = .ok js) :
    js.length = is.length := by
  refine foldlM_invariant (P := fun l => l.length = is.length) ?_ rfl h
  intro l fixup l' hl hl'
  obtain ⟨t, -, rfl⟩ := applyFixup_ok hl'
  rw [List.length_modify, hl]

theorem applyFixups_get_other (h : fixups.foldlM (applyFixup st toIR) is = .ok js)
    (hk : ∀ p ∈ fixups, p.1 ≠ k) : js[k]? = is[k]? := by
  induction fixups generalizing is with
  | nil =>
    cases h
    rfl
  | cons fixup fixups ih =>
    obtain ⟨is', hstep, hrest⟩ := foldlM_cons_eq_ok.mp h
    obtain ⟨t, -, rfl⟩ := applyFixup_ok hstep
    rw [ih hrest fun p hp => hk p (List.mem_cons_of_mem _ hp), List.getElem?_modify]
    have hne : fixup.1 ≠ k := hk fixup List.mem_cons_self
    simp [hne]

theorem applyFixups_get_target {o : Nat} (h : fixups.foldlM (applyFixup st toIR) is = .ok js)
    (horder : fixups.Pairwise fun p q => p.1 < q.1) (hmem : (k, o) ∈ fixups)
    (hi : is[k]? = some i) :
    ∃ target, toIR o = some target ∧ js[k]? = some { i with target } := by
  induction fixups generalizing is i with
  | nil => cases hmem
  | cons fixup fixups ih =>
    obtain ⟨is', hstep, hrest⟩ := foldlM_cons_eq_ok.mp h
    obtain ⟨t, ht, rfl⟩ := applyFixup_ok hstep
    obtain ⟨hfirst, htail⟩ := List.pairwise_cons.mp horder
    rcases List.mem_cons.mp hmem with rfl | hmem
    · refine ⟨t, ht, ?_⟩
      rw [applyFixups_get_other hrest fun p hp => Nat.ne_of_gt (hfirst p hp),
        List.getElem?_modify, hi]
      simp
    · have hne : fixup.1 ≠ k := Nat.ne_of_lt (hfirst (k, o) hmem)
      refine ih hrest htail hmem ?_
      rw [List.getElem?_modify, hi]
      simp [hne]

end fixups

end TurboJS.Frontend
