import TurboJS.IR.Access
import Mathlib.Data.List.TakeWhile

namespace TurboJS.IR

/-! Which accesses of a verified function are safe. -/

theorem all_andThen {before after : List Access} :
    (andThen before after).all Access.safe = true ↔
      before.all Access.safe = true ∧ after.all Access.safe = true := by
  unfold andThen
  split
  · rename_i h
    rw [List.all_append, h, Bool.true_and]
    exact ⟨fun ha => ⟨rfl, ha⟩, fun ha => ha.2⟩
  · rename_i h
    exact iff_of_false h fun ha => h ha.1

/-- What the verifier does not promise of a step: the index of a local lies inside of the array of
locals, and a division does not overflow. -/
def soundStep (locals : Nat) (i : Instruction) (fr : Frame) : Bool :=
  match i.opcode with
  | .localGet | .localSet => i.immediate.toNat < locals
  | .divI32Checked | .remI32Checked =>
    !(fr.registers i.left = int64Min && fr.registers i.right = -1)
  | _ => true

section

variable {f : Function} {i : Instruction} {fr : Frame} {registers locals : Nat}

theorem site_safe {site : ClutchCallSite} (hcount : site.argumentCount ≤ clutchMaxArguments)
    (hvalid : site.arguments.all (validRegister f) = true)
    (hdestination : validRegister f i.destination = true) (hregisters : f.registerCount ≤ registers) :
    (siteAccesses f i site (Access.index .registers · registers)).all Access.safe = true := by
  have htake : site.arguments.takeWhile (validRegister f) = site.arguments :=
    List.takeWhile_eq_self_iff.mpr (List.all_eq_true.mp hvalid)
  have hlength : site.arguments.length ≤ site.argumentCount := by
    rw [ClutchCallSite.arguments, List.length_take]
    omega
  unfold siteAccesses
  rw [if_neg (Nat.not_lt.mpr hcount), htake, hvalid]
  simp only [validRegister, decide_eq_true_eq, List.all_eq_true] at hdestination hvalid
  simp only [List.all_append, List.all_map, List.all_eq_true, Bool.and_eq_true, Function.comp_apply,
    Access.safe, decide_eq_true_eq, if_true, List.mem_singleton, forall_eq]
  refine ⟨⟨⟨?_, ?_⟩, ?_⟩, by omega⟩
  · intro k hk
    have := List.mem_range.mp (List.mem_of_mem_take hk)
    omega
  · intro r hr
    have := hvalid r hr
    omega
  · intro k hk
    have := List.mem_range.mp hk
    omega

theorem division_safe_iff {l r : Word} {guard : Prop} [Decidable guard] {rest : List Access}
    (hzero : r = 0 → guard) (hguard : guard → ¬ (l = int64Min ∧ r = -1))
    (hrest : rest.all Access.safe = true) :
    (if guard then [] else .divide l r :: rest).all Access.safe = true ↔
      (!(decide (l = int64Min) && decide (r = -1))) = true := by
  by_cases h : guard
  · have := hguard h
    simp only [h, if_true, List.all_nil, true_iff, Bool.not_eq_true', Bool.and_eq_false_iff,
      decide_eq_false_iff_not]
    tauto
  · have hr : r ≠ 0 := fun hr => h (hzero hr)
    simp only [h, if_false, List.all_cons, hrest, Bool.and_true, Access.safe, ne_eq, hr,
      not_false_eq_true, decide_true, Bool.true_and]

theorem valid_of_check {cond : Bool} {e : Status × String} {rest : Option (Status × String)}
    (h : (if (!cond) = true then some e else rest) = none) : cond = true ∧ rest = none := by
  cases cond with
  | false => cases h
  | true => exact ⟨rfl, by simpa using h⟩

theorem call_safe (hcheck : checkInstruction f i = none)
    (hop : i.opcode = .callNativeI64 ∨ i.opcode = .callNativeF64) :
    ∃ site, i.site = some site ∧ site.argumentCount ≤ clutchMaxArguments ∧
      site.arguments.all (validRegister f) = true ∧ validRegister f i.destination = true := by
  cases hs : i.site with
  | none =>
    rcases hop with hop | hop
    · simp [checkInstruction, hop, hs] at hcheck
    · simp [checkInstruction, hop, hs] at hcheck
  | some site =>
    have hsite : (if !validRegister f i.destination || clutchMaxArguments < site.argumentCount then
          some (Status.invalidArgument, "invalid Clutch native call")
        else if !site.arguments.all (validRegister f) then
          some (.invalidRegister, "invalid Clutch argument register")
        else none) = none := by
      rcases hop with hop | hop
      · simpa only [checkInstruction, hop, hs] using hcheck
      · simpa only [checkInstruction, hop, hs] using hcheck
    split at hsite
    · cases hsite
    rename_i hfirst
    simp only [Bool.or_eq_true, Bool.not_eq_true', decide_eq_true_eq, not_or, Bool.not_eq_false,
      Nat.not_lt] at hfirst
    exact ⟨site, rfl, hfirst.2, (valid_of_check hsite).1, hfirst.1⟩

theorem division_step_safe_iff {guard : Prop} [Decidable guard]
    (hcheck : (if !validRegister f i.destination || !validRegister f i.left ||
        !validRegister f i.right then
      some (Status.invalidRegister, "invalid arithmetic register") else none) = none)
    (hregisters : f.registerCount ≤ registers) (hzero : fr.registers i.right = 0 → guard)
    (hguard : guard → ¬ (fr.registers i.left = int64Min ∧ fr.registers i.right = -1)) :
    ([Access.index .registers i.left registers, .index .registers i.right registers] ++
      if guard then [] else [Access.divide (fr.registers i.left) (fr.registers i.right),
        Access.index .registers i.destination registers]).all Access.safe = true ↔
      (!(decide (fr.registers i.left = int64Min) && decide (fr.registers i.right = -1))) =
        true := by
  simp only [validRegister, ite_eq_right_iff, reduceCtorEq, imp_false, Bool.or_eq_true,
    Bool.not_eq_true', decide_eq_false_iff_not, not_or, not_not] at hcheck
  have hleft : i.left < registers := by omega
  have hright : i.right < registers := by omega
  have hdestination : [Access.index .registers i.destination registers].all Access.safe = true := by
    simp only [List.all_cons, List.all_nil, Bool.and_true, Access.safe, decide_eq_true_eq]
    omega
  have hoperands : [Access.index .registers i.left registers,
      .index .registers i.right registers].all Access.safe = true := by
    simp [Access.safe, hleft, hright]
  rw [← division_safe_iff hzero hguard hdestination, List.all_append, hoperands, Bool.true_and]

theorem instructionAccesses_safe_iff (hcheck : checkInstruction f i = none)
    (hregisters : f.registerCount ≤ registers) :
    (instructionAccesses f registers locals i fr).all Access.safe = true ↔
      soundStep locals i fr = true := by
  have hcall : i.opcode = .callNativeI64 ∨ i.opcode = .callNativeF64 →
      (instructionAccesses f registers locals i fr).all Access.safe = true := by
    intro hop
    obtain ⟨site, hsite, hcount, hvalid, hdestination⟩ := call_safe hcheck hop
    have hsafe := site_safe hcount hvalid hdestination hregisters
    rcases hop with hop | hop
    · simpa only [instructionAccesses, hop, hsite] using hsafe
    · simpa only [instructionAccesses, hop, hsite] using hsafe
  have hmin : int32Min ≠ int64Min := by decide
  cases hop : i.opcode
  case callNativeI64 => exact iff_of_true (hcall (.inl hop)) (by simp [soundStep, hop])
  case callNativeF64 => exact iff_of_true (hcall (.inr hop)) (by simp [soundStep, hop])
  case divI32Checked =>
    simp only [checkInstruction, hop] at hcheck
    simp only [instructionAccesses, soundStep, hop]
    refine division_step_safe_iff hcheck hregisters .inl ?_
    rintro (h | h) ⟨hl, hr⟩
    · rw [h] at hr
      exact absurd hr (by decide)
    · exact hmin (h.1.symm.trans hl)
  case remI32Checked =>
    simp only [checkInstruction, hop] at hcheck
    simp only [instructionAccesses, soundStep, hop]
    refine division_step_safe_iff hcheck hregisters id ?_
    rintro h ⟨-, hr⟩
    rw [h] at hr
    exact absurd hr (by decide)
  all_goals
    simp only [checkInstruction, hop] at hcheck
    simp only [instructionAccesses, soundStep, hop]
  case branchTrue | branchFalse =>
    have hleft := (valid_of_check hcheck).1
    simp only [validRegister, decide_eq_true_eq] at hleft
    simp [Access.safe]
    omega
  all_goals simp [validRegister, Access.safe] at hcheck ⊢
  all_goals omega

theorem soundStep_of_locals (hcheck : checkInstruction f i = none) (hlocals : f.localCount ≤ locals)
    (hdiv : i.opcode ≠ .divI32Checked) (hrem : i.opcode ≠ .remI32Checked) :
    soundStep locals i fr = true := by
  unfold soundStep
  split
  · rename_i hop
    simp [checkInstruction, hop, validIndex] at hcheck
    simp only [decide_eq_true_eq]
    omega
  · rename_i hop
    simp [checkInstruction, hop, validIndex] at hcheck
    simp only [decide_eq_true_eq]
    omega
  · rename_i hop
    exact absurd hop hdiv
  · rename_i hop
    exact absurd hop hrem
  · rfl

/-- The instructions that `execute_from` comes to, each with the frame that it finds. A step that
is not sound is the last one. -/
def visitsFrom (env : Env) (f : Function) : Nat → Frame → Nat → List (Instruction × Frame)
  | steps, fr, pc =>
    match f.instructions[pc]?, steps with
    | none, _ => []
    | some _, 0 => []
    | some i, steps + 1 =>
      (i, fr) ::
        if soundStep maxRegisters i fr then
          match effect env f i fr with
          | .next fr' => visitsFrom env f steps fr' (pc + 1)
          | .goto pc' fr' => visitsFrom env f steps fr' pc'
          | _ => []
        else []

def soundVisit (v : Instruction × Frame) : Bool := soundStep maxRegisters v.1 v.2

theorem accessesFrom_safe_iff (env : Env) (hverify : (irVerify f).status = .ok) (steps : Nat)
    (fr : Frame) (pc : Nat) :
    (accessesFrom env f steps fr pc).all Access.safe = true ↔
      (visitsFrom env f steps fr pc).all soundVisit = true := by
  obtain ⟨hregisters, hchecks, -⟩ := irVerify_ok.mp hverify
  induction steps generalizing fr pc with
  | zero =>
    unfold accessesFrom visitsFrom
    cases f.instructions[pc]? <;> simp
  | succ steps ih =>
    unfold accessesFrom visitsFrom
    cases hi : f.instructions[pc]? with
    | none => simp
    | some i =>
      have hpc : pc < f.instructions.length := (List.getElem?_eq_some_iff.mp hi).1
      have hstep : (instructionAccesses f maxRegisters maxRegisters i fr).all Access.safe = true ↔
          soundStep maxRegisters i fr = true :=
        instructionAccesses_safe_iff (hchecks i (List.mem_of_getElem? hi)) hregisters
      simp only [all_andThen, List.all_cons, Bool.and_eq_true, Access.safe, decide_eq_true_eq, hpc,
        true_and, hstep]
      rw [show soundVisit (i, fr) = soundStep maxRegisters i fr from rfl]
      cases hsound : soundStep maxRegisters i fr with
      | false => simp
      | true =>
        simp only [true_and, if_true]
        cases effect env f i fr with
        | next fr' => exact ih fr' (pc + 1)
        | goto pc' fr' => exact ih fr' pc'
        | done v => simp
        | bail reason => simp
        | fail status => simp

theorem argumentAccesses_safe {argumentCount : Nat} (hregisters : f.registerCount ≤ maxRegisters)
    (hcount : f.argumentCount ≤ argumentCount) {is : List Instruction} {pc : Nat}
    (hpc : pc + is.length ≤ f.instructions.length)
    (hchecks : ∀ i ∈ is, checkInstruction f i = none) :
    (argumentAccesses f argumentCount is pc).all Access.safe = true := by
  induction is generalizing pc with
  | nil => rfl
  | cons i rest ih =>
    rw [List.length_cons] at hpc
    have hrest : (argumentAccesses f argumentCount rest (pc + 1)).all Access.safe = true :=
      ih (by omega) fun j hj => hchecks j (List.mem_cons_of_mem i hj)
    have hindex : pc < f.instructions.length := by omega
    unfold argumentAccesses
    rw [List.all_cons, Bool.and_eq_true]
    refine ⟨by simpa [Access.safe] using hindex, ?_⟩
    split
    · rename_i hop
      have hcheck := hchecks i List.mem_cons_self
      simp only [checkInstruction, hop] at hcheck
      obtain ⟨hdestination, hrange⟩ := valid_of_check hcheck
      have himmediate := (valid_of_check hrange).1
      simp only [validRegister, validIndex, Bool.and_eq_true, decide_eq_true_eq]
        at hdestination himmediate
      rw [all_andThen]
      refine ⟨?_, hrest⟩
      simp only [List.all_cons, List.all_nil, Bool.and_true, Bool.and_eq_true, Access.safe,
        decide_eq_true_eq]
      omega
    · rfl

theorem restoreAccesses_safe_iff {count : Nat} {mask : Word} {source target : ArrayName}
    {sourceSize targetSize : Nat} (hsource : count ≤ sourceSize)
    (htarget : count ≤ 64 → count ≤ targetSize) :
    (restoreAccesses count mask source sourceSize target targetSize).all Access.safe = true ↔
      count ≤ 64 := by
  rw [List.all_eq_true]
  constructor
  · intro h
    by_contra hcount
    have hshift : Access.shift 64 ∈
        restoreAccesses count mask source sourceSize target targetSize := by
      apply List.mem_flatMap.mpr
      exact ⟨64, List.mem_range.mpr (by omega), List.mem_cons_self⟩
    have := h _ hshift
    simp [Access.safe] at this
  · intro hcount a ha
    obtain ⟨i, hi, hmem⟩ := List.mem_flatMap.mp ha
    have hi := List.mem_range.mp hi
    have htarget := htarget hcount
    rcases List.mem_cons.mp hmem with rfl | hmem
    · simp only [Access.safe, decide_eq_true_eq]
      omega
    · split at hmem
      · simp only [List.mem_cons, List.not_mem_nil, or_false] at hmem
        rcases hmem with rfl | rfl <;> simp only [Access.safe, decide_eq_true_eq] <;> omega
      · cases hmem

theorem restoreFrameAccesses_safe_iff {frame : DeoptFrame}
    (hregisters : f.registerCount ≤ maxRegisters) (hr : f.registerCount ≤ registers)
    (hl : f.localCount ≤ 64 → f.localCount ≤ locals)
    (hregisterValues : f.registerCount ≤ frame.registerValues.length)
    (hlocalValues : f.localCount ≤ frame.localValues.length) :
    (restoreFrameAccesses f frame registers locals).all Access.safe = true ↔
      f.localCount ≤ 64 := by
  unfold restoreFrameAccesses
  rw [all_andThen, restoreAccesses_safe_iff hregisterValues fun _ => hr,
    restoreAccesses_safe_iff hlocalValues hl]
  exact ⟨fun h => h.2, fun h => ⟨hregisters, h⟩⟩

theorem resumable_destination (hcheck : checkInstruction f i = none)
    (hop : resumable i.opcode = true) : i.destination < f.registerCount := by
  simp only [resumable, Bool.or_eq_true, decide_eq_true_eq] at hop
  rcases hop with hop | hop
  · by_contra hno
    rcases hop with ((((hop | hop) | hop) | hop) | hop) | hop <;>
      simp [checkInstruction, hop, validRegister, hno] at hcheck
  · obtain ⟨-, -, -, -, hdestination⟩ := call_safe hcheck (.inl hop)
    simpa [validRegister] using hdestination

theorem boxAccesses_safe {count : Nat} {values kinds : ArrayName} {size kindCount : Nat}
    (hcount : count ≤ 64) (hsize : count ≤ size) (hkinds : count ≤ kindCount) :
    (boxAccesses count values size kinds kindCount).all Access.safe = true := by
  rw [List.all_eq_true]
  intro a ha
  obtain ⟨i, hi, hmem⟩ := List.mem_flatMap.mp ha
  have hi := List.mem_range.mp hi
  rcases List.mem_cons.mp hmem with rfl | hmem
  · simp only [Access.safe, decide_eq_true_eq]
    omega
  · rw [if_pos (by omega)] at hmem
    simp only [List.mem_cons, List.not_mem_nil, or_false] at hmem
    rcases hmem with rfl | rfl | rfl <;> simp only [Access.safe, decide_eq_true_eq] <;> omega

theorem index_range_safe {array : ArrayName} {n size : Nat} (h : n ≤ size) :
    ((List.range n).map (Access.index array · size)).all Access.safe = true := by
  simp only [List.all_map, List.all_eq_true, List.mem_range, Function.comp_apply, Access.safe,
    decide_eq_true_eq]
  intro i hi
  omega

theorem clutchCallAccesses_safe (hcheck : checkInstruction f i = none)
    (hop : i.opcode = .callNativeI64) : (clutchCallAccesses f i).all Access.safe = true := by
  obtain ⟨site, hsite, hcount, hvalid, hdestination⟩ := call_safe hcheck (.inl hop)
  have hregisters : (site.arguments.map (Access.index .registers · (max f.registerCount 1))).all
      Access.safe = true := by
    simp only [List.all_map, List.all_eq_true, Function.comp_apply, Access.safe,
      decide_eq_true_eq]
    intro r hr
    have := List.all_eq_true.mp hvalid r hr
    simp only [validRegister, decide_eq_true_eq] at this
    omega
  have hlast : [Access.index .registers i.destination (max f.registerCount 1)].all Access.safe =
      true := by
    simp only [validRegister, decide_eq_true_eq] at hdestination
    simp only [List.all_cons, List.all_nil, Bool.and_true, Access.safe, decide_eq_true_eq]
    omega
  simp only [clutchCallAccesses, hsite, Nat.not_lt.mpr hcount, if_false, List.all_append,
    index_range_safe hcount, hregisters, hlast, Bool.and_self]

def HelperAnswers.Valid (answers : HelperAnswers) (f : Function) : Prop :=
  ∀ steps fr offset frame, answers.continuation steps fr = .helper offset frame →
    f.registerCount ≤ frame.registerValues.length ∧ f.localCount ≤ frame.localValues.length

/-- With at most 64 locals the loop that runs the helpers is safe, whatever they answer. -/
theorem helperAccessesFrom_safe (env : Env) (hverify : (irVerify f).status = .ok)
    {kinds : DeoptFrame} (hregisterKinds : f.registerCount ≤ kinds.registerKinds)
    (hlocalKinds : f.localCount ≤ kinds.localKinds) {answers : HelperAnswers}
    (hanswers : answers.Valid f) (hlocals : f.localCount ≤ 64) (steps : Nat) (fr : Frame)
    (pc : Nat) : (helperAccessesFrom env f kinds answers steps fr pc).all Access.safe = true := by
  obtain ⟨hregisters, hchecks, -⟩ := irVerify_ok.mp hverify
  have hbox : (boxFrameAccesses f kinds).all Access.safe = true := by
    unfold boxFrameAccesses
    rw [all_andThen]
    exact ⟨boxAccesses_safe hregisters (by omega) hregisterKinds,
      boxAccesses_safe hlocals (by omega) hlocalKinds⟩
  have hbuild : (buildArgumentsAccesses f).all Access.safe = true := by
    rw [buildArgumentsAccesses, List.all_append, index_range_safe (by omega),
      index_range_safe (by omega), Bool.and_self]
  induction steps generalizing fr pc with
  | zero =>
    unfold helperAccessesFrom
    cases hi : f.instructions[pc]? with
    | none => rfl
    | some i =>
      have hpc : pc < f.instructions.length := (List.getElem?_eq_some_iff.mp hi).1
      simpa [Access.safe] using hpc
  | succ steps ih =>
    unfold helperAccessesFrom
    cases hi : f.instructions[pc]? with
    | none => rfl
    | some i =>
      have hpc : pc < f.instructions.length := (List.getElem?_eq_some_iff.mp hi).1
      have hcheck := hchecks i (List.mem_of_getElem? hi)
      simp only [List.all_cons, Bool.and_eq_true, Access.safe, decide_eq_true_eq, hpc, true_and]
      by_cases hhelper : i.opcode = .runtimeHelper
      · -- the helper, and then the native code for what follows
        have hdestination : i.destination < f.registerCount := by
          simp only [checkInstruction, hhelper, validRegister] at hcheck
          by_contra hno
          simp [hno] at hcheck
        rw [if_pos hhelper]
        split
        · rfl
        rename_i hlimit
        rw [List.all_cons, Bool.and_eq_true]
        refine ⟨by simpa [Access.safe] using hlimit, ?_⟩
        cases answers.helper steps fr with
        | none => rfl
        | some r =>
          cases r with
          | error status => exact hbox
          | ok v =>
            simp only [all_andThen, hbox, true_and, List.all_cons, hbuild, Bool.and_true,
              Access.safe, decide_eq_true_eq]
            refine ⟨by omega, ?_⟩
            cases hnative : answers.continuation steps (fr.setRegister i.destination v) with
            | unsupported => exact ih _ _
            | finished => rfl
            | bailout => exact ih _ _
            | helper offset frame =>
              obtain ⟨hregisterValues, hlocalValues⟩ := hanswers _ _ _ _ hnative
              simp only
              split
              · rw [all_andThen, restoreFrameAccesses_safe_iff hregisters (by omega)
                  (fun _ => by omega) hregisterValues hlocalValues]
                exact ⟨hlocals, ih _ _⟩
              · rfl
      rw [if_neg hhelper]
      by_cases hcall : i.opcode = .callNativeI64
      · rw [if_pos hcall, all_andThen]
        refine ⟨clutchCallAccesses_safe hcheck hcall, ?_⟩
        cases effect env f i fr with
        | next fr' => exact ih _ _
        | goto pc' fr' => rfl
        | done v => rfl
        | bail reason => rfl
        | fail status => rfl
      rw [if_neg hcall]
      split
      · rename_i hruns
        rw [all_andThen, instructionAccesses_safe_iff hcheck (by omega)]
        refine ⟨?_, ?_⟩
        · refine soundStep_of_locals hcheck (by omega) ?_ ?_
          · intro h
            simp [runsWithHelpers, h] at hruns
          · intro h
            simp [runsWithHelpers, h] at hruns
        · cases effect env f i fr with
          | next fr' => exact ih _ _
          | goto pc' fr' => exact ih _ _
          | done v => rfl
          | bail reason => rfl
          | fail status => rfl
      · rfl

end

/-- The steps of `TurboJS_IRExecute`. -/
def executeVisits (env : Env) (f : Function) (arguments : List Word) : List (Instruction × Frame) :=
  let (fr, pc) := loadArguments arguments f.instructions .zero 0
  visitsFrom env f (stepLimit f) fr pc

/-- The steps of `TurboJS_IRResumeAfterBailout`, once the failed instruction has its result. -/
def resumeVisits (env : Env) (f : Function) (frame : DeoptFrame) (slowPathResult : Word) :
    List (Instruction × Frame) :=
  match f.instructions[frame.instructionIndex]? with
  | none => []
  | some failed =>
    if resumable failed.opcode then
      visitsFrom env f (stepLimit f)
        ((frame.restore .zero).setRegister failed.destination slowPathResult)
        (frame.instructionIndex + 1)
    else []

/-- The verifier makes every access safe except for the locals past the 64th and the quotient and
remainder of the least 64-bit integer by -1. -/
theorem verified_accesses_safe_iff (env : Env) {f : Function}
    (hverify : (irVerify f).status = .ok) :
    (∀ arguments : List Word, f.argumentCount ≤ arguments.length →
      ((executeAccesses env f arguments).all Access.safe = true ↔
        (executeVisits env f arguments).all soundVisit = true)) ∧
    (∀ (frame : DeoptFrame) (slowPathResult : Word), frame.Valid →
      ((resumeAccesses env f frame slowPathResult).all Access.safe = true ↔
        (resumes f frame = true → f.localCount ≤ 64 ∧
          (resumeVisits env f frame slowPathResult).all soundVisit = true))) ∧
    (∀ (frame : DeoptFrame) (answers : HelperAnswers), frame.Valid → answers.Valid f →
      ((resumeWithHelpersAccesses env f frame answers).all Access.safe = true ↔
        (resumes f frame = true → frame.reason = .runtimeHelper → f.localCount ≤ 64))) := by
  obtain ⟨hregisters, hchecks, -⟩ := irVerify_ok.mp hverify
  refine ⟨?_, ?_, ?_⟩
  · intro arguments hcount
    unfold executeAccesses executeVisits
    rw [if_neg (Nat.not_lt.mpr hcount), if_neg (not_not_intro hverify)]
    have hload : (argumentAccesses f arguments.length f.instructions 0).all Access.safe = true :=
      argumentAccesses_safe hregisters hcount (by omega) hchecks
    simp only [all_andThen, hload, true_and]
    exact accessesFrom_safe_iff env hverify _ _ _
  · intro frame slowPathResult hframe
    unfold resumeAccesses
    cases hresumes : resumes f frame with
    | false => simp
    | true =>
      simp only [resumes, decide_eq_true_eq] at hresumes
      obtain ⟨-, hindex, -, hregisterCount, hlocalCount⟩ := hresumes
      have hframeRegisters := hframe.registerValues
      have hframeLocals := hframe.localValues
      rw [hregisterCount] at hframeRegisters
      rw [hlocalCount] at hframeLocals
      have hrestore : (restoreFrameAccesses f frame maxRegisters maxRegisters).all Access.safe =
          true ↔ f.localCount ≤ 64 :=
        restoreFrameAccesses_safe_iff hregisters hregisters id hframeRegisters hframeLocals
      simp only [Bool.not_true, Bool.false_eq_true, if_false, all_andThen, hrestore,
        forall_const]
      refine and_congr_right fun _ => ?_
      have hfailed : f.instructions[frame.instructionIndex]? =
          some f.instructions[frame.instructionIndex] := List.getElem?_eq_getElem hindex
      unfold resumeVisits
      generalize f.instructions[frame.instructionIndex] = failed at hfailed
      simp only [hfailed, List.all_cons, Bool.and_eq_true, Access.safe, decide_eq_true_eq, hindex,
        true_and]
      cases hop : resumable failed.opcode with
      | false => simp
      | true =>
        have hdestination : failed.destination < maxRegisters := Nat.lt_of_lt_of_le
          (resumable_destination (hchecks failed (List.mem_of_getElem? hfailed)) hop) hregisters
        simp only [if_true, all_andThen, List.all_cons, List.all_nil, Bool.and_true, Access.safe,
          decide_eq_true_eq, hdestination, true_and]
        exact accessesFrom_safe_iff env hverify _ _ _
  · intro frame answers hframe hanswers
    unfold resumeWithHelpersAccesses
    by_cases henters : resumes f frame = true ∧ frame.reason = .runtimeHelper
    · obtain ⟨hresumes, hreason⟩ := henters
      have hcounts := hresumes
      simp only [resumes, decide_eq_true_eq] at hcounts
      obtain ⟨-, -, -, hregisterCount, hlocalCount⟩ := hcounts
      have hframeRegisters := hframe.registerValues
      have hframeLocals := hframe.localValues
      have hregisterKinds := hframe.registerKinds
      have hlocalKinds := hframe.localKinds
      rw [hregisterCount] at hframeRegisters hregisterKinds
      rw [hlocalCount] at hframeLocals hlocalKinds
      simp only [hresumes, hreason, and_self, decide_true, Bool.not_true, Bool.false_eq_true,
        if_false, forall_const, all_andThen]
      rw [restoreFrameAccesses_safe_iff hregisters (by omega) (fun _ => by omega) hframeRegisters
        hframeLocals]
      refine ⟨fun h => h.1, fun h => ⟨h, ?_⟩⟩
      exact helperAccessesFrom_safe env hverify hregisterKinds hlocalKinds hanswers h _ _ _
    · rw [if_pos (by simpa only [Bool.not_eq_true', decide_eq_false_iff_not] using henters)]
      refine iff_of_true rfl ?_
      intro hresumes hreason
      exact absurd ⟨hresumes, hreason⟩ henters

def divisionFunction : Function where
  instructions :=
    [{ opcode := .argument, destination := 0, immediate := 0 },
      { opcode := .argument, destination := 1, immediate := 1 },
      { opcode := .divI32Checked, destination := 0, left := 0, right := 1 },
      { opcode := .returnI64, left := 0 }]
  registerCount := 2
  argumentCount := 2
  localCount := 0

def localFunction : Function where
  instructions :=
    [{ opcode := .localGet, destination := 0, immediate := 64 }, { opcode := .returnI64, left := 0 }]
  registerCount := 1
  argumentCount := 0
  localCount := 65

def plainEnv : Env where
  addF64 _ _ := 0
  subF64 _ _ := 0
  mulF64 _ _ := 0
  divF64 _ _ := 0
  lessThanF64 _ _ := false
  lessEqualF64 _ _ := false
  equalF64 _ _ := false
  i64ToF64 _ := 0
  f64ToI64 _ := 0
  arity _ := 0
  native _ _ := none

theorem division_is_safe :
    (executeAccesses plainEnv divisionFunction [7, 2]).all Access.safe = true := by
  have hverify : (irVerify divisionFunction).status = .ok := by decide +kernel
  refine ((verified_accesses_safe_iff plainEnv hverify).1 [7, 2] (by decide)).mpr ?_
  decide +kernel

/-- The last local is read past the end of the array of locals, and the least integer is divided
by -1. -/
theorem verified_functions_are_unsafe :
    (irVerify localFunction).status = .ok ∧
    Access.index .locals 64 64 ∈ executeAccesses plainEnv localFunction [] ∧
    (executeAccesses plainEnv localFunction []).all Access.safe = false ∧
    (irVerify divisionFunction).status = .ok ∧
    Access.divide int64Min (-1) ∈ executeAccesses plainEnv divisionFunction [int64Min, -1] ∧
    (executeAccesses plainEnv divisionFunction [int64Min, -1]).all Access.safe = false := by
  refine ⟨?_, ?_, ?_, ?_, ?_, ?_⟩ <;> decide +kernel

end TurboJS.IR
