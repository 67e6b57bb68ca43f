import TurboJS.IR.Interpreter

namespace TurboJS.IR

/-! The interpreter without its step limit, and with arguments loaded where they stand. -/

def refEffect (env : Env) (f : Function) (arguments : List Word) (i : Instruction) (fr : Frame) :
    Effect :=
  if i.opcode = .argument then
    .next (fr.setRegister i.destination (arguments.getD i.immediate.toNat 0))
  else effect env f i fr

inductive Ending where
  | returned (v : Word)
  | bailed (index : Nat) (reason : BailoutReason)
  deriving DecidableEq, Repr

inductive Ends (env : Env) (f : Function) (arguments : List Word) :
    Nat → Frame → Nat → Ending → Prop where
  | done {fr : Frame} {pc : Nat} {i : Instruction} {v : Word} (hi : f.instructions[pc]? = some i)
      (hb : localsInBounds i = true) (he : refEffect env f arguments i fr = .done v) :
      Ends env f arguments 0 fr pc (.returned v)
  | bail {fr : Frame} {pc : Nat} {i : Instruction} {reason : BailoutReason}
      (hi : f.instructions[pc]? = some i) (hb : localsInBounds i = true)
      (he : refEffect env f arguments i fr = .bail reason) :
      Ends env f arguments 0 fr pc (.bailed pc reason)
  | next {n : Nat} {fr fr' : Frame} {pc : Nat} {i : Instruction} {e : Ending}
      (hi : f.instructions[pc]? = some i) (hb : localsInBounds i = true)
      (he : refEffect env f arguments i fr = .next fr')
      (rest : Ends env f arguments n fr' (pc + 1) e) : Ends env f arguments (n + 1) fr pc e
  | goto {n : Nat} {fr fr' : Frame} {pc pc' : Nat} {i : Instruction} {e : Ending}
      (hi : f.instructions[pc]? = some i) (hb : localsInBounds i = true)
      (he : refEffect env f arguments i fr = .goto pc' fr')
      (rest : Ends env f arguments n fr' pc' e) : Ends env f arguments (n + 1) fr pc e

section

variable {env : Env} {f : Function} {arguments : List Word} {n : Nat} {fr fr' : Frame}
  {pc pc' : Nat} {i : Instruction} {e : Ending}

theorem refEffect_of_ne (h : i.opcode ≠ .argument) :
    refEffect env f arguments i fr = effect env f i fr := by
  simp [refEffect, h]

theorem Ends.head (h : Ends env f arguments n fr pc e) (hi : f.instructions[pc]? = some i) :
    match refEffect env f arguments i fr with
    | .next fr' => ∃ m, n = m + 1 ∧ Ends env f arguments m fr' (pc + 1) e
    | .goto pc' fr' => ∃ m, n = m + 1 ∧ Ends env f arguments m fr' pc' e
    | .done v => e = .returned v
    | .bail reason => e = .bailed pc reason
    | .fail _ => False := by
  cases h with
  | done hi' _ he =>
    obtain rfl := Option.some.inj (hi.symm.trans hi')
    rw [he]
  | bail hi' _ he =>
    obtain rfl := Option.some.inj (hi.symm.trans hi')
    rw [he]
  | next hi' _ he rest =>
    obtain rfl := Option.some.inj (hi.symm.trans hi')
    rw [he]
    exact ⟨_, rfl, rest⟩
  | goto hi' _ he rest =>
    obtain rfl := Option.some.inj (hi.symm.trans hi')
    rw [he]
    exact ⟨_, rfl, rest⟩

theorem Ends.of_next (h : Ends env f arguments n fr pc e) (hi : f.instructions[pc]? = some i)
    (he : refEffect env f arguments i fr = .next fr') :
    ∃ m, n = m + 1 ∧ Ends env f arguments m fr' (pc + 1) e := by
  have hhead := h.head hi
  rw [he] at hhead
  exact hhead

theorem Ends.of_goto (h : Ends env f arguments n fr pc e) (hi : f.instructions[pc]? = some i)
    (he : refEffect env f arguments i fr = .goto pc' fr') :
    ∃ m, n = m + 1 ∧ Ends env f arguments m fr' pc' e := by
  have hhead := h.head hi
  rw [he] at hhead
  exact hhead

theorem Ends.unique {n' : Nat} {e' : Ending} (h : Ends env f arguments n fr pc e)
    (h' : Ends env f arguments n' fr pc e') : e = e' := by
  induction h generalizing n' with
  | done hi _ he | bail hi _ he =>
    have hhead := h'.head hi
    rw [he] at hhead
    exact hhead.symm
  | next hi _ he _ ih =>
    obtain ⟨m, -, hm⟩ := h'.of_next hi he
    exact ih hm
  | goto hi _ he _ ih =>
    obtain ⟨m, -, hm⟩ := h'.of_goto hi he
    exact ih hm

theorem Ends.inside (h : Ends env f arguments n fr pc e) : pc < f.instructions.length := by
  have hsome : ∃ i, f.instructions[pc]? = some i := by
    cases h with
    | done hi => exact ⟨_, hi⟩
    | bail hi => exact ⟨_, hi⟩
    | next hi => exact ⟨_, hi⟩
    | goto hi => exact ⟨_, hi⟩
  obtain ⟨i, hi⟩ := hsome
  exact (List.getElem?_eq_some_iff.mp hi).1

theorem ends_of_executeFrom {steps : Nat} {v : Word}
    (h : executeFrom env f steps fr pc = .ok v) :
    ∃ n, Ends env f arguments n fr pc (.returned v) := by
  induction steps generalizing fr pc with
  | zero =>
    unfold executeFrom at h
    cases hi : f.instructions[pc]? <;> simp [hi] at h
  | succ steps ih =>
    unfold executeFrom at h
    cases hi : f.instructions[pc]? with
    | none => simp [hi] at h
    | some i =>
      simp only [hi] at h
      split at h
      · cases h
      · rename_i hb
        have hb' : localsInBounds i = true := by simpa using hb
        have harg : i.opcode ≠ .argument := by
          intro ho
          simp [effect, ho] at h
        have href : refEffect env f arguments i fr = effect env f i fr := refEffect_of_ne harg
        cases he : effect env f i fr with
        | next fr' =>
          simp only [he] at h
          obtain ⟨n, hn⟩ := ih h
          exact ⟨n + 1, .next hi hb' (href.trans he) hn⟩
        | goto pc' fr' =>
          simp only [he] at h
          obtain ⟨n, hn⟩ := ih h
          exact ⟨n + 1, .goto hi hb' (href.trans he) hn⟩
        | done u =>
          simp only [he, Outcome.ok.injEq] at h
          subst h
          exact ⟨0, .done hi hb' (href.trans he)⟩
        | bail r => simp [he] at h
        | fail s => simp [he] at h

theorem ends_of_loadArguments {is : List Instruction} {steps : Nat} {v : Word}
    (hd : f.instructions.drop pc = is)
    (h : executeFrom env f steps (loadArguments arguments is fr pc).1
      (loadArguments arguments is fr pc).2 = .ok v) :
    ∃ n, Ends env f arguments n fr pc (.returned v) := by
  induction is generalizing fr pc with
  | nil => exact ends_of_executeFrom h
  | cons i rest ih =>
    unfold loadArguments at h
    split at h
    · rename_i ho
      have hi : f.instructions[pc]? = some i := by
        rw [← List.head?_drop, hd]
        rfl
      have hd' : f.instructions.drop (pc + 1) = rest := by
        rw [← List.tail_drop, hd]
        rfl
      obtain ⟨n, hn⟩ := ih hd' h
      have hb : localsInBounds i = true := by simp [localsInBounds, ho]
      have he : refEffect env f arguments i fr =
          .next (fr.setRegister i.destination (arguments.getD i.immediate.toNat 0)) := by
        simp [refEffect, ho]
      exact ⟨n + 1, .next hi hb he hn⟩
    · exact ends_of_executeFrom h

theorem ends_of_irExecute {v : Word} (h : irExecute env f arguments = .ok v) :
    ∃ n, Ends env f arguments n .zero 0 (.returned v) := by
  unfold irExecute at h
  split at h
  · cases h
  · split at h
    · cases h
    · exact ends_of_loadArguments List.drop_zero h

end

end TurboJS.IR
