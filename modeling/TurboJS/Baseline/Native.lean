import TurboJS.Baseline.Step

namespace TurboJS.Baseline

open IR Foundation

/-- The machine as the caller enters the code: the four pointers are set and the deopt
values cleared. Nothing is said about the frame. -/
structure Enters (m : Machine) : Prop where
  arguments : m.gpr 7 = .pointer .arguments
  result : m.gpr 6 = .pointer .result
  deopt : m.gpr 2 = .pointer .deopt
  safepoint : m.gpr 1 = .pointer .safepoint
  cleared : m.deopt = fun _ => 0
  polls : m.polls = 0

/-- A native run in terms of the IR. `written` holds the frame cells that the run has
stored into. -/
structure NativeState where
  pc : Nat
  polls : Nat
  frame : Frame
  written : Set Nat

def NativeState.initial : NativeState := ⟨0, 0, .zero, ∅⟩

def effectAt (w : World) (f : Function) (s : NativeState) : Option (Instruction × Effect) := do
  let i ← f.instructions[s.pc]?
  some (i, nativeEffect w f s.pc i s.polls s.frame)

def nativeNext (w : World) (f : Function) (s : NativeState) : Option NativeState :=
  match effectAt w f s with
  | some (i, .next fr) =>
    some ⟨s.pc + 1, pollsAfter s.pc i s.polls, fr, writtenAfter f i s.written⟩
  | some (i, .goto t fr) => some ⟨t, pollsAfter s.pc i s.polls, fr, writtenAfter f i s.written⟩
  | _ => none

inductive NativeEnding where
  | returned (v : Word)
  | bailed (reason : BailoutReason)
  deriving DecidableEq, Repr

def nativeEnd (w : World) (f : Function) (s : NativeState) : Option NativeEnding :=
  match effectAt w f s with
  | some (_, .done v) => some (.returned v)
  | some (_, .bail reason) => some (.bailed reason)
  | _ => none

abbrev Follows (w : World) (f : Function) : NativeState → NativeState → Prop :=
  Runs (nativeNext w f) (fun _ => True)

/-- The run is inside the code, the instruction reads written cells only, and native code has
a result for it. -/
def Defined (w : World) (f : Function) (s : NativeState) : Prop :=
  ∃ i, f.instructions[s.pc]? = some i ∧ (∀ c ∈ cellReads f i, c ∈ s.written) ∧
    ∀ status, nativeEffect w f s.pc i s.polls s.frame ≠ .fail status

def Exits (f : Function) (s : NativeState) : NativeEnding → Machine → Prop
  | .returned v, m => m.gpr 0 = .word 0 ∧ m.result = v
  | .bailed reason, m => BailsAt f s.pc (statusCode reason) s.written s.frame m

structure Stands (w : World) (f : Function) (s : NativeState) (p : Int × Machine) : Prop where
  reached : Follows w f .initial s
  place : p.1 = offsetOf f s.pc
  agrees : Agrees f s.written s.frame s.polls p.2
  cells : ∀ c ∈ s.written, c < f.registerCount + f.localCount

section

variable {w : World} {f : Function} {code : List Op} {s s' : NativeState} {p : Int × Machine}
  {m m' : Machine} {e : NativeEnding} {k : Nat} {i : Instruction}

theorem cellWrite_bound (hcheck : checkInstruction f i = none) {c : Nat}
    (hc : cellWrite f i = some c) : c < f.registerCount + f.localCount := by
  unfold cellWrite at hc
  cases hop : i.opcode
  case callNativeI64 | callNativeF64 =>
    cases hs : i.site with
    | none => simp [checkInstruction, hop, hs] at hcheck
    | some site =>
      simp [checkInstruction, hop, hs, validRegister, check_passed] at hcheck
      simp only [hop, Option.some.injEq] at hc
      omega
  all_goals simp only [hop, Option.some.injEq, reduceCtorEq] at hc
  all_goals
    simp [checkInstruction, hop, validRegister, validIndex, check_passed] at hcheck
    omega

theorem writtenAfter_bound (hcheck : checkInstruction f i = none) {W : Set Nat}
    (hW : ∀ c ∈ W, c < f.registerCount + f.localCount) :
    ∀ c ∈ writtenAfter f i W, c < f.registerCount + f.localCount := by
  intro c hc
  unfold writtenAfter at hc
  split at hc
  · rename_i d hd
    rcases Set.mem_insert_iff.mp hc with rfl | hc
    · exact cellWrite_bound hcheck hd
    · exact hW c hc
  · exact hW c hc

theorem emitInstruction_ne_nil {disp : Int} : emitInstruction f k i disp ≠ some [] := by
  unfold emitInstruction
  cases i.opcode
  case callNativeI64 | callNativeF64 =>
    cases i.site <;> simp [emitCallNative]
  all_goals simp [binaryOps, binaryF64, comparisonF64, returnBailoutAt]

theorem offsetOf_lt_succ (hcode : baselineCode f = some code)
    (hi : f.instructions[k]? = some i) : offsetOf f k < offsetOf f (k + 1) := by
  obtain ⟨ops, hemit, -, hnext⟩ := baselineCode_placed hcode hi
  cases ops with
  | nil => exact absurd hemit emitInstruction_ne_nil
  | cons op ops =>
    have hpos := op.size_pos
    rw [extent_cons] at hnext
    omega

theorem offsetOf_mono (f : Function) {a b : Nat} (h : a ≤ b) : offsetOf f a ≤ offsetOf f b := by
  obtain ⟨d, rfl⟩ := Nat.exists_eq_add_of_le h
  rw [offsetOf, offsetOf, List.take_add, List.map_append, List.sum_append]
  omega

def Effect.Flows (k : Nat) (i : Instruction) : Effect → Prop
  | .next _ => k + 1 ∈ successors k i
  | .goto t _ => t ∈ successors k i ∧ t = i.target ∧
      (i.opcode = .jump ∨ i.opcode = .branchTrue ∨ i.opcode = .branchFalse)
  | .bail reason => reason ≠ .none
  | _ => True

theorem refEffect_flows (env : Env) (f : Function) (arguments : List Word) (k : Nat)
    (i : Instruction) (fr : Frame) : Effect.Flows k i (refEffect env f arguments i fr) := by
  unfold refEffect effect checkedI32 callNative
  cases hop : i.opcode <;> simp only
  all_goals (repeat' split) <;> simp_all [Effect.Flows, successors]

theorem nativeEffect_flows (w : World) (f : Function) (k : Nat) (i : Instruction) (n : Nat)
    (fr : Frame) : Effect.Flows k i (nativeEffect w f k i n fr) := by
  unfold nativeEffect
  split
  · simp [Effect.Flows]
  · split
    · rename_i hcall
      simp only [isCallNative, Bool.or_eq_true, decide_eq_true_eq] at hcall
      unfold nativeCall
      rcases hcall with hop | hop
      all_goals (repeat' split) <;> simp [Effect.Flows, successors, hop]
    · split
      · trivial
      · exact refEffect_flows ..

theorem polls_of_goto {t n : Nat} {fr fr' : Frame} (h : nativeEffect w f k i n fr = .goto t fr')
    (hback : t ≤ k) : pollsAt k i = true := by
  have hflows := nativeEffect_flows w f k i n fr
  rw [h] at hflows
  obtain ⟨-, rfl, hop⟩ := hflows
  rcases hop with hop | hop | hop <;> simp [pollsAt, hop, hback]

theorem nativeNext_cases (h : nativeNext w f s = some s') :
    ∃ i, f.instructions[s.pc]? = some i ∧ ((∃ fr, nativeEffect w f s.pc i s.polls s.frame = .next fr ∧
        s' = ⟨s.pc + 1, pollsAfter s.pc i s.polls, fr, writtenAfter f i s.written⟩) ∨
      ∃ t fr, nativeEffect w f s.pc i s.polls s.frame = .goto t fr ∧
        s' = ⟨t, pollsAfter s.pc i s.polls, fr, writtenAfter f i s.written⟩) := by
  unfold nativeNext effectAt at h
  cases hi : f.instructions[s.pc]? with
  | none => simp [hi] at h
  | some i =>
    refine ⟨i, rfl, ?_⟩
    rw [hi, Option.bind_eq_bind, Option.bind_some] at h
    cases he : nativeEffect w f s.pc i s.polls s.frame with
    | next fr =>
      simp only [he, Option.some.injEq] at h
      exact .inl ⟨fr, rfl, h.symm⟩
    | goto t fr =>
      simp only [he, Option.some.injEq] at h
      exact .inr ⟨t, fr, rfl, h.symm⟩
    | done v => simp [he] at h
    | bail r => simp [he] at h
    | fail st => simp [he] at h

theorem nativeNext_of_end (h : nativeEnd w f s = some e) : nativeNext w f s = none := by
  unfold nativeEnd at h
  split at h
  · rename_i he
    simp [nativeNext, he]
  · rename_i he
    simp [nativeNext, he]
  · cases h

theorem Stands.advances (hcode : baselineCode f = some code) (hsmall : extent Op.size code < 2 ^ 31)
    (h : Stands w f s p) (hdef : Defined w f s) :
    (∃ s' p', nativeNext w f s = some s' ∧ Executes w f code p p' ∧ p' ≠ p ∧ Stands w f s' p') ∨
      ∃ e m', nativeEnd w f s = some e ∧ Leaves w f code p m' ∧ Exits f s e m' := by
  obtain ⟨pc, m⟩ := p
  obtain ⟨hreached, hplace, hag, hcells⟩ := h
  simp only at hplace
  subst hplace
  obtain ⟨i, hi, hreads, hfail⟩ := hdef
  have hat : At f code s.pc i s.written s.frame s.polls m :=
    ⟨hcode, hsmall, hi, hag, hcells, hreads⟩
  have hbounds := writtenAfter_bound hat.checks hcells
  have hsim := hat.simulates w
  have heffect : effectAt w f s = some (i, nativeEffect w f s.pc i s.polls s.frame) := by
    simp [effectAt, hi]
  have hlt := offsetOf_lt_succ hcode hi
  cases he : nativeEffect w f s.pc i s.polls s.frame with
  | next fr =>
    rw [he] at hsim heffect
    obtain ⟨m', hrun, hag'⟩ := hsim
    have hnext : nativeNext w f s =
        some ⟨s.pc + 1, pollsAfter s.pc i s.polls, fr, writtenAfter f i s.written⟩ := by
      simp [nativeNext, heffect]
    refine .inl ⟨_, _, hnext, hrun, ?_, ?_⟩
    · intro heq
      have hpc := congrArg Prod.fst heq
      simp only at hpc
      omega
    · exact ⟨hreached.trans (.one trivial hnext), rfl, hag', hbounds⟩
  | goto t fr =>
    rw [he] at hsim heffect
    obtain ⟨m', hrun, hag'⟩ := hsim
    have hnext : nativeNext w f s =
        some ⟨t, pollsAfter s.pc i s.polls, fr, writtenAfter f i s.written⟩ := by
      simp [nativeNext, heffect]
    refine .inl ⟨_, _, hnext, hrun, ?_, ?_⟩
    · intro heq
      by_cases hback : t ≤ s.pc
      · -- A branch back has counted its poll.
        have hpolls : m'.polls = m.polls := congrArg (fun p => p.2.polls) heq
        rw [hag.polls, hag'.polls, pollsAfter, polls_of_goto he hback, if_pos rfl] at hpolls
        omega
      · have hpc := congrArg Prod.fst heq
        have hmono := offsetOf_mono f (show s.pc + 1 ≤ t by omega)
        simp only at hpc
        omega
    · exact ⟨hreached.trans (.one trivial hnext), rfl, hag', hbounds⟩
  | done v =>
    rw [he] at hsim heffect
    obtain ⟨m', hleaves, hstatus, hresult⟩ := hsim
    exact .inr ⟨.returned v, m', by simp [nativeEnd, heffect], hleaves, hstatus, hresult⟩
  | bail reason =>
    rw [he] at hsim heffect
    obtain ⟨m', hleaves, hb⟩ := hsim
    exact .inr ⟨.bailed reason, m', by simp [nativeEnd, heffect], hleaves, hb⟩
  | fail status => exact absurd he (hfail status)

theorem Enters.prologue (hcode : baselineCode f = some code) (h : Enters m) :
    ∃ m₁, Executes w f code (0, m) (offsetOf f 0, m₁) ∧
      ∀ W fr, (∀ c ∈ W, m.frame (slotDisp c) = frameCell f fr c) → Agrees f W fr 0 m₁ := by
  obtain ⟨hat, hoff⟩ := baselineCode_entry hcode
  have hexec : execAll w f (Baseline.prologue f) m =
      some ((((m.set 11 (.pointer .arguments)).set 10 (.pointer .result)).set 9
        (.pointer .deopt)).set 8 (.pointer .safepoint)) := by
    simp [Baseline.prologue, execAll_cons, exec, h.arguments, h.result, h.deopt, h.safepoint]
  have hrun := hat.straight hexec
  rw [Nat.zero_add, hoff] at hrun
  refine ⟨_, hrun, ?_⟩
  intro W fr hcells
  exact ⟨hcells, by simp, by simp, by simp, by simp, h.polls⟩

theorem Enters.stands (hcode : baselineCode f = some code) (h : Enters m) :
    ∃ p, Executes w f code (0, m) p ∧ Stands w f .initial p := by
  obtain ⟨m₁, hrun, hagrees⟩ := h.prologue (w := w) hcode
  refine ⟨_, hrun, .refl _, rfl, hagrees ∅ .zero ?_, ?_⟩
  · intro c hc
    exact hc.elim
  · intro c hc
    exact hc.elim

theorem Stands.leaves (hcode : baselineCode f = some code) (hsmall : extent Op.size code < 2 ^ 31)
    (hdef : ∀ s, Follows w f .initial s → Defined w f s) (h : Stands w f s p)
    (hrun : Follows w f s s') (hend : nativeEnd w f s' = some e) :
    ∃ m', Leaves w f code p m' ∧ Exits f s' e m' := by
  induction hrun generalizing p with
  | refl s =>
    rcases h.advances hcode hsmall (hdef s h.reached) with
      ⟨s', -, hnext, -⟩ | ⟨e', m', he, hleaves, hx⟩
    · rw [nativeNext_of_end hend] at hnext
      cases hnext
    · rw [he] at hend
      cases hend
      exact ⟨m', hleaves, hx⟩
  | head _ hs _ ih =>
    rcases h.advances hcode hsmall (hdef _ h.reached) with
      ⟨s', p', hnext, hrun, -, hstands⟩ | ⟨e', m', he, -⟩
    · rw [hs] at hnext
      cases hnext
      obtain ⟨m', hleaves, hx⟩ := ih hstands hend
      exact ⟨m', hleaves.after hrun, hx⟩
    · rw [nativeNext_of_end he] at hs
      cases hs

theorem Stands.ends (hcode : baselineCode f = some code) (hsmall : extent Op.size code < 2 ^ 31)
    (hdef : ∀ s, Follows w f .initial s → Defined w f s) (h : Stands w f s p)
    (hleaves : Leaves w f code p m') :
    ∃ s' e, Follows w f .initial s' ∧ nativeEnd w f s' = some e ∧ Exits f s' e m' := by
  obtain ⟨pc, hrun, hhalt⟩ := hleaves
  have hends := Runs.ends (P := fun p => ∃ s, Stands w f s p)
    (Q := fun p => ∃ s' e, Follows w f .initial s' ∧ nativeEnd w f s' = some e ∧ Exits f s' e p.2)
    ?_ hrun (not_not.mpr hhalt) ⟨s, h⟩
  · exact hends
  · rintro p ⟨s, hs⟩
    rcases hs.advances hcode hsmall (hdef s hs.reached) with
      ⟨s', p', -, hrun', hne, hs'⟩ | ⟨e, m₁, he, ⟨pc₁, hrun', hhalt'⟩, hx⟩
    · exact .inl ⟨p', hrun', hne, s', hs'⟩
    · exact .inr ⟨_, hrun', not_not.mpr hhalt', s, e, hs.reached, he, hx⟩

end

end TurboJS.Baseline
