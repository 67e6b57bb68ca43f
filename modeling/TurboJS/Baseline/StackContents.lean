import TurboJS.Baseline.DeoptFrame

namespace TurboJS.Baseline

open IR Foundation

def IgnoresStack (w : World) (f : Function) (code : List Op) : Prop :=
  ∀ m m', Enters m → Enters m' → ∀ r, Invokes w f code m r ↔ Invokes w f code m' r

/-- The run stays inside the code and reads written cells only, and where it bails out every
materialized cell has been written. -/
structure WrittenFirst (w : World) (f : Function) (s : NativeState) : Prop where
  defined : Defined w f s
  materialized : ∀ reason, nativeEnd w f s = some (.bailed reason) →
    materializedCells f s.pc ⊆ s.written

section

variable {w : World} {f : Function} {code : List Op} {m m' : Machine} {r : NativeResult}

theorem leaves_unique {p : Int × Machine} (h : Leaves w f code p m) (h' : Leaves w f code p m') :
    m = m' := by
  obtain ⟨pc, hrun, hhalt⟩ := h
  obtain ⟨pc', hrun', hhalt'⟩ := h'
  have heq := hrun.exit_unique hrun' (not_not.mpr hhalt) (not_not.mpr hhalt')
  exact congrArg Prod.snd heq

theorem Leaves.behind {p p' : Int × Machine} (h : Leaves w f code p m)
    (hrun : Executes w f code p p') : Leaves w f code p' m := by
  obtain ⟨pc, hleaves, hhalt⟩ := h
  exact ⟨pc, hrun.rest_of_exit hleaves (not_not.mpr hhalt), hhalt⟩

theorem invokes_iff (hcode : baselineCode f = some code) (hsmall : extent Op.size code < 2 ^ 31)
    (hrun : ∀ s, Follows w f .initial s → WrittenFirst w f s) (hm : Enters m)
    (hargs : f.argumentCount ≤ w.arguments.length) :
    Invokes w f code m r ↔
      ∃ s e, Follows w f .initial s ∧ nativeEnd w f s = some e ∧ r = resultOf f s e := by
  have hdef : ∀ s, Follows w f .initial s → Defined w f s := fun s hs => (hrun s hs).defined
  obtain ⟨p, hentry, hstands⟩ := hm.stands (w := w) hcode
  have hmasks : ∀ s e, Follows w f .initial s → nativeEnd w f s = some e →
      ∀ reason, e = .bailed reason → materializedCells f s.pc ⊆ s.written := by
    intro s e hs hend reason he
    subst he
    exact (hrun s hs).materialized reason hend
  constructor
  · intro h
    cases h with
    | rejected h => omega
    | ran _ hleaves hr =>
      obtain ⟨s, e, hs, hend, hx⟩ := hstands.ends hcode hsmall hdef (hleaves.behind hentry)
      rw [hx.result hcode hsmall hend (hmasks s e hs hend)] at hr
      exact ⟨s, e, hs, hend, (Option.some.inj hr).symm⟩
  · rintro ⟨s, e, hs, hend, rfl⟩
    obtain ⟨m', hleaves, hx⟩ := hstands.leaves hcode hsmall hdef hs hend
    exact .ran hargs (hleaves.after hentry) (hx.result hcode hsmall hend (hmasks s e hs hend))

/-- Native code whose run writes every cell before it reads it, and before the masks promise
it, does not show what the frame held. -/
theorem native_results_ignore_stack (w : World) (f : Function) (code : List Op)
    (hcode : baselineCode f = some code) (hsmall : extent Op.size code < 2 ^ 31)
    (hrun : ∀ s, Follows w f .initial s → WrittenFirst w f s) : IgnoresStack w f code := by
  intro m m' hm hm' r
  by_cases hargs : f.argumentCount ≤ w.arguments.length
  · rw [invokes_iff hcode hsmall hrun hm hargs, invokes_iff hcode hsmall hrun hm' hargs]
  · constructor
    · intro h
      cases h with
      | rejected h => exact .rejected h
      | ran h => exact absurd h hargs
    · intro h
      cases h with
      | rejected h => exact .rejected h
      | ran h => exact absurd h hargs

end

def stillWorld (arguments : List Word) : World where
  env :=
    { addF64 := fun _ _ => 0, subF64 := fun _ _ => 0, mulF64 := fun _ _ => 0,
      divF64 := fun _ _ => 0, lessThanF64 := fun _ _ => false, lessEqualF64 := fun _ _ => false,
      equalF64 := fun _ _ => false, i64ToF64 := fun _ => 0, f64ToI64 := fun _ => 0,
      arity := fun _ => 0, native := fun _ _ => none }
  arguments := arguments
  heap := fun _ _ => 0
  requested := fun _ => false
  beside := fun _ => 0
  clobbered := fun _ => .word 0
  clobberedXmm := fun _ => 0

def freshMachine (stale : Word) : Machine where
  gpr := fun r =>
    if r = 7 then .pointer .arguments
    else if r = 6 then .pointer .result
    else if r = 2 then .pointer .deopt
    else if r = 1 then .pointer .safepoint
    else .word 0
  xmm := fun _ => 0
  flags := none
  frame := fun _ => stale
  result := 0
  deopt := fun _ => 0
  stack := []
  polls := 0

theorem freshMachine_enters (stale : Word) : Enters (freshMachine stale) :=
  ⟨rfl, rfl, rfl, rfl, rfl, rfl⟩

def storedConstant : Function where
  instructions := [{ opcode := .constantI64, destination := 0, immediate := 7 },
    { opcode := .returnI64, left := 0 }]
  registerCount := 1
  argumentCount := 0
  localCount := 0

def unwrittenReturn : Function where
  instructions := [{ opcode := .returnI64, left := 0 }]
  registerCount := 1
  argumentCount := 0
  localCount := 0

theorem follows_pair {w : World} {f : Function} {s t u : NativeState} {e : NativeEnding}
    (hnext : nativeNext w f s = some t) (hend : nativeEnd w f t = some e)
    (h : Follows w f s u) : u = s ∨ u = t := by
  rcases h.first with rfl | ⟨t', ht, h⟩
  · exact .inl rfl
  · rw [hnext] at ht
    cases ht
    rcases h.first with rfl | ⟨t', ht, -⟩
    · exact .inr rfl
    · rw [nativeNext_of_end hend] at ht
      cases ht

theorem baselineCode_small {f : Function} {code : List Op} (hcode : baselineCode f = some code)
    (h : (baselineCode f).all (fun c => decide (extent Op.size c < 2 ^ 31)) = true) :
    extent Op.size code < 2 ^ 31 := by
  rw [hcode] at h
  simpa using h

theorem storedConstant_next : nativeNext (stillWorld []) storedConstant .initial =
    some ⟨1, 0, Frame.zero.setRegister 0 7, {0}⟩ := by
  simp [nativeNext, effectAt, nativeEffect, pollsAt, isCallNative, divisionFaults, refEffect,
    effect, storedConstant, NativeState.initial, pollsAfter, writtenAfter, cellWrite]

theorem storedConstant_end : nativeEnd (stillWorld []) storedConstant
    ⟨1, 0, Frame.zero.setRegister 0 7, {0}⟩ = some (.returned 7) := by
  simp [nativeEnd, effectAt, nativeEffect, pollsAt, isCallNative, divisionFaults, refEffect,
    effect, storedConstant]

theorem stored_constant_ignores_stack :
    ∃ code, baselineCode storedConstant = some code ∧
      IgnoresStack (stillWorld []) storedConstant code := by
  obtain ⟨code, hcode⟩ : ∃ code, baselineCode storedConstant = some code :=
    Option.isSome_iff_exists.mp (by decide)
  refine ⟨code, hcode, native_results_ignore_stack _ _ code hcode
    (baselineCode_small hcode (by decide)) ?_⟩
  intro s hs
  rcases follows_pair storedConstant_next storedConstant_end hs with rfl | rfl
  · refine ⟨⟨_, rfl, by simp [cellReads], ?_⟩, ?_⟩
    · simp [nativeEffect, pollsAt, isCallNative, divisionFaults, refEffect, effect]
    · intro reason hend
      have hnext := storedConstant_next
      rw [nativeNext_of_end hend] at hnext
      cases hnext
  · refine ⟨⟨_, rfl, by simp [cellReads], ?_⟩, ?_⟩
    · simp [nativeEffect, pollsAt, isCallNative, divisionFaults, refEffect, effect]
    · intro reason hend
      rw [storedConstant_end] at hend
      cases hend

/-- The interpreter clears its registers, so it returns zero here; native code returns what
the stack held. -/
theorem unwritten_register_shows_stack :
    irExecute (stillWorld []).env unwrittenReturn [] = .ok 0 ∧
      ∃ code, baselineCode unwrittenReturn = some code ∧
        Invokes (stillWorld []) unwrittenReturn code (freshMachine 5) (.ok 5) ∧
        ¬ IgnoresStack (stillWorld []) unwrittenReturn code := by
  refine ⟨by decide, ?_⟩
  obtain ⟨code, hcode⟩ : ∃ code, baselineCode unwrittenReturn = some code :=
    Option.isSome_iff_exists.mp (by decide)
  have hsize := baselineCode_small hcode (by decide)
  have hreturns : ∀ stale, ∃ m',
      Leaves (stillWorld []) unwrittenReturn code (0, freshMachine stale) m' ∧
      nativeResult unwrittenReturn m' = some (.ok stale) := by
    intro stale
    obtain ⟨m₁, hrun, hagrees⟩ := (freshMachine_enters stale).prologue (w := stillWorld []) hcode
    have hag := hagrees {0} ⟨fun _ => stale, fun _ => stale⟩
      (by intro c _; simp [freshMachine, frameCell])
    have hat : At unwrittenReturn code 0 { opcode := .returnI64, left := 0 } {0}
        ⟨fun _ => stale, fun _ => stale⟩ 0 m₁ :=
      ⟨hcode, hsize, rfl, hag, by simp [unwrittenReturn], by simp [cellReads]⟩
    obtain ⟨m', hleaves, hstatus, hresult⟩ := hat.simulates (stillWorld [])
    refine ⟨m', hleaves.after hrun, ?_⟩
    simp [nativeResult, Machine.word, hstatus, hresult]
  obtain ⟨m₅, hleaves₅, hr₅⟩ := hreturns 5
  have hfive : Invokes (stillWorld []) unwrittenReturn code (freshMachine 5) (.ok 5) :=
    .ran (by decide) hleaves₅ hr₅
  refine ⟨code, hcode, hfive, ?_⟩
  intro hignores
  have hzero := (hignores _ (freshMachine 0) (freshMachine_enters 5) (freshMachine_enters 0) _).mp
    hfive
  obtain ⟨m₀, hleaves₀, hr₀⟩ := hreturns 0
  cases hzero with
  | ran _ hleaves hr =>
    rw [leaves_unique hleaves hleaves₀, hr₀] at hr
    simp at hr

end TurboJS.Baseline
