import Mathlib.Data.List.Induction
import TurboJS.IR.Function

namespace TurboJS.OSR.Entry
open IR

/-! Executable OSR entries: the state of a loop, and entry code that runs on a typed frame. -/

structure OSRState where
  backedgeCount : BitVec 32
  compileThreshold : BitVec 32
  entryCount : BitVec 32
  bailoutCount : BitVec 32
  loopHeader : BitVec 32
  compilationRequested : Bool
  codeReady : Bool
  disabled : Bool
  deriving DecidableEq, Repr

inductive OSRDecision where
  | continueInterpreting | requestCompile | enterReadyCode | disabled
  deriving DecidableEq, Repr

def increment (count : BitVec 32) : BitVec 32 :=
  if count ≠ BitVec.allOnes 32 then count + 1 else count

def osrStateInit (header threshold : BitVec 32) : OSRState where
  backedgeCount := 0
  compileThreshold := if threshold ≠ 0 then threshold else 1
  entryCount := 0
  bailoutCount := 0
  loopHeader := header
  compilationRequested := false
  codeReady := false
  disabled := false

def osrObserveBackedge (s : OSRState) : OSRState × OSRDecision :=
  if s.disabled then (s, .disabled)
  else
    let s := { s with backedgeCount := increment s.backedgeCount }
    if s.codeReady then (s, .enterReadyCode)
    else if !s.compilationRequested && decide (s.compileThreshold ≤ s.backedgeCount) then
      ({ s with compilationRequested := true }, .requestCompile)
    else (s, .continueInterpreting)

def osrMarkCodeReady (s : OSRState) : OSRState :=
  if !s.disabled then { s with codeReady := true } else s

def osrRecordEntry (s : OSRState) : OSRState := { s with entryCount := increment s.entryCount }

def osrRecordBailout (s : OSRState) (limit : BitVec 32) : OSRState :=
  let s := { s with bailoutCount := increment s.bailoutCount, codeReady := false }
  if limit ≠ 0 ∧ limit ≤ s.bailoutCount then { s with disabled := true } else s

/-- `TurboJSOSRValue`, whose kind is any number. -/
structure OSRValue where
  bits : Word
  kind : Int
  reserved : BitVec 32
  deriving DecidableEq, Repr

/-- `TurboJSOSRFrame`, with the values that its pointers lead to. -/
structure OSRFrame where
  locals : List OSRValue
  stack : List OSRValue
  bytecodeOffset : BitVec 32
  loopHeader : BitVec 32
  deriving DecidableEq, Repr

def validKind (kind : Int) : Bool := decide (0 ≤ kind ∧ kind ≤ 3)

def osrFrameValidate (frame : OSRFrame) : Status :=
  if !frame.locals.all (fun v => validKind v.kind) then .invalidArgument
  else if !frame.stack.all (fun v => validKind v.kind) then .invalidArgument
  else .ok

def emptyValue : OSRValue := ⟨0, 0, 0⟩

/-- `TurboJS_OSRFrameInit`; `allocates` says whether there is memory for both arrays. -/
def osrFrameInit (allocates : Bool) (localCount stackCount : Nat) : Except Status OSRFrame :=
  if (localCount ≠ 0 ∨ stackCount ≠ 0) ∧ allocates = false then .error .outOfMemory
  else .ok ⟨List.replicate localCount emptyValue, List.replicate stackCount emptyValue, 0, 0⟩

def osrFrameCapture (frame : OSRFrame) (locals stack : List OSRValue)
    (bytecodeOffset loopHeader : BitVec 32) : Except Status OSRFrame :=
  if locals.length ≠ frame.locals.length ∨ stack.length ≠ frame.stack.length then
    .error .invalidArgument
  else
    let captured : OSRFrame := ⟨locals, stack, bytecodeOffset, loopHeader⟩
    match osrFrameValidate captured with
    | .ok => .ok captured
    | status => .error status

def cloneFrame (allocates : Bool) (src : OSRFrame) : Except Status OSRFrame :=
  match osrFrameValidate src with
  | .ok => do
    let dst ← osrFrameInit allocates src.locals.length src.stack.length
    osrFrameCapture dst src.locals src.stack src.bytecodeOffset src.loopHeader
  | status => .error status

def exitCompleted : Int := 0
def exitError : Int := 2

structure CallbackOutcome where
  exitKind : Int
  resume : BitVec 32
  frame : OSRFrame

def SameArrays (frame frame' : OSRFrame) : Prop :=
  frame'.locals.length = frame.locals.length ∧ frame'.stack.length = frame.stack.length

structure EntryCallback where
  run : OSRFrame → CallbackOutcome
  keepsArrays : ∀ frame, SameArrays frame (run frame).frame

/-- `TurboJSOSREntry`, whose callback may be null. -/
structure OSREntry where
  callback : Option EntryCallback
  loopHeader : BitVec 32
  bailoutLimit : BitVec 32

structure ExecutionResult where
  exitKind : Int
  resumeBytecodeOffset : BitVec 32
  restoredOriginalFrame : Bool
  deriving DecidableEq, Repr

def ExecutionResult.cleared : ExecutionResult := ⟨0, 0, false⟩

/-- What a call of `TurboJS_OSRExecuteEntry` leaves. -/
structure Execution where
  status : Status
  result : ExecutionResult
  frame : OSRFrame
  state : OSRState
  called : Bool

/-- `memcpy` of a whole array over the front of another one. -/
def overwrite (target source : List OSRValue) : List OSRValue :=
  source ++ target.drop source.length

/-- `TurboJS_OSRExecuteEntry` with the result structure as it was before the call. -/
def osrExecuteEntry (allocates : Bool) (before : ExecutionResult) (state : OSRState)
    (entry : OSREntry) (live : OSRFrame) : Execution :=
  match entry.callback with
  | none => ⟨.invalidArgument, before, live, state, false⟩
  | some callback =>
    match osrFrameValidate live with
    | .ok =>
      if state.disabled || !state.codeReady || live.loopHeader != entry.loopHeader ||
          state.loopHeader != entry.loopHeader then
        ⟨.unsupported, .cleared, live, state, false⟩
      else
        match cloneFrame allocates live with
        | .error status => ⟨status, .cleared, live, state, false⟩
        | .ok backup =>
          let out := callback.run live
          if out.exitKind = exitCompleted then
            ⟨.ok, ⟨out.exitKind, out.resume, false⟩, { out.frame with bytecodeOffset := out.resume },
              osrRecordEntry state, true⟩
          else
            ⟨if out.exitKind = exitError then .exception else .ok,
              ⟨out.exitKind, backup.bytecodeOffset, true⟩,
              { locals := overwrite out.frame.locals backup.locals
                stack := overwrite out.frame.stack backup.stack
                bytecodeOffset := backup.bytecodeOffset
                loopHeader := backup.loopHeader },
              osrRecordBailout state entry.bailoutLimit, true⟩
    | status => ⟨status, .cleared, live, state, false⟩

inductive Call where
  | observeBackedge
  | markCodeReady
  | executeEntry (allocates : Bool) (before : ExecutionResult) (entry : OSREntry) (live : OSRFrame)

inductive Answer where
  | decision (d : OSRDecision)
  | marked
  | executed (e : Execution)

structure Event where
  call : Call
  answer : Answer
  after : OSRState

def eventOf (s : OSRState) : Call → Event
  | .observeBackedge =>
    ⟨.observeBackedge, .decision (osrObserveBackedge s).2, (osrObserveBackedge s).1⟩
  | .markCodeReady => ⟨.markCodeReady, .marked, osrMarkCodeReady s⟩
  | .executeEntry allocates before entry live =>
    let e := osrExecuteEntry allocates before s entry live
    ⟨.executeEntry allocates before entry live, .executed e, e.state⟩

def stateAfter (s : OSRState) (calls : List Call) : OSRState :=
  calls.foldl (fun s c => (eventOf s c).after) s

def history (s : OSRState) : List Call → List Event
  | [] => []
  | c :: calls => eventOf s c :: history (eventOf s c).after calls

def Event.bailed (e : Event) : Bool :=
  match e.answer with
  | .executed x => x.called && x.result.exitKind != exitCompleted
  | _ => false

def Event.called (e : Event) : Bool :=
  match e.answer with
  | .executed x => x.called
  | _ => false

def Event.requests (e : Event) : Bool :=
  match e.answer with
  | .decision .requestCompile => true
  | _ => false

def Event.observes (e : Event) : Bool :=
  match e.call with
  | .observeBackedge => true
  | _ => false

def MarkedSinceBailout (events : List Event) : Prop :=
  ∃ before e after, events = before ++ e :: after ∧ e.call = .markCodeReady ∧
    ∀ x ∈ after, x.bailed = false

structure Protocol (threshold : BitVec 32) (events : List Event) : Prop where
  restores : ∀ e ∈ events, ∀ allocates before entry live x,
    e.call = .executeEntry allocates before entry live → e.answer = .executed x →
    x.result.exitKind ≠ exitCompleted → x.frame = live
  ready : ∀ before e after, events = before ++ e :: after →
    e.answer = .decision .enterReadyCode → MarkedSinceBailout before
  requestsOnce : events.countP Event.requests ≤ 1
  requestsLate : ∀ before e after, events = before ++ e :: after → e.requests = true →
    max threshold.toNat 1 ≤ (before ++ [e]).countP Event.observes
  staysDisabled : ∀ before e after, events = before ++ e :: after →
    ∀ allocates result entry live, e.call = .executeEntry allocates result entry live →
    e.bailed = true → entry.bailoutLimit ≠ 0 →
    entry.bailoutLimit.toNat ≤ (before ++ [e]).countP Event.bailed →
    e.after.disabled = true ∧ ∀ x ∈ after, x.after.disabled = true ∧ x.called = false

structure Records (threshold : BitVec 32) (events : List Event) (s : OSRState) : Prop where
  threshold : s.compileThreshold.toNat = max threshold.toNat 1
  ready : s.codeReady = true → MarkedSinceBailout events
  requested : events.countP Event.requests = if s.compilationRequested then 1 else 0
  backedges : s.backedgeCount.toNat ≤ events.countP Event.observes
  bailouts : s.bailoutCount.toNat = min (events.countP Event.bailed) (2 ^ 32 - 1)

section

variable {s : OSRState} {threshold limit : BitVec 32} {events : List Event} {c : Call}
  {frame backup : OSRFrame} {allocates : Bool}

theorem increment_toNat (count : BitVec 32) :
    (increment count).toNat = min (count.toNat + 1) (2 ^ 32 - 1) := by
  unfold increment
  split
  · rename_i h
    have hne : count.toNat ≠ 2 ^ 32 - 1 := by
      intro he
      exact h (BitVec.eq_of_toNat_eq (by simpa using he))
    have hlt := count.isLt
    rw [BitVec.toNat_add, show (1 : BitVec 32).toNat = 1 from rfl, Nat.mod_eq_of_lt (by omega)]
    omega
  · rename_i h
    rw [not_not.mp h]
    decide

theorem overwrite_same {target source : List OSRValue} (h : target.length = source.length) :
    overwrite target source = source := by
  rw [overwrite, ← h, List.drop_length, List.append_nil]

theorem cloneFrame_eq (h : cloneFrame allocates frame = .ok backup) : backup = frame := by
  unfold cloneFrame at h
  split at h
  · cases hinit : osrFrameInit allocates frame.locals.length frame.stack.length with
    | error status =>
      rw [hinit] at h
      cases h
    | ok dst =>
      rw [hinit] at h
      change osrFrameCapture dst frame.locals frame.stack frame.bytecodeOffset frame.loopHeader =
        .ok backup at h
      unfold osrFrameCapture at h
      split at h
      · cases h
      · simp only at h
        split at h
        · cases h
          rfl
        · cases h
  · cases h

theorem osrExecuteEntry_cases (allocates : Bool) (before : ExecutionResult) (s : OSRState)
    (entry : OSREntry) (live : OSRFrame) :
    let x := osrExecuteEntry allocates before s entry live
    (x.called = false ∧ x.state = s ∧ x.frame = live) ∨
      x.called = true ∧ s.disabled = false ∧
        (x.result.exitKind = exitCompleted ∧ x.state = osrRecordEntry s ∨
          x.result.exitKind ≠ exitCompleted ∧ x.frame = live ∧
            x.state = osrRecordBailout s entry.bailoutLimit) := by
  simp only [osrExecuteEntry]
  cases entry.callback with
  | none => exact .inl ⟨rfl, rfl, rfl⟩
  | some callback =>
    simp only
    split
    · split
      · exact .inl ⟨rfl, rfl, rfl⟩
      · rename_i hguards
        split
        · exact .inl ⟨rfl, rfl, rfl⟩
        · rename_i backup hclone
          have hbackup := cloneFrame_eq hclone
          subst hbackup
          have hdisabled : s.disabled = false := by
            cases hd : s.disabled
            · rfl
            · simp [hd] at hguards
          split
          · rename_i hexit
            exact .inr ⟨rfl, hdisabled, .inl ⟨hexit, rfl⟩⟩
          · rename_i hexit
            obtain ⟨hlocals, hstack⟩ := callback.keepsArrays backup
            refine .inr ⟨rfl, hdisabled, .inr ⟨hexit, ?_, rfl⟩⟩
            simp only [overwrite_same hlocals, overwrite_same hstack]
    · exact .inl ⟨rfl, rfl, rfl⟩

@[simp]
theorem osrRecordBailout_fields (s : OSRState) (limit : BitVec 32) :
    (osrRecordBailout s limit).compileThreshold = s.compileThreshold ∧
      (osrRecordBailout s limit).codeReady = false ∧
      (osrRecordBailout s limit).compilationRequested = s.compilationRequested ∧
      (osrRecordBailout s limit).backedgeCount = s.backedgeCount ∧
      (osrRecordBailout s limit).bailoutCount = increment s.bailoutCount := by
  unfold osrRecordBailout
  simp only
  split
  · exact ⟨rfl, rfl, rfl, rfl, rfl⟩
  · exact ⟨rfl, rfl, rfl, rfl, rfl⟩

theorem MarkedSinceBailout.snoc {e : Event} (h : MarkedSinceBailout events)
    (he : e.bailed = false) : MarkedSinceBailout (events ++ [e]) := by
  obtain ⟨before, x, after, rfl, hx, hafter⟩ := h
  refine ⟨before, x, after ++ [e], by simp, hx, ?_⟩
  intro y hy
  rcases List.mem_append.mp hy with hy | hy
  · exact hafter y hy
  · rw [List.mem_singleton.mp hy]
    exact he

theorem Records.initial (header threshold : BitVec 32) :
    Records threshold [] (osrStateInit header threshold) where
  threshold := by
    simp only [osrStateInit]
    split
    · rename_i h
      have hne : threshold.toNat ≠ 0 := fun he => h (BitVec.eq_of_toNat_eq (by simpa using he))
      omega
    · rename_i h
      rw [not_not.mp h]
      rfl
  ready := by
    intro h
    cases h
  requested := rfl
  backedges := Nat.zero_le _
  bailouts := rfl

theorem Records.snoc {t : OSRState} {e : Event} (h : Records threshold events s)
    (hthreshold : t.compileThreshold = s.compileThreshold)
    (hready : t.codeReady = true →
      e.call = .markCodeReady ∨ s.codeReady = true ∧ e.bailed = false)
    (hrequested : (if t.compilationRequested then 1 else 0) =
      (if s.compilationRequested then 1 else 0) + if e.requests then 1 else 0)
    (hbackedges : t.backedgeCount.toNat ≤ s.backedgeCount.toNat + if e.observes then 1 else 0)
    (hbailouts : t.bailoutCount = if e.bailed then increment s.bailoutCount else s.bailoutCount) :
    Records threshold (events ++ [e]) t where
  threshold := by
    rw [hthreshold]
    exact h.threshold
  ready := by
    intro ht
    rcases hready ht with hmark | ⟨hs, hbailed⟩
    · exact ⟨events, e, [], rfl, hmark, by simp⟩
    · exact (h.ready hs).snoc hbailed
  requested := by
    rw [hrequested, List.countP_append, h.requested, List.countP_singleton]
  backedges := by
    have hle := h.backedges
    rw [List.countP_append, List.countP_singleton]
    omega
  bailouts := by
    have heq := h.bailouts
    rw [hbailouts, List.countP_append, List.countP_singleton]
    split
    · rw [increment_toNat]
      omega
    · exact heq

theorem osrObserveBackedge_cases (s : OSRState) :
    (s.disabled = true ∧ osrObserveBackedge s = (s, .disabled)) ∨
    (s.codeReady = true ∧ osrObserveBackedge s =
      ({ s with backedgeCount := increment s.backedgeCount }, .enterReadyCode)) ∨
    (s.compilationRequested = false ∧ s.compileThreshold ≤ increment s.backedgeCount ∧
      s.codeReady = false ∧ osrObserveBackedge s =
      ({ s with backedgeCount := increment s.backedgeCount, compilationRequested := true },
        .requestCompile)) ∨
    (s.codeReady = false ∧ osrObserveBackedge s =
      ({ s with backedgeCount := increment s.backedgeCount }, .continueInterpreting)) := by
  unfold osrObserveBackedge
  split
  · rename_i h
    exact .inl ⟨h, rfl⟩
  · simp only
    split
    · rename_i h
      exact .inr (.inl ⟨h, rfl⟩)
    · rename_i hready
      have hready' := Bool.not_eq_true _ ▸ hready
      split
      · rename_i h
        simp only [Bool.and_eq_true, Bool.not_eq_true', decide_eq_true_eq] at h
        exact .inr (.inr (.inl ⟨h.1, h.2, hready', rfl⟩))
      · exact .inr (.inr (.inr ⟨hready', rfl⟩))

theorem increment_le (count : BitVec 32) : (increment count).toNat ≤ count.toNat + 1 := by
  rw [increment_toNat]
  omega

theorem Records.observe (h : Records threshold events s) :
    Records threshold (events ++ [eventOf s .observeBackedge])
      (eventOf s .observeBackedge).after := by
  have hle := increment_le s.backedgeCount
  rcases osrObserveBackedge_cases s with ⟨-, he⟩ | ⟨hready, he⟩ | ⟨hrequested, -, hready, he⟩ |
    ⟨hready, he⟩
  all_goals
    simp only [eventOf, he]
    apply h.snoc
  all_goals simp_all [Event.bailed, Event.requests, Event.observes]

theorem Records.mark (h : Records threshold events s) :
    Records threshold (events ++ [eventOf s .markCodeReady]) (eventOf s .markCodeReady).after := by
  simp only [eventOf, osrMarkCodeReady]
  split
  all_goals apply h.snoc
  all_goals simp [Event.bailed, Event.requests, Event.observes]

theorem Records.execute (h : Records threshold events s) (allocates : Bool)
    (before : ExecutionResult) (entry : OSREntry) (live : OSRFrame) :
    Records threshold (events ++ [eventOf s (.executeEntry allocates before entry live)])
      (eventOf s (.executeEntry allocates before entry live)).after := by
  have hcases := osrExecuteEntry_cases allocates before s entry live
  simp only at hcases
  simp only [eventOf]
  generalize osrExecuteEntry allocates before s entry live = x at hcases
  rcases hcases with ⟨hcalled, hstate, -⟩ | ⟨hcalled, -, ⟨hexit, hstate⟩ | ⟨hexit, -, hstate⟩⟩
  · apply h.snoc
    all_goals simp [Event.bailed, Event.requests, Event.observes, hcalled, hstate]
  · apply h.snoc
    all_goals
      simp [Event.bailed, Event.requests, Event.observes, hcalled, hstate, hexit, osrRecordEntry]
  · apply h.snoc
    all_goals simp [Event.bailed, Event.requests, Event.observes, hcalled, hstate, hexit]

theorem history_append (s : OSRState) (calls calls' : List Call) :
    history s (calls ++ calls') = history s calls ++ history (stateAfter s calls) calls' := by
  induction calls generalizing s with
  | nil => rfl
  | cons c calls ih =>
    rw [List.cons_append, history, history, ih, List.cons_append]
    rfl

theorem stateAfter_snoc (s : OSRState) (calls : List Call) (c : Call) :
    stateAfter s (calls ++ [c]) = (eventOf (stateAfter s calls) c).after := by
  rw [stateAfter, List.foldl_append]
  rfl

theorem Records.history (header threshold : BitVec 32) (calls : List Call) :
    Records threshold (history (osrStateInit header threshold) calls)
      (stateAfter (osrStateInit header threshold) calls) := by
  induction calls using List.reverseRecOn with
  | nil => exact .initial header threshold
  | append_singleton calls c ih =>
    rw [history_append, stateAfter_snoc]
    cases c with
    | observeBackedge => exact ih.observe
    | markCodeReady => exact ih.mark
    | executeEntry allocates before entry live => exact ih.execute allocates before entry live

theorem history_cut {calls : List Call} {before after : List Event} {e : Event}
    (h : history s calls = before ++ e :: after) :
    ∃ calls₁ c calls₂, calls = calls₁ ++ c :: calls₂ ∧ before = history s calls₁ ∧
      e = eventOf (stateAfter s calls₁) c ∧ after = history e.after calls₂ := by
  induction before generalizing s calls with
  | nil =>
    cases calls with
    | nil => cases h
    | cons c calls =>
      simp only [history, List.nil_append, List.cons.injEq] at h
      obtain ⟨rfl, rfl⟩ := h
      exact ⟨[], c, calls, rfl, rfl, rfl, rfl⟩
  | cons x before ih =>
    cases calls with
    | nil => cases h
    | cons c calls =>
      simp only [history, List.cons_append, List.cons.injEq] at h
      obtain ⟨rfl, h⟩ := h
      obtain ⟨calls₁, c', calls₂, rfl, rfl, he, hafter⟩ := ih h
      exact ⟨c :: calls₁, c', calls₂, rfl, rfl, he, hafter⟩

theorem eventOf_disabled (h : s.disabled = true) (c : Call) :
    (eventOf s c).after.disabled = true ∧ (eventOf s c).called = false := by
  cases c with
  | observeBackedge => simp [eventOf, osrObserveBackedge, h, Event.called]
  | markCodeReady => simp [eventOf, osrMarkCodeReady, h, Event.called]
  | executeEntry allocates before entry live =>
    have hcases := osrExecuteEntry_cases allocates before s entry live
    simp only at hcases
    simp only [eventOf, Event.called]
    rcases hcases with ⟨hcalled, hstate, -⟩ | ⟨-, hdisabled, -⟩
    · rw [hstate, hcalled]
      exact ⟨h, rfl⟩
    · rw [h] at hdisabled
      cases hdisabled

theorem history_disabled (h : s.disabled = true) (calls : List Call) :
    ∀ x ∈ history s calls, x.after.disabled = true ∧ x.called = false := by
  induction calls generalizing s with
  | nil =>
    intro x hx
    cases hx
  | cons c calls ih =>
    intro x hx
    rcases List.mem_cons.mp hx with rfl | hx
    · exact eventOf_disabled h c
    · exact ih (eventOf_disabled h c).1 x hx

theorem Records.disables (h : Records threshold events s) {result : ExecutionResult}
    {entry : OSREntry} {live : OSRFrame}
    (hbailed : (eventOf s (.executeEntry allocates result entry live)).bailed = true)
    (hlimit : entry.bailoutLimit ≠ 0)
    (hreached : entry.bailoutLimit.toNat ≤ events.countP Event.bailed + 1) :
    (eventOf s (.executeEntry allocates result entry live)).after.disabled = true := by
  have hcases := osrExecuteEntry_cases allocates result s entry live
  simp only at hcases
  simp only [eventOf, Event.bailed, Bool.and_eq_true, bne_iff_ne, ne_eq] at hbailed ⊢
  rcases hcases with ⟨hcalled, -, -⟩ | ⟨-, -, ⟨hexit, -⟩ | ⟨-, -, hstate⟩⟩
  · rw [hbailed.1] at hcalled
    cases hcalled
  · exact absurd hexit hbailed.2
  · have hle : entry.bailoutLimit ≤ increment s.bailoutCount := by
      have hcount := h.bailouts
      have hlt := entry.bailoutLimit.isLt
      rw [BitVec.le_def, increment_toNat]
      omega
    rw [hstate, osrRecordBailout]
    simp only
    rw [if_pos ⟨hlimit, hle⟩]

/-- Every history of calls on one state follows the entry protocol. -/
theorem osr_entry_protocol (header threshold : BitVec 32) (calls : List Call) :
    Protocol threshold (history (osrStateInit header threshold) calls) where
  restores := by
    intro e he allocates result entry live x hcall hanswer hexit
    obtain ⟨before, after, hcut⟩ := List.append_of_mem he
    obtain ⟨calls₁, c, -, -, -, rfl, -⟩ := history_cut hcut
    have hc : c = .executeEntry allocates result entry live := by
      cases c <;> exact hcall
    subst hc
    cases hanswer
    rcases osrExecuteEntry_cases allocates result (stateAfter _ calls₁) entry live with
      ⟨-, -, hframe⟩ | ⟨-, -, ⟨hcompleted, -⟩ | ⟨-, hframe, -⟩⟩
    · exact hframe
    · exact absurd hcompleted hexit
    · exact hframe
  ready := by
    intro before e after hcut hanswer
    obtain ⟨calls₁, c, -, -, rfl, rfl, -⟩ := history_cut hcut
    cases c with
    | observeBackedge =>
      apply (Records.history header threshold calls₁).ready
      simp only [eventOf, Answer.decision.injEq] at hanswer
      rcases osrObserveBackedge_cases (stateAfter (osrStateInit header threshold) calls₁) with
        ⟨-, he⟩ | ⟨hready, -⟩ | ⟨-, -, -, he⟩ | ⟨-, he⟩
      · rw [he] at hanswer
        cases hanswer
      · exact hready
      · rw [he] at hanswer
        cases hanswer
      · rw [he] at hanswer
        cases hanswer
    | markCodeReady => cases hanswer
    | executeEntry => cases hanswer
  requestsOnce := by
    rw [(Records.history header threshold calls).requested]
    split <;> omega
  requestsLate := by
    intro before e after hcut hrequests
    obtain ⟨calls₁, c, -, -, rfl, rfl, -⟩ := history_cut hcut
    have hrecords := Records.history header threshold calls₁
    cases c with
    | observeBackedge =>
      rw [List.countP_append, List.countP_singleton, ← hrecords.threshold]
      have hbackedges := hrecords.backedges
      have hincrement := increment_le (stateAfter (osrStateInit header threshold) calls₁).backedgeCount
      simp only [eventOf, Event.requests] at hrequests
      rcases osrObserveBackedge_cases (stateAfter (osrStateInit header threshold) calls₁) with
        ⟨-, he⟩ | ⟨-, he⟩ | ⟨-, hle, -, -⟩ | ⟨-, he⟩
      · simp [he] at hrequests
      · simp [he] at hrequests
      · rw [BitVec.le_def] at hle
        simp only [eventOf, Event.observes, if_true]
        omega
      · simp [he] at hrequests
    | markCodeReady => cases hrequests
    | executeEntry => cases hrequests
  staysDisabled := by
    intro before e after hcut allocates result entry live hcall hbailed hlimit hreached
    obtain ⟨calls₁, c, calls₂, -, rfl, rfl, rfl⟩ := history_cut hcut
    have hc : c = .executeEntry allocates result entry live := by
      cases c <;> exact hcall
    subst hc
    rw [List.countP_append, List.countP_singleton, hbailed, if_pos rfl] at hreached
    have hdisabled := (Records.history header threshold calls₁).disables hbailed hlimit hreached
    exact ⟨hdisabled, history_disabled hdisabled calls₂⟩

end

end TurboJS.OSR.Entry
