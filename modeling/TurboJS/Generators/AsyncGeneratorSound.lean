import TurboJS.Generators.AsyncGenerator

namespace TurboJS.Generators

open Foundation
open Promises (JSValue)

/-! Where no request is left behind, an asynchronous generator does what is prescribed. -/

def Input.resumption : Input → Resumption
  | .start => .start
  | .sent completionType value => .completion completionType value
  | .thrown error => .completion .magicThrow error
  | .awaited isReject value => .awaited isReject value

def GeneratorState.frame (s : GeneratorState) (stack : List Activation) : FuncState :=
  match s with
  | .suspendedStart => .start
  | .suspendedYield | .suspendedYieldStar => .atYield
  | .executing => if .body ∈ stack then .running else .atAwait
  | .awaitingReturn | .completed => .freed

theorem GeneratorState.frame_cons (s : GeneratorState) {a : Activation} (ha : a ≠ .body)
    (stack : List Activation) : s.frame (a :: stack) = s.frame stack := by
  cases s <;> simp [frame, Ne.symm ha]

namespace AsyncGenerator

def phase (g : AsyncGenerator) : Phase :=
  match g.state with
  | .suspendedStart => .suspendedStart
  | .suspendedYield | .suspendedYieldStar => .suspendedYield
  | .executing => if g.func = .running then .running else .awaiting
  | .awaitingReturn => .awaitingReturn
  | .completed => .completed

def prescribed (g : AsyncGenerator) : Prescribed where
  phase := g.phase
  queue := g.queue
  made := g.made
  settled := g.settled
  resumed := g.resumed.map Input.resumption

def Idle (g : AsyncGenerator) : Prop := g.state ≠ .executing ∧ g.state ≠ .awaitingReturn

/-- The body is resumed by exactly one of four things while it executes: it runs, or it is about
to wait, or it waits, or what it has waited for is at hand. An awaited return is the same. -/
structure Inv (g : AsyncGenerator) : Prop where
  executing : g.stack.count .body + g.stack.count .await + g.awaits + g.input.toList.length =
    if g.state = .executing then 1 else 0
  returning : g.stack.count .completedReturn + g.returns.length =
    if g.state = .awaitingReturn then 1 else 0
  func : g.func = g.state.frame g.stack
  released : g.released = if g.func = .freed then 1 else 0
  input : ∀ i, g.input = some i → ∃ isReject value, i = .awaited isReject value
  busy : ¬ g.Idle → g.queue ≠ []
  /-- Requests that nothing serves yet will be looked at. -/
  drained : g.Idle → g.queue ≠ [] → .loop ∈ g.stack ∨ .resolving true ∈ g.stack
  fault : g.fault = false
  prescribed : g.prescribed.Reached

/-- The condition on a step: no request is left behind one that is served after the end, and the
loop does not find the body at an await that has not settled. -/
def Orderly (g : AsyncGenerator) : Event → Prop
  | .round =>
    (g.state = .executing → g.input ≠ none) ∧
    (g.state = .completed → g.queue.length ≤ 1 ∨
      g.queue.head?.map (·.completionType) = some .magicReturn)
  | .returnSettles _ _ _ => g.queue.length = 1
  | _ => True

instance (g : AsyncGenerator) (e : Event) : Decidable (g.Orderly e) :=
  match e with
  | .round => inferInstanceAs (Decidable (_ ∧ _))
  | .returnSettles _ _ _ => inferInstanceAs (Decidable (_ = _))
  | .next _ _ | .bodyYields _ _ | .bodyAwaits | .bodyReturns _ | .bodyThrows _
  | .userCodeReturns _ | .awaitSettles _ _ | .finalize => .isTrue trivial

theorem start_inv : Inv .start where
  executing := rfl
  returning := rfl
  func := rfl
  released := rfl
  input := fun i hi => by cases hi
  busy := fun h => absurd ⟨by decide, by decide⟩ h
  drained := fun _ h => absurd rfl h
  fault := rfl
  prescribed := .init

variable {g g' : AsyncGenerator} {exception : Option JSValue}

theorem next_inv (hi : g.Inv) (ct : CompletionType) (v : JSValue) : (g.next ct v).Inv := by
  obtain ⟨hexec, hret, hfunc, hrel, hinput, hbusy, hdrained, hfault, hpresc⟩ := hi
  have hop := hpresc.next (.enqueue ct v) rfl
  by_cases hs : g.state = .executing
  · have he : g.next ct v =
        { g with queue := g.queue ++ [⟨g.made, ct, v⟩], made := g.made + 1 } := by
      simp [next, hs]
    rw [he]
    exact ⟨hexec, hret, hfunc, hrel, hinput, fun _ => by simp, fun hidle => absurd hs hidle.1,
      hfault, hop⟩
  · have he : g.next ct v =
        { g with
          queue := g.queue ++ [⟨g.made, ct, v⟩]
          made := g.made + 1
          stack := .loop :: g.stack } := by
      simp [next, hs, push]
    rw [he]
    refine ⟨?_, ?_, ?_, hrel, hinput, fun _ => by simp, fun _ _ => .inl (by simp), hfault, hop⟩
    · simpa using hexec
    · simpa using hret
    · exact hfunc.trans (GeneratorState.frame_cons _ (by simp) _).symm

theorem execute_inv {i : Input}
    (hexec : g.stack.count .body + g.stack.count .await + g.awaits = 0)
    (hret : g.stack.count .completedReturn + g.returns.length = 0)
    (hrunning : g.func ≠ .running) (hfreed : g.func ≠ .freed) (hrel : g.released = 0)
    (hqueue : g.queue ≠ []) (hfault : g.fault = false)
    (hpresc : (g.prescribed.run i.resumption).Reached) : (g.execute i).Inv := by
  have he : g.execute i =
      { g with
        state := .executing
        func := .running
        input := none
        resumed := g.resumed ++ [i]
        stack := .body :: g.stack } := by
    simp [execute, funcResume, hrunning, hfreed, hfault]
  rw [he]
  refine ⟨?_, ?_, ?_, ?_, ?_, fun _ => hqueue, fun hidle => absurd rfl hidle.1, hfault, ?_⟩
  · simp
    omega
  · simpa using hret
  · simp [GeneratorState.frame]
  · simpa using hrel
  · intro j hj
    cases hj
  · simpa [prescribed, phase, Prescribed.run] using hpresc

theorem complete_eq (hs : g.state ≠ .completed) (hrunning : g.func ≠ .running)
    (hfreed : g.func ≠ .freed) :
    g.complete = { g with state := .completed, func := .freed, released := g.released + 1 } := by
  simp [complete, hs, funcFree, hrunning, hfreed]

section

variable {rest : List Activation}

theorem Inv.below_loop (hi : g.Inv) (hstack : g.stack = .loop :: rest) :
    rest.count .body + rest.count .await + g.awaits + g.input.toList.length =
      (if g.state = .executing then 1 else 0) ∧
    rest.count .completedReturn + g.returns.length =
      (if g.state = .awaitingReturn then 1 else 0) ∧
    g.func = g.state.frame rest := by
  have hexec := hi.executing
  have hret := hi.returning
  have hfunc := hi.func
  rw [hstack] at hexec hret hfunc
  rw [GeneratorState.frame_cons _ (by simp)] at hfunc
  exact ⟨by simpa using hexec, by simpa using hret, hfunc⟩

theorem round_of_empty (hi : g.Inv) (hstack : g.stack = .loop :: rest) (hq : g.queue = []) :
    (g.above rest).resumeNext.Inv := by
  obtain ⟨hexec, hret, hfunc⟩ := hi.below_loop hstack
  have he : (g.above rest).resumeNext = g.above rest := by simp [resumeNext, above, hq]
  rw [he]
  exact ⟨hexec, hret, hfunc, hi.released, hi.input, hi.busy,
    fun _ hne => absurd hq hne, hi.fault, hi.prescribed⟩

theorem round_of_awaitingReturn (hi : g.Inv) (hstack : g.stack = .loop :: rest)
    {next : Request} {queue : List Request} (hq : g.queue = next :: queue)
    (hs : g.state = .awaitingReturn) : (g.above rest).resumeNext.Inv := by
  obtain ⟨hexec, hret, hfunc⟩ := hi.below_loop hstack
  have he : (g.above rest).resumeNext = g.above rest := by simp [resumeNext, above, hq, hs]
  rw [he]
  exact ⟨hexec, hret, hfunc, hi.released, hi.input, hi.busy,
    fun hidle => absurd hs hidle.2, hi.fault, hi.prescribed⟩

theorem round_of_executing (hi : g.Inv) (hstack : g.stack = .loop :: rest)
    {next : Request} {queue : List Request} (hq : g.queue = next :: queue)
    (hs : g.state = .executing) (hinput : g.input ≠ none) : (g.above rest).resumeNext.Inv := by
  obtain ⟨hexec, hret, hfunc⟩ := hi.below_loop hstack
  have hrel := hi.released
  obtain ⟨i, hin⟩ := Option.ne_none_iff_exists'.mp hinput
  obtain ⟨isReject, value, rfl⟩ := hi.input i hin
  simp only [hin, hs, Option.toList_some, List.length_singleton, reduceCtorEq, if_true,
    if_false] at hexec hret
  have hbody : Activation.body ∉ rest := List.count_eq_zero.mp (by omega)
  simp only [hs, GeneratorState.frame, hbody, if_false] at hfunc
  have he : (g.above rest).resumeNext = ({ g.above rest with input := none }).execute
      (.awaited isReject value) := by
    simp [resumeNext, above, hq, hs, execute, funcResume, hin]
  rw [he]
  refine execute_inv ?_ hret ?_ ?_ ?_ (by simp [above, hq]) hi.fault ?_
  · simp only [above]
    omega
  · simp [above, hfunc]
  · simp [above, hfunc]
  · simpa [above, hfunc] using hrel
  · apply hi.prescribed.next (.awaitDone isReject value)
    simp [Prescribed.step, prescribed, phase, hs, hfunc, above, Input.resumption]

theorem round_of_suspended (hi : g.Inv) (hstack : g.stack = .loop :: rest)
    {next : Request} {queue : List Request} {i : Input} (hq : g.queue = next :: queue)
    (hs : g.state = .suspendedStart ∨ g.state = .suspendedYield ∨ g.state = .suspendedYieldStar)
    (hop : g.prescribed.step .resume = some (g.prescribed.run i.resumption)) :
    ((g.above rest).execute i).Inv := by
  obtain ⟨hexec, hret, hfunc⟩ := hi.below_loop hstack
  have hrel := hi.released
  have hidle : g.Idle ∧ g.func ≠ .running ∧ g.func ≠ .freed := by
    rcases hs with hs | hs | hs <;> simp [Idle, hs, hfunc, GeneratorState.frame]
  obtain ⟨⟨hne, hnr⟩, hrunning, hfreed⟩ := hidle
  rw [if_neg hne] at hexec
  rw [if_neg hnr] at hret
  rw [if_neg hfreed] at hrel
  refine execute_inv ?_ hret hrunning hfreed hrel (by simp [above, hq]) hi.fault
    (hi.prescribed.next .resume hop)
  simp only [above]
  omega

theorem round_of_abandoned (hi : g.Inv) (hstack : g.stack = .loop :: rest)
    {next : Request} {queue : List Request} (hq : g.queue = next :: queue)
    (hs : g.state = .suspendedStart) (hn : next.completionType ≠ .magicNext) :
    ((g.above rest).complete.push .loop).Inv := by
  obtain ⟨hexec, hret, hfunc⟩ := hi.below_loop hstack
  have hrel := hi.released
  simp only [hs, GeneratorState.frame] at hfunc
  simp only [hs, reduceCtorEq, if_false, hfunc] at hexec hret hrel
  have he : (g.above rest).complete.push .loop =
      { g with
        state := .completed
        func := .freed
        released := g.released + 1
        stack := .loop :: rest } := by
    simp [complete_eq, above, hs, hfunc, push]
  rw [he]
  refine ⟨?_, ?_, rfl, ?_, hi.input, fun _ => by simp [hq], fun _ _ => .inl (by simp), hi.fault, ?_⟩
  · simpa using hexec
  · simpa using hret
  · simp [hrel]
  · apply hi.prescribed.next .abandon
    simp [Prescribed.step, prescribed, phase, hs, hq, hn]

theorem round_of_completed (hi : g.Inv) (hstack : g.stack = .loop :: rest)
    {next : Request} (hq : g.queue = [next]) (hs : g.state = .completed)
    (hn : next.completionType ≠ .magicReturn) : (g.above rest).resumeNext.Inv := by
  obtain ⟨hexec, hret, hfunc⟩ := hi.below_loop hstack
  have hrel := hi.released
  simp only [hs, GeneratorState.frame] at hfunc
  simp only [hs, reduceCtorEq, if_false, hfunc, if_true] at hexec hret hrel
  cases hc : next.completionType with
  | magicReturn => exact absurd hc hn
  | magicNext =>
    have he : (g.above rest).resumeNext =
        { g with
          queue := []
          settled := g.settled ++ [(next.id, .resolve .undefined true)]
          stack := .resolving false :: rest } := by
      simp [resumeNext, above, hq, hs, hc, resolve, resolveOrReject, push]
    rw [he]
    refine ⟨?_, ?_, ?_, ?_, hi.input, ?_, fun _ hne => absurd rfl hne, hi.fault, ?_⟩
    · simpa [hs] using hexec
    · simpa [hs] using hret
    · simpa [hs, GeneratorState.frame] using hfunc
    · simpa [hfunc] using hrel
    · intro hidle
      exact absurd ⟨by simp [hs], by simp [hs]⟩ hidle
    · apply hi.prescribed.next .drain
      simp [Prescribed.step, Prescribed.completeStep, prescribed, phase, hs, hq, hc]
  | magicThrow =>
    have he : (g.above rest).resumeNext =
        { g with
          queue := []
          settled := g.settled ++ [(next.id, .reject next.result)]
          stack := rest } := by
      simp [resumeNext, above, hq, hs, hc, reject, resolveOrReject]
    rw [he]
    refine ⟨?_, ?_, ?_, ?_, hi.input, ?_, fun _ hne => absurd rfl hne, hi.fault, ?_⟩
    · simpa [hs] using hexec
    · simpa [hs] using hret
    · simpa [hs, GeneratorState.frame] using hfunc
    · simpa [hfunc] using hrel
    · intro hidle
      exact absurd ⟨by simp [hs], by simp [hs]⟩ hidle
    · apply hi.prescribed.next .drain
      simp [Prescribed.step, Prescribed.completeStep, prescribed, phase, hs, hq, hc]

theorem round_of_return (hi : g.Inv) (hstack : g.stack = .loop :: rest)
    {next : Request} {queue : List Request} (hq : g.queue = next :: queue)
    (hs : g.state = .completed) (hn : next.completionType = .magicReturn) :
    (g.above rest).resumeNext.Inv := by
  obtain ⟨hexec, hret, hfunc⟩ := hi.below_loop hstack
  have hrel := hi.released
  simp only [hs, GeneratorState.frame] at hfunc
  simp only [hs, reduceCtorEq, if_false, hfunc, if_true] at hexec hret hrel
  have he : (g.above rest).resumeNext =
      { g with state := .awaitingReturn, stack := .completedReturn :: rest } := by
    simp [resumeNext, above, hq, hs, hn, push]
  rw [he]
  refine ⟨?_, ?_, ?_, ?_, hi.input, fun _ => by simp [hq], fun hidle => absurd rfl hidle.2,
    hi.fault, ?_⟩
  · simpa using hexec
  · simp
    omega
  · simpa [GeneratorState.frame] using hfunc
  · simpa [hfunc] using hrel
  · apply hi.prescribed.next .drain
    simp [Prescribed.step, prescribed, phase, hs, hq, hn]

theorem round_inv (hi : g.Inv) (hstack : g.stack = .loop :: rest) (ho : g.Orderly .round) :
    (g.above rest).resumeNext.Inv := by
  obtain ⟨hawait, hlast⟩ := ho
  cases hq : g.queue with
  | nil => exact round_of_empty hi hstack hq
  | cons next queue =>
    cases hs : g.state with
    | executing => exact round_of_executing hi hstack hq hs (hawait hs)
    | awaitingReturn => exact round_of_awaitingReturn hi hstack hq hs
    | suspendedStart =>
      by_cases hn : next.completionType = .magicNext
      · have he : (g.above rest).resumeNext = (g.above rest).execute .start := by
          simp [resumeNext, above, hq, hs, hn]
        rw [he]
        apply round_of_suspended hi hstack hq (.inl hs)
        simp [Prescribed.step, prescribed, phase, hs, hq, hn, Input.resumption]
      · have he : (g.above rest).resumeNext = (g.above rest).complete.push .loop := by
          simp [resumeNext, above, hq, hs, hn]
        rw [he]
        exact round_of_abandoned hi hstack hq hs hn
    | completed =>
      by_cases hn : next.completionType = .magicReturn
      · exact round_of_return hi hstack hq hs hn
      · have hnil : queue = [] := by
          rcases hlast hs with hlen | hhead
          · rw [hq, List.length_cons] at hlen
            exact List.length_eq_zero_iff.mp (by omega)
          · rw [hq] at hhead
            exact absurd (Option.some.inj hhead) hn
        subst hnil
        exact round_of_completed hi hstack hq hs hn
    | suspendedYield =>
      by_cases hn : next.completionType = .magicThrow
      · have he : (g.above rest).resumeNext = (g.above rest).execute (.thrown next.result) := by
          simp [resumeNext, above, hq, hs, hn]
        rw [he]
        apply round_of_suspended hi hstack hq (.inr (.inl hs))
        simp [Prescribed.step, prescribed, phase, hs, hq, hn, Input.resumption]
      · have he : (g.above rest).resumeNext =
            (g.above rest).execute (.sent next.completionType next.result) := by
          simp [resumeNext, above, hq, hs, hn]
        rw [he]
        apply round_of_suspended hi hstack hq (.inr (.inl hs))
        simp [Prescribed.step, prescribed, phase, hs, hq, Input.resumption]
    | suspendedYieldStar =>
      have he : (g.above rest).resumeNext =
          (g.above rest).execute (.sent next.completionType next.result) := by
        simp [resumeNext, above, hq, hs]
      rw [he]
      apply round_of_suspended hi hstack hq (.inr (.inr hs))
      simp [Prescribed.step, prescribed, phase, hs, hq, Input.resumption]

structure RunsAlone (g : AsyncGenerator) (rest : List Activation) : Prop where
  state : g.state = .executing
  func : g.func = .running
  released : g.released = 0
  input : g.input = none
  body : rest.count .body = 0
  await : rest.count .await = 0
  awaits : g.awaits = 0
  completedReturn : rest.count .completedReturn = 0
  returns : g.returns.length = 0

theorem Inv.runsAlone (hi : g.Inv) (hstack : g.stack = .body :: rest) : g.RunsAlone rest := by
  have hexec := hi.executing
  have hret := hi.returning
  have hfunc := hi.func
  have hrel := hi.released
  have hs : g.state = .executing := by
    by_contra hne
    rw [hstack, if_neg hne, List.count_cons_self] at hexec
    omega
  simp only [hstack, hs, GeneratorState.frame, List.mem_cons, true_or, if_true] at hfunc
  simp only [hs, hstack, reduceCtorEq, if_true, if_false, List.count_cons_self, hfunc] at hexec hret hrel
  simp only [List.count_cons, beq_iff_eq, reduceCtorEq, if_false] at hexec hret
  have hin : g.input = none := by
    cases hin : g.input with
    | none => rfl
    | some i =>
      rw [hin] at hexec
      simp only [Option.toList_some, List.length_singleton] at hexec
      omega
  exact ⟨hs, hfunc, hrel, hin, by omega, by omega, by omega, by omega, by omega⟩

theorem bodyYields_inv (hi : g.Inv) (hstack : g.stack = .body :: rest) {value : JSValue}
    {star : Bool} (h : (g.above rest).bodyStep (.bodyYields value star) = some g') : g'.Inv := by
  obtain ⟨hs, hfunc, hrel, hin, hbody, hawait, hawaits, hreturn, hreturns⟩ := hi.runsAlone hstack
  obtain ⟨next, queue, hq⟩ := List.exists_cons_of_ne_nil (hi.busy fun hidle => hidle.1 hs)
  have he : g' =
      { g with
        state := if star then .suspendedYieldStar else .suspendedYield
        func := .atYield
        queue := queue
        settled := g.settled ++ [(next.id, .resolve value false)]
        stack := .resolving true :: rest } := by
    simpa [bodyStep, resolve, resolveOrReject, above, hq, push] using h.symm
  subst he
  have hidle : ∀ star : Bool, (if star then GeneratorState.suspendedYieldStar
      else .suspendedYield) ≠ .executing ∧
      (if star then GeneratorState.suspendedYieldStar else .suspendedYield) ≠ .awaitingReturn := by
    decide
  refine ⟨?_, ?_, ?_, ?_, hi.input, fun hbusy => absurd (hidle star) hbusy,
    fun _ _ => .inr (by simp), hi.fault, ?_⟩
  · simp [hin, hbody, hawait, hawaits, (hidle star).1]
  · simp [hreturn, hreturns, (hidle star).2]
  · cases star <;> rfl
  · simpa using hrel
  · apply hi.prescribed.next (.yields value)
    cases star <;>
      simp [Prescribed.step, Prescribed.completeStep, prescribed, phase, hs, hfunc, hq]

theorem bodyAwaits_inv (hi : g.Inv) (hstack : g.stack = .body :: rest)
    (h : (g.above rest).bodyStep .bodyAwaits = some g') : g'.Inv := by
  obtain ⟨hs, hfunc, hrel, hin, hbody, hawait, hawaits, hreturn, hreturns⟩ := hi.runsAlone hstack
  have he : g' = { g with func := .atAwait, stack := .await :: rest } := by
    simpa [bodyStep, above, push] using h.symm
  subst he
  refine ⟨?_, ?_, ?_, ?_, hi.input, hi.busy, fun hidle => absurd hs hidle.1, hi.fault, ?_⟩
  · simp [hin, hs, hbody, hawait, hawaits]
  · simp [hs, hreturn, hreturns]
  · simp [hs, GeneratorState.frame, List.count_eq_zero.mp hbody]
  · simpa using hrel
  · apply hi.prescribed.next .awaits
    simp [Prescribed.step, prescribed, phase, hs, hfunc]

theorem bodyReturns_inv (hi : g.Inv) (hstack : g.stack = .body :: rest) {value : JSValue}
    (h : (g.above rest).bodyStep (.bodyReturns value) = some g') : g'.Inv := by
  obtain ⟨hs, hfunc, hrel, hin, hbody, hawait, hawaits, hreturn, hreturns⟩ := hi.runsAlone hstack
  obtain ⟨next, queue, hq⟩ := List.exists_cons_of_ne_nil (hi.busy fun hidle => hidle.1 hs)
  have he : g' =
      { g with
        state := .completed
        func := .freed
        released := g.released + 1
        queue := queue
        settled := g.settled ++ [(next.id, .resolve value true)]
        stack := .resolving true :: rest } := by
    simpa [bodyStep, complete_eq, resolve, resolveOrReject, above, hq, hs, push] using h.symm
  subst he
  refine ⟨?_, ?_, rfl, ?_, hi.input, ?_, fun _ _ => .inr (by simp), hi.fault, ?_⟩
  · simp [hin, hbody, hawait, hawaits]
  · simp [hreturn, hreturns]
  · simp [hrel]
  · intro hidle
    exact absurd ⟨by simp, by simp⟩ hidle
  · apply hi.prescribed.next (.returns value)
    simp [Prescribed.step, Prescribed.completeStep, prescribed, phase, hs, hfunc, hq]

theorem bodyThrows_inv (hi : g.Inv) (hstack : g.stack = .body :: rest) {error : JSValue}
    (h : (g.above rest).bodyStep (.bodyThrows error) = some g') : g'.Inv := by
  obtain ⟨hs, hfunc, hrel, hin, hbody, hawait, hawaits, hreturn, hreturns⟩ := hi.runsAlone hstack
  obtain ⟨next, queue, hq⟩ := List.exists_cons_of_ne_nil (hi.busy fun hidle => hidle.1 hs)
  have he : g' =
      { g with
        state := .completed
        func := .freed
        released := g.released + 1
        queue := queue
        settled := g.settled ++ [(next.id, .reject error)]
        stack := .loop :: rest } := by
    simpa [bodyStep, complete_eq, reject, resolveOrReject, above, hq, hs, push] using h.symm
  subst he
  refine ⟨?_, ?_, rfl, ?_, hi.input, ?_, fun _ _ => .inl (by simp), hi.fault, ?_⟩
  · simp [hin, hbody, hawait, hawaits]
  · simp [hreturn, hreturns]
  · simp [hrel]
  · intro hidle
    exact absurd ⟨by simp, by simp⟩ hidle
  · apply hi.prescribed.next (.throws error)
    simp [Prescribed.step, Prescribed.completeStep, prescribed, phase, hs, hfunc, hq]

theorem resolved_inv (hi : g.Inv) {again : Bool} (hstack : g.stack = .resolving again :: rest)
    (h : (g.above rest).userCodeReturns (.resolving again) exception = some g') : g'.Inv := by
  have hexec := hi.executing
  have hret := hi.returning
  have hfunc := hi.func
  have hdrained := hi.drained
  rw [hstack] at hexec hret hfunc hdrained
  simp only [List.count_cons, beq_iff_eq, reduceCtorEq, if_false] at hexec hret
  rw [GeneratorState.frame_cons _ (by simp)] at hfunc
  cases again with
  | true =>
    have he : g' = { g with stack := .loop :: rest } := by
      simpa [userCodeReturns, above, push] using h.symm
    subst he
    refine ⟨?_, ?_, ?_, hi.released, hi.input, hi.busy, fun _ _ => .inl (by simp), hi.fault,
      hi.prescribed⟩
    · simpa using hexec
    · simpa using hret
    · exact hfunc.trans (GeneratorState.frame_cons _ (by simp) _).symm
  | false =>
    have he : g' = { g with stack := rest } := by
      simpa [userCodeReturns, above] using h.symm
    subst he
    refine ⟨hexec, hret, hfunc, hi.released, hi.input, hi.busy, ?_, hi.fault, hi.prescribed⟩
    intro hidle hne
    simpa using hdrained hidle hne

theorem awaitMade_inv (hi : g.Inv) (hstack : g.stack = .await :: rest)
    (h : (g.above rest).userCodeReturns .await exception = some g') : g'.Inv := by
  have hexec := hi.executing
  have hret := hi.returning
  have hfunc := hi.func
  have hrel := hi.released
  have hs : g.state = .executing := by
    by_contra hne
    rw [hstack, if_neg hne, List.count_cons_self] at hexec
    omega
  rw [hstack] at hexec hret hfunc
  simp only [hs, List.count_cons, beq_iff_eq, reduceCtorEq, if_true, if_false] at hexec hret
  rw [GeneratorState.frame_cons _ (by simp)] at hfunc
  have hbody : Activation.body ∉ rest := List.count_eq_zero.mp (by omega)
  simp only [hs, GeneratorState.frame, hbody, if_false] at hfunc
  cases exception with
  | none =>
    have he : g' = { g with stack := rest, awaits := g.awaits + 1 } := by
      simpa [userCodeReturns, above] using h.symm
    subst he
    refine ⟨?_, ?_, ?_, hi.released, hi.input, hi.busy, fun hidle => absurd hs hidle.1, hi.fault,
      hi.prescribed⟩
    · simp only [hs, if_true]
      omega
    · simpa [hs] using hret
    · simpa [hs, GeneratorState.frame, hbody] using hfunc
  | some error =>
    have he : g' = ({ g with stack := rest } : AsyncGenerator).execute (.awaited true error) := by
      simpa [userCodeReturns, above, execute, hs] using h.symm
    subst he
    refine execute_inv ?_ hret ?_ ?_ ?_ (hi.busy fun hidle => hidle.1 hs) hi.fault ?_
    · simp only
      omega
    · simp [hfunc]
    · simp [hfunc]
    · simpa [hfunc] using hrel
    · apply hi.prescribed.next (.awaitDone true error)
      simp [Prescribed.step, prescribed, phase, hs, hfunc, Input.resumption]

theorem returnMade_inv (hi : g.Inv) (hstack : g.stack = .completedReturn :: rest)
    (h : (g.above rest).userCodeReturns .completedReturn exception = some g') : g'.Inv := by
  have hexec := hi.executing
  have hret := hi.returning
  have hfunc := hi.func
  have hs : g.state = .awaitingReturn := by
    by_contra hne
    rw [hstack, if_neg hne, List.count_cons_self] at hret
    omega
  rw [hstack] at hexec hret hfunc
  simp only [hs, List.count_cons, beq_iff_eq, reduceCtorEq, if_true, if_false] at hexec hret
  rw [GeneratorState.frame_cons _ (by simp)] at hfunc
  have he : g' = { g with stack := rest, returns := g.returns ++ [exception] } := by
    simpa [userCodeReturns, above] using h.symm
  subst he
  refine ⟨?_, ?_, hfunc, hi.released, hi.input, hi.busy, fun hidle => absurd hs hidle.2, hi.fault,
    hi.prescribed⟩
  · simpa [hs] using hexec
  · simp only [hs, if_true, List.length_append, List.length_singleton]
    omega

end

theorem awaitSettled_inv (hi : g.Inv) {isReject : Bool} {value : JSValue} (hw : 0 < g.awaits) :
    (({ g with awaits := g.awaits - 1 } : AsyncGenerator).awaitSettled isReject value).Inv := by
  have hexec := hi.executing
  have hs : g.state = .executing := by
    by_contra hne
    rw [if_neg hne] at hexec
    omega
  rw [if_pos hs] at hexec
  have he : ({ g with awaits := g.awaits - 1 } : AsyncGenerator).awaitSettled isReject value =
      { g with
        awaits := g.awaits - 1
        input := some (.awaited isReject value)
        stack := .loop :: g.stack } := by
    simp [awaitSettled, hs, push]
  rw [he]
  refine ⟨?_, ?_, ?_, hi.released, ?_, hi.busy, fun hidle => absurd hs hidle.1, hi.fault,
    hi.prescribed⟩
  · have hb : g.stack.count .body = 0 := by omega
    have ha : g.stack.count .await = 0 := by omega
    have hone : g.awaits - 1 = 0 := by omega
    simp [hs, hb, ha, hone]
  · simpa using hi.returning
  · exact hi.func.trans (GeneratorState.frame_cons _ (by simp) _).symm
  · intro i hin
    cases hin
    exact ⟨isReject, value, rfl⟩

theorem returnSettled_inv (hi : g.Inv) {k : Nat} {isReject : Bool} {value : JSValue}
    (hk : k < g.returns.length) (ho : g.queue.length = 1) :
    (({ g with returns := g.returns.eraseIdx k } : AsyncGenerator).returnSettled
      isReject value).Inv := by
  have hexec := hi.executing
  have hret := hi.returning
  have hfunc := hi.func
  have hrel := hi.released
  have hs : g.state = .awaitingReturn := by
    by_contra hne
    rw [if_neg hne] at hret
    omega
  obtain ⟨next, hq⟩ := List.length_eq_one_iff.mp ho
  rw [if_pos hs] at hret
  simp only [hs, reduceCtorEq, if_false] at hexec
  simp only [hs, GeneratorState.frame] at hfunc
  have hcount : g.stack.count .completedReturn = 0 := by omega
  have hlen : (g.returns.eraseIdx k).length = 0 := by
    rw [List.length_eraseIdx_of_lt hk]
    omega
  cases isReject with
  | true =>
    have he : ({ g with returns := g.returns.eraseIdx k } : AsyncGenerator).returnSettled true value =
        { g with
          returns := g.returns.eraseIdx k
          state := .completed
          queue := []
          settled := g.settled ++ [(next.id, .reject value)] } := by
      simp [returnSettled, hs, reject, resolveOrReject, hq]
    rw [he]
    refine ⟨by simpa using hexec, by simp [hcount, hlen], by simpa [GeneratorState.frame] using hfunc,
      hi.released, hi.input, ?_, fun _ hne => absurd rfl hne, hi.fault,
      hi.prescribed.next (.returnDone true value) ?_⟩
    · intro hidle
      exact absurd ⟨by simp, by simp⟩ hidle
    · simp [Prescribed.step, Prescribed.completeStep, prescribed, phase, hs, hq,
        Prescribed.awaitSettlement]
  | false =>
    have he : ({ g with returns := g.returns.eraseIdx k } : AsyncGenerator).returnSettled false value =
        { g with
          returns := g.returns.eraseIdx k
          state := .completed
          queue := []
          settled := g.settled ++ [(next.id, .resolve value true)]
          stack := .resolving false :: g.stack } := by
      simp [returnSettled, hs, resolve, resolveOrReject, hq, push]
    rw [he]
    refine ⟨by simpa using hexec, by simp [hcount, hlen], by simpa [GeneratorState.frame] using hfunc,
      hi.released, hi.input, ?_, fun _ hne => absurd rfl hne, hi.fault,
      hi.prescribed.next (.returnDone false value) ?_⟩
    · intro hidle
      exact absurd ⟨by simp, by simp⟩ hidle
    · simp [Prescribed.step, Prescribed.completeStep, prescribed, phase, hs, hq,
        Prescribed.awaitSettlement]

theorem step_cases {e : Event} (h : g.step e = some g') : g.alive = true ∧
    ((e = .finalize ∧ g.stack = [] ∧ g' = g.finalize) ∨
    g.userStep e = some g' ∨
    (∃ rest, e = .round ∧ g.stack = .loop :: rest ∧ g' = (g.above rest).resumeNext) ∨
    (∃ a rest exception, g.stack = a :: rest ∧
      (g.above rest).userCodeReturns a exception = some g') ∨
    ∃ rest, g.stack = .body :: rest ∧ (g.above rest).bodyStep e = some g') := by
  simp only [step] at h
  split at h
  · cases h
  · rename_i hlive
    have halive : g.alive = true := by
      cases ha : g.alive with
      | true => rfl
      | false => simp [ha] at hlive
    refine ⟨halive, ?_⟩
    split at h
    · rename_i hstack
      split at h
      · rename_i hf
        cases h
        exact .inl ⟨hf, hstack, rfl⟩
      · exact .inr (.inl h)
    · rename_i rest hstack
      split at h
      · rename_i hr
        cases h
        exact .inr (.inr (.inl ⟨rest, hr, hstack, rfl⟩))
      · cases h
    · rename_i a rest _ hstack
      have hbody : (if a = .body then (g.above rest).bodyStep e else none) = some g' →
          ∃ rest, g.stack = .body :: rest ∧ (g.above rest).bodyStep e = some g' := by
        intro hb
        split at hb
        · rename_i ha
          subst ha
          exact ⟨rest, hstack, hb⟩
        · cases hb
      split at h
      · exact .inr (.inr (.inr (.inl ⟨a, rest, _, hstack, h⟩)))
      · exact .inr (.inr (.inr (.inr (hbody h))))
      · exact .inr (.inr (.inr (.inr (hbody h))))
      · exact .inr (.inr (.inr (.inr (hbody h))))
      · exact .inr (.inr (.inr (.inr (hbody h))))
      · exact .inr (.inl h)

theorem userStep_inv (hi : g.Inv) {e : Event} (ho : g.Orderly e) (h : g.userStep e = some g') :
    g'.Inv := by
  cases e with
  | next completionType value =>
    cases h
    exact next_inv hi completionType value
  | awaitSettles isReject value =>
    simp only [userStep] at h
    split at h
    · rename_i hw
      cases h
      exact awaitSettled_inv hi hw
    · cases h
  | returnSettles k isReject value =>
    simp only [userStep] at h
    split at h
    · cases h
    · rename_i bound hk
      split at h
      · cases h
        exact returnSettled_inv hi (List.getElem?_eq_some_iff.mp hk).1 ho
      · cases h
  | _ => cases h

theorem bodyStep_inv (hi : g.Inv) {rest : List Activation} (hstack : g.stack = .body :: rest)
    {e : Event} (h : (g.above rest).bodyStep e = some g') : g'.Inv := by
  cases e with
  | bodyYields value star => exact bodyYields_inv hi hstack h
  | bodyAwaits => exact bodyAwaits_inv hi hstack h
  | bodyReturns value => exact bodyReturns_inv hi hstack h
  | bodyThrows error => exact bodyThrows_inv hi hstack h
  | _ => cases h

structure Finalized (g : AsyncGenerator) : Prop where
  alive : g.alive = false
  released : g.released = 1
  fault : g.fault = false
  prescribed : g.prescribed.Reached

theorem finalize_finalized (hi : g.Inv) (hstack : g.stack = []) : g.finalize.Finalized := by
  have hfunc := hi.func
  have hrel := hi.released
  rw [hstack] at hfunc
  by_cases hs : g.state ≠ .completed ∧ g.state ≠ .awaitingReturn
  · have hlive : g.func ≠ .running ∧ g.func ≠ .freed := by
      rw [hfunc]
      cases hstate : g.state <;> simp [hstate, GeneratorState.frame] at hs ⊢
    have he : g.finalize =
        { g with alive := false, func := .freed, released := g.released + 1 } := by
      simp [finalize, hs, funcFree, hlive]
    rw [he]
    refine ⟨rfl, ?_, hi.fault, ?_⟩
    · simp [hrel, hlive.2]
    · have hsame : prescribed { g with alive := false, func := .freed, released := g.released + 1 } =
          g.prescribed := by
        cases hstate : g.state <;> simp [prescribed, phase, hstate, hlive.1]
      rw [hsame]
      exact hi.prescribed
  · have he : g.finalize = { g with alive := false } := by
      rw [finalize, if_neg hs]
    rw [he]
    refine ⟨rfl, ?_, hi.fault, hi.prescribed⟩
    have hfreed : g.func = .freed := by
      rw [hfunc]
      cases hstate : g.state <;> simp [hstate, GeneratorState.frame] at hs ⊢
    simp [hrel, hfreed]

@[simp] theorem resolveOrReject_alive (s : Settlement) :
    (g.resolveOrReject s).alive = g.alive := by
  unfold resolveOrReject
  split <;> rfl

@[simp] theorem complete_alive : g.complete.alive = g.alive := by
  unfold complete
  split <;> rfl

@[simp] theorem resumeNext_alive : g.resumeNext.alive = g.alive := by
  unfold resumeNext
  split
  · rfl
  · split
    · rfl
    · rfl
    · split
      · rfl
      · simp [push]
    · split
      · simp [resolve, push]
      · rfl
      · simp [reject]
    · split <;> rfl
    · rfl

theorem userStep_alive {e : Event} (h : g.userStep e = some g') : g'.alive = g.alive := by
  cases e with
  | next completionType value =>
    cases h
    simp only [next]
    split <;> rfl
  | awaitSettles isReject value =>
    simp only [userStep] at h
    split at h
    · cases h
      simp only [awaitSettled]
      split <;> rfl
    · cases h
  | returnSettles k isReject value =>
    simp only [userStep] at h
    split at h
    · cases h
    · split at h
      · cases h
        simp only [returnSettled]
        split <;> simp [reject, resolve, push]
      · cases h
  | _ => cases h

theorem userCodeReturns_alive {a : Activation} (h : g.userCodeReturns a exception = some g') :
    g'.alive = g.alive := by
  cases a with
  | resolving again => cases again <;> cases h <;> rfl
  | await => cases exception <;> cases h <;> rfl
  | completedReturn =>
    cases h
    rfl
  | _ => cases h

theorem bodyStep_alive {e : Event} (h : g.bodyStep e = some g') : g'.alive = g.alive := by
  cases e with
  | bodyYields value star =>
    cases h
    simp [resolve, push]
  | bodyAwaits =>
    cases h
    rfl
  | bodyReturns value =>
    cases h
    simp [resolve, push]
  | bodyThrows error =>
    cases h
    simp [reject, push]
  | _ => cases h

theorem step_inv (hi : g.Inv) {e : Event} (ho : g.Orderly e) (h : g.step e = some g') :
    (g'.Inv ∧ g'.alive = true) ∨ g'.Finalized := by
  obtain ⟨halive, hf | hu | hr | hc | hb⟩ := step_cases h
  · obtain ⟨-, hstack, rfl⟩ := hf
    exact .inr (finalize_finalized hi hstack)
  · exact .inl ⟨userStep_inv hi ho hu, (userStep_alive hu).trans halive⟩
  · obtain ⟨rest, rfl, hstack, rfl⟩ := hr
    refine .inl ⟨round_inv hi hstack ho, ?_⟩
    rw [resumeNext_alive]
    exact halive
  · obtain ⟨a, rest, exception, hstack, hreturns⟩ := hc
    refine .inl ⟨?_, (userCodeReturns_alive hreturns).trans halive⟩
    cases a with
    | loop => cases hreturns
    | body => cases hreturns
    | resolving again => exact resolved_inv hi hstack hreturns
    | await => exact awaitMade_inv hi hstack hreturns
    | completedReturn => exact returnMade_inv hi hstack hreturns
  · obtain ⟨rest, hstack, hbody⟩ := hb
    exact .inl ⟨bodyStep_inv hi hstack hbody, (bodyStep_alive hbody).trans halive⟩

theorem run_inv (h : Reach step Orderly .start g) :
    (g.Inv ∧ g.alive = true) ∨ g.Finalized := by
  refine Reach.invariant (P := fun g => (g.Inv ∧ g.alive = true) ∨ g.Finalized)
    (.inl ⟨start_inv, rfl⟩) ?_ h
  rintro g e g' (⟨hi, -⟩ | hf) ho hs
  · exact step_inv hi ho hs
  · have halive := (step_cases hs).1
    rw [hf.alive] at halive
    cases halive

structure Serves (g : AsyncGenerator) : Prop where
  /-- The body has never been resumed while it was running or after its end, no assertion has
  failed, and no settlement has missed its request. -/
  fault : g.fault = false
  /-- The body and the requests have been given what the operations of the standard give them. -/
  prescribed : g.prescribed.Reached
  /-- The requests are settled in their order, each at most once. -/
  inOrder : g.prescribed.InOrder
  /-- Where nothing is under way no request waits. -/
  drained : g.alive = true → g.stack = [] → g.Idle → g.queue = []
  /-- The frame is released at most once, and it has been when the generator is gone. -/
  released : g.released ≤ 1 ∧ (g.alive = false → g.released = 1)

theorem orderly_runs_serve (h : Reach step Orderly .start g) : g.Serves := by
  rcases run_inv h with ⟨hi, halive⟩ | hf
  · refine ⟨hi.fault, hi.prescribed, hi.prescribed.inOrder, ?_, ?_, ?_⟩
    · intro _ hstack hidle
      by_contra hne
      rcases hi.drained hidle hne with hloop | hresolving
      · rw [hstack] at hloop
        cases hloop
      · rw [hstack] at hresolving
        cases hresolving
    · rw [hi.released]
      split <;> omega
    · intro hgone
      rw [halive] at hgone
      cases hgone
  · refine ⟨hf.fault, hf.prescribed, hf.prescribed.inOrder, ?_,
      ⟨Nat.le_of_eq hf.released, fun _ => hf.released⟩⟩
    intro halive
    rw [hf.alive] at halive
    cases halive

def servedEvents : List Event :=
  [.next .magicNext .undefined, .round, .bodyAwaits, .userCodeReturns none,
    .next .magicThrow (.primitive 1), .awaitSettles false (.primitive 2), .round,
    .bodyYields (.primitive 2) false, .userCodeReturns none, .round, .bodyReturns (.primitive 3),
    .userCodeReturns none, .round, .next .magicReturn (.primitive 4), .round,
    .userCodeReturns none, .returnSettles 0 false (.primitive 4), .userCodeReturns none, .finalize]

theorem served_in_order : ∃ g, Reach step Orderly .start g ∧ g.Serves ∧
    g.settled = [(0, .resolve (.primitive 2) false), (1, .resolve (.primitive 3) true),
      (2, .resolve (.primitive 4) true)] := by
  have hrun : (servedEvents.foldlM (fun (g : AsyncGenerator) e => if g.Orderly e then g.step e else none)
      AsyncGenerator.start).map (·.settled) =
        some [(0, .resolve (.primitive 2) false), (1, .resolve (.primitive 3) true),
          (2, .resolve (.primitive 4) true)] := by decide +kernel
  obtain ⟨g, hg, hsettled⟩ := Option.map_eq_some_iff.mp hrun
  have hreach := Reach.of_guarded hg
  exact ⟨g, hreach, orderly_runs_serve hreach, hsettled⟩

def strandedEvents : List Event :=
  [.next .magicNext .undefined, .round, .next .magicNext .undefined, .next .magicNext .undefined,
    .bodyReturns .undefined, .userCodeReturns none, .round, .userCodeReturns none]

/-- The third request is still in the queue when everything is over. -/
theorem third_request_is_stranded : ∃ g, strandedEvents.foldlM step AsyncGenerator.start = some g ∧
    g.state = .completed ∧ g.stack = [] ∧ g.queue = [⟨2, .magicNext, .undefined⟩] ∧
    ¬ g.Serves := by
  have hrun : (strandedEvents.foldlM step AsyncGenerator.start).map
      (fun g => (g.state, g.stack, g.queue, g.alive)) =
        some (.completed, [], [⟨2, .magicNext, .undefined⟩], true) := by decide +kernel
  obtain ⟨g, hg, hvals⟩ := Option.map_eq_some_iff.mp hrun
  simp only [Prod.mk.injEq] at hvals
  obtain ⟨hstate, hstack, hqueue, halive⟩ := hvals
  refine ⟨g, hg, hstate, hstack, hqueue, fun hserves => ?_⟩
  have hempty := hserves.drained halive hstack (by simp [Idle, hstate])
  rw [hqueue] at hempty
  cases hempty

end AsyncGenerator

end TurboJS.Generators
