import TurboJS.Promises.Machine
import TurboJS.Foundation.Run

namespace TurboJS.Generators

open Promises (JSValue)

/-! Asynchronous generators. -/

inductive GeneratorState where
  | suspendedStart
  | suspendedYield
  | suspendedYieldStar
  | executing
  | awaitingReturn
  | completed
  deriving DecidableEq, Repr

/-- The `GEN_MAGIC_x` constants. -/
inductive CompletionType where
  | magicNext
  | magicReturn
  | magicThrow
  deriving DecidableEq, Repr

structure Request where
  id : Nat
  completionType : CompletionType
  result : JSValue
  deriving DecidableEq, Repr

inductive Settlement where
  | resolve (value : JSValue) (done : Bool)
  | reject (error : JSValue)
  deriving DecidableEq, Repr

inductive FuncState where
  | start
  | running
  | atYield
  | atAwait
  | ended
  | freed
  deriving DecidableEq, Repr

/-- What the body finds when it is resumed: the value and the kind on its stack, or an exception
with `throw_flag`. -/
inductive Input where
  | start
  | sent (completionType : CompletionType) (value : JSValue)
  | thrown (error : JSValue)
  | awaited (isReject : Bool) (value : JSValue)
  deriving DecidableEq, Repr

inductive Activation where
  /-- `js_async_generator_resume_next`, about to look at the queue. -/
  | loop
  /-- `async_func_resume`: the body runs. -/
  | body
  /-- A request's resolving function is called; the loop then goes on, or it is left. -/
  | resolving (again : Bool)
  /-- `js_promise_resolve` in `js_async_generator_await`. -/
  | await
  /-- `js_promise_resolve` in `js_async_generator_completed_return`. -/
  | completedReturn
  deriving DecidableEq, Repr

structure AsyncGenerator where
  state : GeneratorState
  queue : List Request
  func : FuncState
  /-- What has been put into the frame since the body was suspended. -/
  input : Option Input
  stack : List Activation
  /-- The awaits that are to call `js_async_generator_resolve_function`. -/
  awaits : Nat
  /-- The same for the awaited returns, with the rejection that some of them are bound to. -/
  returns : List (Option JSValue)
  alive : Bool
  /-- The history: the number of requests, what they have been given, what the body has been
  resumed with, and how often the frame has been freed. -/
  made : Nat
  settled : List (Nat × Settlement)
  resumed : List Input
  released : Nat
  /-- An assertion has failed, or a frame or a request was used that cannot be. -/
  fault : Bool
  deriving DecidableEq, Repr

def AsyncGenerator.start : AsyncGenerator where
  state := .suspendedStart
  queue := []
  func := .start
  input := none
  stack := []
  awaits := 0
  returns := []
  alive := true
  made := 0
  settled := []
  resumed := []
  released := 0
  fault := false

namespace AsyncGenerator

variable (g : AsyncGenerator)

def push (a : Activation) : AsyncGenerator := { g with stack := a :: g.stack }

def above (rest : List Activation) : AsyncGenerator := { g with stack := rest }

/-- `js_async_generator_resolve_or_reject`, up to the call of the resolving function. -/
def resolveOrReject (s : Settlement) : AsyncGenerator :=
  match g.queue with
  | [] => { g with fault := true }
  | next :: rest => { g with queue := rest, settled := g.settled ++ [(next.id, s)] }

/-- `js_async_generator_resolve`: the iterator result may lead to user code. -/
def resolve (value : JSValue) (done again : Bool) : AsyncGenerator :=
  (g.resolveOrReject (.resolve value done)).push (.resolving again)

def reject (error : JSValue) : AsyncGenerator := g.resolveOrReject (.reject error)

def funcFree : AsyncGenerator :=
  { g with
    func := .freed
    released := g.released + 1
    fault := g.fault || g.func = .running || g.func = .freed }

def complete : AsyncGenerator :=
  if g.state ≠ .completed then { g with state := .completed }.funcFree else g

def staleInput : Input := .awaited false .undefined

/-- `async_func_resume`, up to the body. -/
def funcResume : AsyncGenerator :=
  { g with
    func := .running
    input := none
    resumed := g.resumed ++ [g.input.getD staleInput]
    stack := .body :: g.stack
    fault := g.fault || g.func = .running || g.func = .freed }

/-- The state `EXECUTING` with an input for the body, and `resume_exec`. -/
def execute (i : Input) : AsyncGenerator :=
  { g with state := .executing, input := some i }.funcResume

/-- One round of the loop of `js_async_generator_resume_next`. -/
def resumeNext : AsyncGenerator :=
  match g.queue with
  | [] => g
  | next :: _ =>
    match g.state with
    | .executing => g.funcResume
    | .awaitingReturn => g
    | .suspendedStart =>
      if next.completionType = .magicNext then g.execute .start else g.complete.push .loop
    | .completed =>
      match next.completionType with
      | .magicNext => g.resolve .undefined true false
      | .magicReturn => { g with state := .awaitingReturn }.push .completedReturn
      | .magicThrow => g.reject next.result
    | .suspendedYield =>
      if next.completionType = .magicThrow then g.execute (.thrown next.result)
      else g.execute (.sent next.completionType next.result)
    | .suspendedYieldStar => g.execute (.sent next.completionType next.result)

def next (completionType : CompletionType) (value : JSValue) : AsyncGenerator :=
  let g' : AsyncGenerator :=
    { g with queue := g.queue ++ [⟨g.made, completionType, value⟩], made := g.made + 1 }
  if g.state ≠ .executing then g'.push .loop else g'

/-- `js_async_generator_resolve_function` for an await. -/
def awaitSettled (isReject : Bool) (value : JSValue) : AsyncGenerator :=
  if g.state = .executing then
    { g with input := some (.awaited isReject value) }.push .loop
  else g

/-- `js_async_generator_resolve_function` for an awaited return. -/
def returnSettled (isReject : Bool) (value : JSValue) : AsyncGenerator :=
  let g' : AsyncGenerator :=
    { g with
      state := .completed
      fault := g.fault || !decide (g.state = .awaitingReturn ∨ g.state = .completed) }
  if isReject then g'.reject value else g'.resolve value true false

/-- The finalizer, `js_async_generator_free`. -/
def finalize : AsyncGenerator :=
  let g' : AsyncGenerator := { g with alive := false }
  if g.state ≠ .completed ∧ g.state ≠ .awaitingReturn then g'.funcFree else g'

end AsyncGenerator

/-- What user code, the promises and the collector do; `round` is the loop going on by itself. -/
inductive Event where
  | next (completionType : CompletionType) (value : JSValue)
  | round
  | bodyYields (value : JSValue) (star : Bool)
  | bodyAwaits
  | bodyReturns (value : JSValue)
  | bodyThrows (error : JSValue)
  /-- User code that `js_promise_resolve` or a resolving function has called returns. -/
  | userCodeReturns (exception : Option JSValue)
  | awaitSettles (isReject : Bool) (value : JSValue)
  | returnSettles (k : Nat) (isReject : Bool) (value : JSValue)
  | finalize
  deriving DecidableEq, Repr

namespace AsyncGenerator

variable (g : AsyncGenerator)

/-- User code returns to the activation `a`. -/
def userCodeReturns (a : Activation) (exception : Option JSValue) : Option AsyncGenerator :=
  match a with
  | .resolving true => some (g.push .loop)
  | .resolving false => some g
  | .await =>
    match exception with
    | none => some { g with awaits := g.awaits + 1 }
    | some error => some { g with input := some (.awaited true error) }.funcResume
  | .completedReturn => some { g with returns := g.returns ++ [exception] }
  | .loop | .body => none

/-- A step of the body, which is the topmost activation of `g.push .body`. -/
def bodyStep : Event → Option AsyncGenerator
  | .bodyYields value star =>
    some ({ g with
      func := .atYield
      state := if star then .suspendedYieldStar else .suspendedYield }.resolve value false true)
  | .bodyAwaits => some ({ g with func := .atAwait }.push .await)
  | .bodyReturns value => some ({ g with func := .ended }.complete.resolve value true true)
  | .bodyThrows error => some (({ g with func := .ended }.complete.reject error).push .loop)
  | _ => none

def userStep : Event → Option AsyncGenerator
  | .next completionType value => some (g.next completionType value)
  | .awaitSettles isReject value =>
    if 0 < g.awaits then some ({ g with awaits := g.awaits - 1 }.awaitSettled isReject value)
    else none
  | .returnSettles k isReject value =>
    match g.returns[k]? with
    | none => none
    | some bound =>
      if bound = none ∨ isReject = true ∧ bound = some value then
        some ({ g with returns := g.returns.eraseIdx k }.returnSettled isReject value)
      else none
  | _ => none

def step (e : Event) : Option AsyncGenerator :=
  if !g.alive || g.fault then none
  else
    match g.stack with
    | [] => if e = .finalize then some g.finalize else g.userStep e
    | .loop :: rest => if e = .round then some (g.above rest).resumeNext else none
    | a :: rest =>
      match e with
      | .userCodeReturns exception => (g.above rest).userCodeReturns a exception
      | .bodyYields _ _ | .bodyAwaits | .bodyReturns _ | .bodyThrows _ =>
        if a = .body then (g.above rest).bodyStep e else none
      | e => g.userStep e

end AsyncGenerator

open Foundation
open Promises (JSValue)

/-! What ECMAScript prescribes for an asynchronous generator: the operations of the standard on
its state and its queue, each of them when the standard allows it. -/

inductive Phase where
  | suspendedStart
  | suspendedYield
  | running
  | awaiting
  | awaitingReturn
  | completed
  deriving DecidableEq, Repr

inductive Resumption where
  | start
  | completion (completionType : CompletionType) (value : JSValue)
  | awaited (isReject : Bool) (value : JSValue)
  deriving DecidableEq, Repr

structure Prescribed where
  phase : Phase
  queue : List Request
  made : Nat
  settled : List (Nat × Settlement)
  resumed : List Resumption

def Prescribed.start : Prescribed := ⟨.suspendedStart, [], 0, [], []⟩

inductive Operation where
  /-- `AsyncGeneratorEnqueue`. -/
  | enqueue (completionType : CompletionType) (value : JSValue)
  /-- `AsyncGeneratorResume` with the first request. -/
  | resume
  /-- A generator that has not started is completed by a return or a throw. -/
  | abandon
  /-- `AsyncGeneratorYield`. -/
  | yields (value : JSValue)
  /-- The end of `AsyncGeneratorStart`. -/
  | returns (value : JSValue)
  | throws (error : JSValue)
  /-- `Await` in the body, and its end. -/
  | awaits
  | awaitDone (isReject : Bool) (value : JSValue)
  /-- `AsyncGeneratorDrainQueue`, for one request. -/
  | drain
  /-- The end of `AsyncGeneratorAwaitReturn`. -/
  | returnDone (isReject : Bool) (value : JSValue)

namespace Prescribed

variable (p : Prescribed)

/-- `AsyncGeneratorCompleteStep`, with the phase that follows. -/
def completeStep (s : Settlement) (phase : Phase) : Option Prescribed :=
  match p.queue with
  | [] => none
  | next :: rest =>
    some { p with phase := phase, queue := rest, settled := p.settled ++ [(next.id, s)] }

def run (r : Resumption) : Prescribed :=
  { p with phase := .running, resumed := p.resumed ++ [r] }

def awaitSettlement (isReject : Bool) (value : JSValue) : Settlement :=
  if isReject then .reject value else .resolve value true

def step (op : Operation) : Option Prescribed :=
  match p.phase, op with
  | _, .enqueue completionType value => some
      { p with queue := p.queue ++ [⟨p.made, completionType, value⟩], made := p.made + 1 }
  | .suspendedStart, .resume =>
    match p.queue with
    | [] => none
    | next :: _ => if next.completionType = .magicNext then some (p.run .start) else none
  | .suspendedStart, .abandon =>
    match p.queue with
    | [] => none
    | next :: _ =>
      if next.completionType = .magicNext then none else some { p with phase := .completed }
  | .suspendedYield, .resume =>
    match p.queue with
    | [] => none
    | next :: _ => some (p.run (.completion next.completionType next.result))
  | .running, .yields value => p.completeStep (.resolve value false) .suspendedYield
  | .running, .returns value => p.completeStep (.resolve value true) .completed
  | .running, .throws error => p.completeStep (.reject error) .completed
  | .running, .awaits => some { p with phase := .awaiting }
  | .awaiting, .awaitDone isReject value => some (p.run (.awaited isReject value))
  | .completed, .drain =>
    match p.queue with
    | [] => none
    | next :: _ =>
      match next.completionType with
      | .magicNext => p.completeStep (.resolve .undefined true) .completed
      | .magicReturn => some { p with phase := .awaitingReturn }
      | .magicThrow => p.completeStep (.reject next.result) .completed
  | .awaitingReturn, .returnDone isReject value =>
    p.completeStep (awaitSettlement isReject value) .completed
  | _, _ => none

end Prescribed

def Prescribed.InOrder (p : Prescribed) : Prop :=
  p.settled.map (·.1) ++ p.queue.map (·.id) = List.range p.made

theorem Prescribed.completeStep_inOrder {p p' : Prescribed} {s : Settlement} {phase : Phase}
    (h : p.completeStep s phase = some p') (hi : p.InOrder) : p'.InOrder := by
  unfold Prescribed.InOrder at hi ⊢
  cases hq : p.queue with
  | nil => simp [Prescribed.completeStep, hq] at h
  | cons next rest =>
    simp only [Prescribed.completeStep, hq, Option.some.injEq] at h
    subst h
    rw [hq] at hi
    simpa using hi

theorem Prescribed.step_cases {p p' : Prescribed} {op : Operation} (h : p.step op = some p') :
    (∃ ct v, p' = { p with queue := p.queue ++ [⟨p.made, ct, v⟩], made := p.made + 1 }) ∨
    (∃ s phase, p.completeStep s phase = some p') ∨
    (p'.queue = p.queue ∧ p'.made = p.made ∧ p'.settled = p.settled) := by
  have hstay : ∀ {q : Prescribed}, some q = some p' → q.queue = p.queue → q.made = p.made →
      q.settled = p.settled → p'.queue = p.queue ∧ p'.made = p.made ∧ p'.settled = p.settled := by
    intro q hq hqueue hmade hsettled
    cases hq
    exact ⟨hqueue, hmade, hsettled⟩
  unfold Prescribed.step at h
  split at h
  · cases h
    exact .inl ⟨_, _, rfl⟩
  · split at h
    · cases h
    · split at h
      · exact .inr (.inr (hstay h rfl rfl rfl))
      · cases h
  · split at h
    · cases h
    · split at h
      · cases h
      · exact .inr (.inr (hstay h rfl rfl rfl))
  · split at h
    · cases h
    · exact .inr (.inr (hstay h rfl rfl rfl))
  · exact .inr (.inl ⟨_, _, h⟩)
  · exact .inr (.inl ⟨_, _, h⟩)
  · exact .inr (.inl ⟨_, _, h⟩)
  · exact .inr (.inr (hstay h rfl rfl rfl))
  · exact .inr (.inr (hstay h rfl rfl rfl))
  · split at h
    · cases h
    · split at h
      · exact .inr (.inl ⟨_, _, h⟩)
      · exact .inr (.inr (hstay h rfl rfl rfl))
      · exact .inr (.inl ⟨_, _, h⟩)
  · exact .inr (.inl ⟨_, _, h⟩)
  · cases h

theorem Prescribed.step_inOrder {p p' : Prescribed} {op : Operation} (h : p.step op = some p')
    (hi : p.InOrder) : p'.InOrder := by
  rcases Prescribed.step_cases h with ⟨ct, v, rfl⟩ | ⟨s, phase, hstep⟩ | ⟨hqueue, hmade, hsettled⟩
  · simpa [Prescribed.InOrder, List.range_succ, ← List.append_assoc] using hi
  · exact Prescribed.completeStep_inOrder hstep hi
  · rw [Prescribed.InOrder, hqueue, hmade, hsettled]
    exact hi

def Prescribed.Reached (p : Prescribed) : Prop :=
  Reach Prescribed.step (fun _ _ => True) .start p

theorem Prescribed.Reached.inOrder {p : Prescribed} (h : p.Reached) : p.InOrder :=
  Reach.invariant (P := Prescribed.InOrder) (show start.InOrder from rfl)
    (fun _ _ _ hi _ hs => Prescribed.step_inOrder hs hi) h

theorem Prescribed.Reached.next {p p' : Prescribed} (h : p.Reached) (op : Operation)
    (hs : p.step op = some p') : p'.Reached :=
  .step h trivial hs

end TurboJS.Generators
