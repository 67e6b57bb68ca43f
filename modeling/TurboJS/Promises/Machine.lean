import Mathlib.Data.List.Basic

namespace TurboJS.Promises

/-! Promises, their resolving functions and the job queue. -/

inductive PromiseState where
  | pending
  | fulfilled
  | rejected
  deriving DecidableEq, Repr

inductive JSValue where
  | undefined
  | primitive (n : Nat)
  | object (n : Nat)
  | function (n : Nat)
  | promise (p : Nat)
  | resolveFunction (pair : Nat) (isReject : Bool)
  | typeError (message : String)
  | uncatchableError (n : Nat)
  deriving DecidableEq, Repr

def JSValue.isObject : JSValue → Bool
  | .undefined | .primitive _ => false
  | _ => true

def JSValue.isFunction : JSValue → Bool
  | .function _ | .resolveFunction _ _ => true
  | _ => false

def JSValue.isUncatchable : JSValue → Bool
  | .uncatchableError _ => true
  | _ => false

inductive Completion where
  | normal (value : JSValue)
  | exception (error : JSValue)
  deriving DecidableEq, Repr

/-- Two values, of which the C code selects one by `is_reject`. -/
structure ByKind where
  onFulfilled : JSValue
  onRejected : JSValue
  deriving DecidableEq, Repr

def ByKind.get (b : ByKind) (isReject : Bool) : JSValue :=
  if isReject then b.onRejected else b.onFulfilled

structure PromiseReactionData where
  resolvingFuncs : ByKind
  handler : JSValue
  deriving DecidableEq, Repr

structure PromiseData where
  promiseState : PromiseState
  promiseResult : JSValue
  fulfillReactions : List PromiseReactionData
  rejectReactions : List PromiseReactionData
  isHandled : Bool
  deriving DecidableEq, Repr

def freshPromise : PromiseData := ⟨.pending, .undefined, [], [], false⟩

/-- The list `promise_reactions[is_reject]`. -/
def PromiseData.promiseReactions (s : PromiseData) (isReject : Bool) : List PromiseReactionData :=
  if isReject then s.rejectReactions else s.fulfillReactions

/-- What the two functions of a pair share: the promise and the `already_resolved` flag. -/
structure PromiseFunctionData where
  promise : Nat
  alreadyResolved : Bool
  deriving DecidableEq, Repr

inductive Job where
  | reaction (resolvingFuncs : ByKind) (handler : JSValue) (isReject : Bool) (arg : JSValue)
  | resolveThenable (promise : Nat) (thenable : JSValue) (thenFunction : JSValue)
  | other (n : Nat)
  deriving DecidableEq, Repr

inductive Frame where
  /-- `js_promise_resolve_function_call` reads the property `then` of the resolution. -/
  | readThen (pair : Nat) (resolution : JSValue)
  /-- `promise_reaction_job` calls the handler. -/
  | reaction (resolvingFuncs : ByKind) (handler : JSValue)
  /-- `js_promise_resolve_thenable_job` calls `then` with the functions of a new pair. -/
  | callThen (pair : Nat) (thenFunction : JSValue)
  deriving DecidableEq, Repr

structure Runtime where
  promises : List PromiseData
  pairs : List PromiseFunctionData
  jobList : List Job
  frames : List Frame
  deriving DecidableEq, Repr

/-- A call of `perform_promise_then`. -/
structure Registration where
  resolveReject : ByKind
  capResolvingFuncs : ByKind
  deriving DecidableEq, Repr

/-- The reaction that a registration leaves on one of the two lists: a handler that is no function
counts as none. -/
def Registration.reaction (r : Registration) (isReject : Bool) : PromiseReactionData where
  resolvingFuncs := r.capResolvingFuncs
  handler :=
    if (r.resolveReject.get isReject).isFunction then r.resolveReject.get isReject else .undefined

/-- The job of `promise_reaction_job` for a reaction. -/
def PromiseReactionData.job (rd : PromiseReactionData) (isReject : Bool) (value : JSValue) : Job :=
  .reaction rd.resolvingFuncs rd.handler isReject value

inductive Record where
  | registered (p : Nat) (r : Registration)
  /-- A job is queued: a reaction job of a promise, or another one. -/
  | queued (p : Option Nat) (job : Job)
  | executed (job : Job)
  | called (pair : Nat)
  deriving DecidableEq, Repr

structure World where
  rt : Runtime
  log : List Record
  deriving DecidableEq, Repr

def World.start : World := ⟨⟨[], [], [], []⟩, []⟩

def World.record (w : World) (r : Record) : World := { w with log := w.log ++ [r] }

def World.setPromise (w : World) (p : Nat) (s : PromiseData) : World :=
  { w with rt := { w.rt with promises := w.rt.promises.set p s } }

def World.pushFrame (w : World) (f : Frame) : World :=
  { w with rt := { w.rt with frames := f :: w.rt.frames } }

/-- `JS_EnqueueJob`, on behalf of a promise or not. -/
def World.enqueueJob (w : World) (p : Option Nat) (job : Job) : World :=
  { rt := { w.rt with jobList := w.rt.jobList ++ [job] }
    log := w.log ++ ([.queued p job] : List Record) }

def World.fulfillOrReject (w : World) (p : Nat) (value : JSValue) (isReject : Bool) : World :=
  match w.rt.promises[p]? with
  | none => w
  | some s =>
    if s.promiseState ≠ .pending then w
    else
      let settled :=
        { s with
          promiseResult := value
          promiseState := if isReject then .rejected else .fulfilled }
      let queued := (s.promiseReactions isReject).foldl
        (fun w rd => w.enqueueJob (some p) (rd.job isReject value))
        (w.setPromise p settled)
      queued.setPromise p { settled with fulfillReactions := [], rejectReactions := [] }

/-- `js_create_resolving_functions`: a new pair for a promise. -/
def World.createResolvingFunctions (w : World) (p : Nat) : World :=
  { w with rt := { w.rt with pairs := w.rt.pairs ++ [⟨p, false⟩] } }

/-- `js_promise_new`: a promise and its first pair. -/
def World.newPromise (w : World) : World :=
  { w with rt := { w.rt with promises := w.rt.promises ++ [freshPromise] } }.createResolvingFunctions w.rt.promises.length

def selfResolution : JSValue := .typeError "promise self resolution"

/-- The argument `argv[0]`, where there is one. -/
def firstArg (argv : List JSValue) : JSValue := argv.head?.getD .undefined

/-- `js_promise_resolve_function_call`, up to the read of the property `then`. -/
def World.resolveFunctionCall (w : World) (pair : Nat) (isReject : Bool)
    (argv : List JSValue) : World :=
  match w.rt.pairs[pair]? with
  | none => w
  | some s =>
    let w := w.record (.called pair)
    if s.alreadyResolved then w
    else
      let w := { w with rt := { w.rt with pairs := w.rt.pairs.set pair ⟨s.promise, true⟩ } }
      let resolution := firstArg argv
      if isReject || !resolution.isObject then
        w.fulfillOrReject s.promise resolution isReject
      else if resolution = .promise s.promise then
        w.fulfillOrReject s.promise selfResolution true
      else w.pushFrame (.readThen pair resolution)

/-- The rest of `js_promise_resolve_function_call`, with what the read of `then` gives. -/
def World.thenRead (w : World) (pair : Nat) (resolution : JSValue) (res : Completion) : World :=
  match w.rt.pairs[pair]? with
  | none => w
  | some s =>
    match res with
    | .exception error => w.fulfillOrReject s.promise error true
    | .normal thenFunction =>
      if thenFunction.isFunction then
        w.enqueueJob none (.resolveThenable s.promise resolution thenFunction)
      else w.fulfillOrReject s.promise resolution false

/-- `JS_Call` by the promise code: a resolving function is C code of this component, any other
value is left to user code. -/
def World.call (w : World) (func : JSValue) (argv : List JSValue) : World :=
  match func with
  | .resolveFunction pair isReject => w.resolveFunctionCall pair isReject argv
  | _ => w

/-- A resolving function returns `undefined`, user code anything. -/
def mayReturn (func : JSValue) (res : Completion) : Bool :=
  match func with
  | .resolveFunction _ _ => res = .normal .undefined
  | _ => true

/-- The end of `promise_reaction_job`, with what the handler gives. -/
def World.reactionDone (w : World) (resolvingFuncs : ByKind) (res : Completion) : World :=
  match res with
  | .normal value => w.call (resolvingFuncs.get false) [value]
  | .exception error =>
    if error.isUncatchable then w else w.call (resolvingFuncs.get true) [error]

def World.performPromiseThen (w : World) (p : Nat) (r : Registration) : Option World :=
  match w.rt.promises[p]? with
  | none => none
  | some s =>
    let w := w.record (.registered p r)
    match s.promiseState with
    | .pending =>
      some (w.setPromise p
        { s with
          fulfillReactions := s.fulfillReactions ++ [r.reaction false]
          rejectReactions := s.rejectReactions ++ [r.reaction true]
          isHandled := true })
    | settled =>
      let i := decide (settled = .rejected)
      some ((w.enqueueJob (some p) ((r.reaction i).job i s.promiseResult)).setPromise p
        { s with isHandled := true })

/-- `JS_ExecutePendingJob`: the first job of the queue, up to its first call into user code. -/
def World.executePendingJob (w : World) : Option World :=
  match w.rt.jobList with
  | [] => none
  | job :: rest =>
    let w : World := ⟨{ w.rt with jobList := rest }, w.log ++ ([.executed job] : List Record)⟩
    match job with
    | .reaction resolvingFuncs handler isReject arg =>
      if handler = .undefined then
        some (w.reactionDone resolvingFuncs (if isReject then .exception arg else .normal arg))
      else some ((w.pushFrame (.reaction resolvingFuncs handler)).call handler [arg])
    | .resolveThenable p _ thenFunction =>
      let pair := w.rt.pairs.length
      some (((w.createResolvingFunctions p).pushFrame (.callThen pair thenFunction)).call
        thenFunction [.resolveFunction pair false, .resolveFunction pair true])
    | .other _ => some w

def World.userCodeReturns (w : World) (res : Completion) : Option World :=
  match w.rt.frames with
  | [] => none
  | frame :: rest =>
    let w := { w with rt := { w.rt with frames := rest } }
    match frame with
    | .readThen pair resolution => some (w.thenRead pair resolution res)
    | .reaction resolvingFuncs handler =>
      if mayReturn handler res then some (w.reactionDone resolvingFuncs res) else none
    | .callThen pair thenFunction =>
      if mayReturn thenFunction res then
        match res with
        | .normal _ => some w
        | .exception error => some (w.resolveFunctionCall pair true [error])
      else none

inductive Event where
  | newPromise
  | callResolveFunction (pair : Nat) (isReject : Bool) (argv : List JSValue)
  | performPromiseThen (p : Nat) (r : Registration)
  | executePendingJob
  | userCodeReturns (res : Completion)
  | enqueueJob (n : Nat)
  deriving DecidableEq, Repr

def World.step (w : World) : Event → Option World
  | .newPromise => some w.newPromise
  | .callResolveFunction pair isReject argv =>
    if pair < w.rt.pairs.length then some (w.resolveFunctionCall pair isReject argv) else none
  | .performPromiseThen p r => w.performPromiseThen p r
  | .executePendingJob => w.executePendingJob
  | .userCodeReturns res => w.userCodeReturns res
  | .enqueueJob n => some (w.enqueueJob none (.other n))

def World.run (w : World) (events : List Event) : Option World := events.foldlM World.step w

end TurboJS.Promises
