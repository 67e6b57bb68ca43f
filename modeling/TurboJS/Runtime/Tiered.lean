import TurboJS.Runtime.BoundedMap
import TurboJS.IR.Interpreter

namespace TurboJS.Runtime
open IR

/-! Type feedback and the decision to optimize. -/

/-- `TurboJSFeedbackSlot`; the types are bits. -/
structure FeedbackSlot where
  observedTypes : BitVec 32 := 0
  observations : Nat := 0
  transitions : Nat := 0
  deriving DecidableEq, Repr

def feedbackInt32 : BitVec 32 := 1
def feedbackInt64 : BitVec 32 := 2
def feedbackMaxArguments : Nat := 16

def countUp (n : Nat) : Nat := if n ≠ 2 ^ 32 - 1 then n + 1 else n

def FeedbackSlot.observe (slot : FeedbackSlot) (type : BitVec 32) : FeedbackSlot :=
  if type = 0 then slot
  else
    let after := slot.observedTypes ||| type
    { observedTypes := after
      observations := countUp slot.observations
      transitions := if slot.observedTypes ≠ 0 ∧ slot.observedTypes ≠ after then
        countUp slot.transitions else slot.transitions }

def classifyInteger (value : Word) : BitVec 32 :=
  if -2147483648 ≤ value.toInt ∧ value.toInt ≤ 2147483647 then feedbackInt32 else feedbackInt64

structure FeedbackVector where
  arguments : Nat → FeedbackSlot
  result : FeedbackSlot
  argumentCount : Nat
  executionCount : Nat
  bailoutCount : Nat
  exceptionCount : Nat

def FeedbackVector.init (argumentCount : Nat) : FeedbackVector :=
  ⟨fun _ => {}, {}, min (argumentCount % 65536) feedbackMaxArguments, 0, 0, 0⟩

def FeedbackVector.observeCall (v : FeedbackVector) (arguments : List Word) : FeedbackVector :=
  let count := min arguments.length v.argumentCount
  { v with
    executionCount := countUp v.executionCount
    arguments := fun i =>
      if i < count then (v.arguments i).observe (classifyInteger (arguments.getD i 0))
      else v.arguments i }

def FeedbackVector.observeResult (v : FeedbackVector) (result : Word) : FeedbackVector :=
  { v with result := v.result.observe (classifyInteger result) }

def FeedbackVector.observeBailout (v : FeedbackVector) : FeedbackVector :=
  { v with bailoutCount := countUp v.bailoutCount }

def FeedbackVector.observeException (v : FeedbackVector) : FeedbackVector :=
  { v with exceptionCount := countUp v.exceptionCount }

/-- `TurboJS_FeedbackSlotIsStable`: one type has been observed. -/
def FeedbackSlot.isStable (slot : FeedbackSlot) : Bool :=
  slot.observations ≠ 0 ∧ slot.observedTypes &&& (slot.observedTypes - 1) = 0

structure OptimizationPolicy where
  minimumExecutions : Nat
  maximumBailouts : Nat
  maximumExceptions : Nat
  requireStableArguments : Bool
  requireStableResult : Bool
  deriving DecidableEq, Repr

def OptimizationPolicy.default : OptimizationPolicy := ⟨1000, 3, 1, true, true⟩

inductive OptimizationDecision where
  | eligible | tooCold | unstableArguments | unstableResult | tooManyBailouts
  | tooManyExceptions | argumentLimit
  deriving DecidableEq, Repr

/-- The decision of `TurboJS_EvaluateOptimization`. -/
def evaluateOptimization (v : FeedbackVector) (policy : OptimizationPolicy) :
    OptimizationDecision :=
  if v.argumentCount > feedbackMaxArguments then .argumentLimit
  else if v.executionCount < policy.minimumExecutions then .tooCold
  else if v.bailoutCount > policy.maximumBailouts then .tooManyBailouts
  else if v.exceptionCount > policy.maximumExceptions then .tooManyExceptions
  else if policy.requireStableArguments ∧
      (List.range v.argumentCount).any (fun i => !(v.arguments i).isStable) then
    .unstableArguments
  else if policy.requireStableResult ∧ !v.result.isStable then .unstableResult
  else .eligible

end TurboJS.Runtime

namespace TurboJS.Runtime
open IR Foundation

/-! A function that moves from the interpreter to the baseline and to the optimizing tier. -/

inductive TieredResult where
  | interpreted | baselineCompiled | baselineNative | optimizedCompiled | optimizedNative
  deriving DecidableEq, Repr

/-- `TurboJSTieredFunction`, less its statistics. -/
structure TieredFunction where
  cacheKey : Word
  callCount : Nat
  compileThreshold : Nat
  compilationAttempted : Bool
  optimizationAttempted : Bool
  feedback : FeedbackVector
  optimizationPolicy : OptimizationPolicy
  optimized : Option NativeFunction

def defaultOptThreshold (baseline : Nat) : Nat :=
  let threshold := if baseline > (2 ^ 32 - 1) / 4 then 2 ^ 32 - 1
    else if baseline ≠ 0 then baseline * 4 else 1000
  if threshold < 1000 then 1000 else threshold

def TieredFunction.init (cacheKey : Word) (baselineThreshold optimizationThreshold : Nat)
    (policy : Option OptimizationPolicy) : TieredFunction :=
  let compileThreshold := if baselineThreshold ≠ 0 then baselineThreshold else 100
  let optimizationThreshold := if optimizationThreshold ≠ 0 then optimizationThreshold
    else defaultOptThreshold compileThreshold
  { cacheKey := cacheKey
    callCount := 0
    compileThreshold := compileThreshold
    compilationAttempted := false
    optimizationAttempted := false
    feedback := .init 0
    optimizationPolicy :=
      { policy.getD .default with minimumExecutions := optimizationThreshold }
    optimized := none }

structure Answers where
  optimizing : Except Status NativeFunction
  compiler : Compiler
  registered : Bool
  invoke : NativeFunction → List Word → Outcome

structure Invoked where
  function : TieredFunction
  cache : CodeCache
  events : List CacheEvent
  outcome : Outcome
  route : Option TieredResult

def TieredFunction.observeSuccess (fn : TieredFunction) (result : Word) : TieredFunction :=
  { fn with feedback := fn.feedback.observeResult result }

def TieredFunction.observeException (fn : TieredFunction) : TieredFunction :=
  { fn with feedback := fn.feedback.observeException }

def TieredFunction.observeBailout (fn : TieredFunction) : TieredFunction :=
  { fn with feedback := fn.feedback.observeBailout }

def TieredFunction.invalidateOptimized (fn : TieredFunction) : TieredFunction :=
  { fn with optimized := none }

def fallbackInterpreter (env : Env) (ir : Function) (fn : TieredFunction) (c : CodeCache)
    (events : List CacheEvent) (arguments : List Word) : Invoked :=
  match irExecute env ir arguments with
  | .ok v => ⟨fn.observeSuccess v, c, events, .ok v, some .interpreted⟩
  | .status .exception => ⟨fn.observeException, c, events, .status .exception, none⟩
  | outcome => ⟨fn, c, events, outcome, none⟩

def invokeBaseline (env : Env) (ir : Function) (fn : TieredFunction) (c : CodeCache)
    (events : List CacheEvent) (arguments : List Word) (answer : Outcome)
    (route : TieredResult) : Invoked :=
  match answer with
  | .ok v => ⟨fn.observeSuccess v, c, events, .ok v, some route⟩
  | .status .bailout => fallbackInterpreter env ir fn.observeBailout c events arguments
  | .status .exception => ⟨fn.observeException, c, events, .status .exception, none⟩
  | outcome => ⟨fn, c, events, outcome, none⟩

def TieredFunction.invokeLower (fn : TieredFunction) (env : Env) (ir : Function) (c : CodeCache)
    (answers : Answers) (arguments : List Word) : Invoked :=
  let (c, native) := c.lookup fn.cacheKey
  match native with
  | some native =>
    invokeBaseline env ir fn c [] arguments (answers.invoke native arguments) .baselineNative
  | none =>
    if !fn.compilationAttempted ∧ fn.callCount ≥ fn.compileThreshold then
      let fn := { fn with compilationAttempted := true }
      match c.compile fn.cacheKey answers.compiler answers.registered with
      | (c, events, .ok native) =>
        invokeBaseline env ir fn c events arguments (answers.invoke native arguments)
          .baselineCompiled
      | (c, events, .error .unsupported) => fallbackInterpreter env ir fn c events arguments
      | (c, events, .error status) => ⟨fn, c, events, .status status, none⟩
    else fallbackInterpreter env ir fn c [] arguments

def TieredFunction.invokeOptimized (fn : TieredFunction) (env : Env) (ir : Function)
    (c : CodeCache) (arguments : List Word) (answer : Outcome) (route : TieredResult)
    (below : TieredFunction → Invoked) : Invoked :=
  match answer with
  | .ok v => ⟨fn.observeSuccess v, c, [], .ok v, some route⟩
  | .status .exception => ⟨fn.observeException, c, [], .status .exception, none⟩
  | _ => below fn.observeBailout.invalidateOptimized

def TieredFunction.invokeOptimizing (fn : TieredFunction) (env : Env) (ir : Function)
    (c : CodeCache) (answers : Answers) (arguments : List Word) : Invoked :=
  if !fn.optimizationAttempted ∧
      evaluateOptimization fn.feedback fn.optimizationPolicy = .eligible then
    let fn := { fn with optimizationAttempted := true }
    match answers.optimizing with
    | .ok native =>
      { fn with optimized := some native }.invokeOptimized env ir c arguments
        (answers.invoke native arguments) .optimizedCompiled
        fun fn => fn.invokeLower env ir c answers arguments
    | .error .unsupported =>
      { fn with optimized := none }.invokeLower env ir c answers arguments
    | .error status => ⟨{ fn with optimized := none }, c, [], .status status, none⟩
  else fn.invokeLower env ir c answers arguments

def TieredFunction.observeCall (fn : TieredFunction) (arguments : List Word) : TieredFunction :=
  let feedback := if fn.feedback.argumentCount = 0 then .init arguments.length else fn.feedback
  { fn with
    callCount := countUp fn.callCount
    feedback := feedback.observeCall arguments }

def TieredFunction.invoke (fn : TieredFunction) (env : Env) (ir : Function) (c : CodeCache)
    (answers : Answers) (arguments : List Word) : Invoked :=
  if fn.cacheKey = 0 then ⟨fn, c, [], .status .invalidArgument, none⟩
  else
    let fn := fn.observeCall arguments
    match fn.optimized with
    | some native =>
      fn.invokeOptimized env ir c arguments (answers.invoke native arguments) .optimizedNative
        fun fn => fn.invokeOptimizing env ir c answers arguments
    | none => fn.invokeOptimizing env ir c answers arguments

end TurboJS.Runtime
