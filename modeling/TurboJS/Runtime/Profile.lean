import TurboJS.Runtime.FailClosed

namespace TurboJS.Runtime
open IR Foundation

/-! The profile of a tiered function over a run of calls. -/

structure TierCall where
  env : Env
  ir : Function
  cache : CodeCache
  answers : Answers
  arguments : List Word

def TieredFunction.call (fn : TieredFunction) (k : TierCall) : Invoked :=
  fn.invoke k.env k.ir k.cache k.answers k.arguments

def TieredFunction.after (fn : TieredFunction) (calls : List TierCall) : TieredFunction :=
  calls.foldl (fun fn k => (fn.call k).function) fn

def Outcome.value : Outcome → List Word
  | .ok v => [v]
  | _ => []

def TieredFunction.results (fn : TieredFunction) : List TierCall → List Word
  | [] => []
  | k :: calls => Outcome.value (fn.call k).outcome ++ (fn.call k).function.results calls

def TieredFunction.gained (count : FeedbackVector → Nat) (fn : TieredFunction) :
    List TierCall → Nat
  | [] => 0
  | k :: calls =>
    (count (fn.call k).function.feedback - count (fn.observeCall k.arguments).feedback) +
      (fn.call k).function.gained count calls

def classesOf (ws : List Word) : BitVec 32 :=
  (if ws.any fun w => classifyInteger w = feedbackInt32 then feedbackInt32 else 0) |||
    if ws.any fun w => classifyInteger w = feedbackInt64 then feedbackInt64 else 0

def passed (calls : List TierCall) (i : Nat) : List Word := calls.map fun k => k.arguments.getD i 0

def OneClass (ws : List Word) : Prop :=
  ws ≠ [] ∧ ∀ w ∈ ws, ∀ w' ∈ ws, classifyInteger w = classifyInteger w'

/-- The policy lets a call optimize the function, by what the calls before it and the arguments
have shown. -/
def TieredFunction.MeetsPolicy (fn : TieredFunction) (before : List TierCall) (k : TierCall) :
    Prop :=
  fn.optimizationPolicy.minimumExecutions ≤ min (before.length + 1) (2 ^ 32 - 1) ∧
  fn.gained FeedbackVector.bailoutCount before ≤ fn.optimizationPolicy.maximumBailouts ∧
  fn.gained FeedbackVector.exceptionCount before ≤ fn.optimizationPolicy.maximumExceptions ∧
  (fn.optimizationPolicy.requireStableArguments = true →
    ∀ i, i < min k.arguments.length feedbackMaxArguments → OneClass (passed (before ++ [k]) i)) ∧
  (fn.optimizationPolicy.requireStableResult = true → OneClass (fn.results before))

structure FeedbackSlot.Records (slot : FeedbackSlot) (ws : List Word) : Prop where
  types : slot.observedTypes = classesOf ws
  observations : slot.observations = min ws.length (2 ^ 32 - 1)

/-- The profile after the calls counts every one of them, and the function was optimized at the
first call that the policy allowed. -/
structure TieredFunction.Profiled (fn : TieredFunction) (arity : Nat) (calls : List TierCall) :
    Prop where
  executions : (fn.after calls).feedback.executionCount = min calls.length (2 ^ 32 - 1)
  arguments : ∀ i, i < min arity feedbackMaxArguments →
    ((fn.after calls).feedback.arguments i).Records (passed calls i)
  result : (fn.after calls).feedback.result.Records (fn.results calls)
  attempts : ∀ before k after, calls = before ++ k :: after →
    ((fn.after before).optimizes k.arguments = true ↔ fn.MeetsPolicy before k ∧
      ∀ earlier k' rest, before = earlier ++ k' :: rest → ¬ fn.MeetsPolicy earlier k')

structure CallSettled (fn : TieredFunction) (r : Invoked) : Prop where
  cacheKey : r.function.cacheKey = fn.cacheKey
  policy : r.function.optimizationPolicy = fn.optimizationPolicy
  arguments : r.function.feedback.arguments = fn.feedback.arguments
  argumentCount : r.function.feedback.argumentCount = fn.feedback.argumentCount
  executionCount : r.function.feedback.executionCount = fn.feedback.executionCount
  bailouts : fn.feedback.bailoutCount ≤ r.function.feedback.bailoutCount
  exceptions : fn.feedback.exceptionCount ≤ r.function.feedback.exceptionCount
  result : r.function.feedback.result =
    (Outcome.value r.outcome).foldl (fun s v => s.observe (classifyInteger v)) fn.feedback.result

section

variable {fn fn' : TieredFunction} {env : Env} {ir : Function} {c : CodeCache} {k : TierCall}
  {answers : Answers} {arguments ws : List Word} {events : List CacheEvent} {r : Invoked}
  {calls : List TierCall} {arity n : Nat} {slot : FeedbackSlot} {w : Word}

theorem countUp_min (n : Nat) : countUp (min n (2 ^ 32 - 1)) = min (n + 1) (2 ^ 32 - 1) := by
  unfold countUp
  split <;> omega

theorem le_countUp (n : Nat) : n ≤ countUp n := by
  unfold countUp
  split <;> omega

theorem classifyInteger_cases (w : Word) :
    classifyInteger w = feedbackInt32 ∨ classifyInteger w = feedbackInt64 := by
  unfold classifyInteger
  split
  · exact .inl rfl
  · exact .inr rfl

theorem classesOf_append (ws : List Word) (w : Word) :
    classesOf (ws ++ [w]) = classesOf ws ||| classifyInteger w := by
  unfold classesOf
  rw [List.any_append, List.any_append]
  rcases classifyInteger_cases w with h | h
  · have hne : ¬ feedbackInt32 = feedbackInt64 := by decide
    simp only [List.any_cons, h, List.any_nil, decide_true, Bool.or_true, Bool.or_false, hne,
      decide_false, if_true]
    split <;> split <;> decide
  · have hne : ¬ feedbackInt64 = feedbackInt32 := by decide
    simp only [List.any_cons, h, List.any_nil, decide_true, Bool.or_true, Bool.or_false, hne,
      decide_false, if_true]
    split <;> split <;> decide

theorem FeedbackSlot.Records.empty : ({} : FeedbackSlot).Records [] := ⟨rfl, rfl⟩

theorem FeedbackSlot.Records.observe (h : slot.Records ws) (w : Word) :
    (slot.observe (classifyInteger w)).Records (ws ++ [w]) := by
  have hne : classifyInteger w ≠ 0 := by
    rcases classifyInteger_cases w with h | h <;> rw [h] <;> decide
  unfold FeedbackSlot.observe
  rw [if_neg hne]
  refine ⟨?_, ?_⟩
  · rw [classesOf_append, h.types]
  · show countUp slot.observations = _
    rw [h.observations, countUp_min, List.length_append, List.length_singleton]

theorem FeedbackSlot.Records.observeAll (h : slot.Records ws) (more : List Word) :
    (more.foldl (fun s v => s.observe (classifyInteger v)) slot).Records (ws ++ more) := by
  induction more generalizing slot ws with
  | nil => rwa [List.append_nil]
  | cons w more ih =>
    have := ih (h.observe w)
    rwa [List.append_assoc] at this

theorem FeedbackSlot.Records.stable_iff (h : slot.Records ws) :
    slot.isStable = true ↔ OneClass ws := by
  unfold FeedbackSlot.isStable OneClass
  rw [h.types, h.observations, decide_eq_true_eq]
  have hlen : min ws.length (2 ^ 32 - 1) ≠ 0 ↔ ws ≠ [] := by
    rw [← List.length_pos_iff]
    omega
  rw [hlen]
  refine and_congr_right fun _ => ?_
  have hany (x : BitVec 32) : (ws.any fun w => classifyInteger w = x) = true ↔
      ∃ w ∈ ws, classifyInteger w = x := by simp
  constructor
  · intro hone w hw w' hw'
    by_contra hne
    have hboth : classesOf ws = feedbackInt32 ||| feedbackInt64 := by
      unfold classesOf
      rcases classifyInteger_cases w with h1 | h1 <;> rcases classifyInteger_cases w' with h2 | h2
      · exact absurd (h1.trans h2.symm) hne
      · rw [if_pos ((hany _).mpr ⟨w, hw, h1⟩), if_pos ((hany _).mpr ⟨w', hw', h2⟩)]
      · rw [if_pos ((hany _).mpr ⟨w', hw', h2⟩), if_pos ((hany _).mpr ⟨w, hw, h1⟩)]
      · exact absurd (h1.trans h2.symm) hne
    rw [hboth] at hone
    exact absurd hone (by decide)
  · intro hsame
    unfold classesOf
    by_cases h1 : (ws.any fun w => classifyInteger w = feedbackInt32) = true
    · by_cases h2 : (ws.any fun w => classifyInteger w = feedbackInt64) = true
      · obtain ⟨w, hw, hc⟩ := (hany _).mp h1
        obtain ⟨w', hw', hc'⟩ := (hany _).mp h2
        have := hsame w hw w' hw'
        rw [hc, hc'] at this
        cases this
      · rw [if_pos h1, if_neg h2]
        decide
    · rw [if_neg h1]
      split <;> decide

theorem settled_interpreter (env : Env) (ir : Function) (fn : TieredFunction) (c : CodeCache)
    (events : List CacheEvent) (arguments : List Word) :
    CallSettled fn (fallbackInterpreter env ir fn c events arguments) := by
  unfold fallbackInterpreter
  generalize irExecute env ir arguments = outcome
  rcases outcome with v | s | _
  · exact ⟨rfl, rfl, rfl, rfl, rfl, Nat.le_refl _, Nat.le_refl _, rfl⟩
  · have hsame : CallSettled fn ⟨fn, c, events, .status s, none⟩ :=
      ⟨rfl, rfl, rfl, rfl, rfl, Nat.le_refl _, Nat.le_refl _, rfl⟩
    cases s with
    | exception => exact ⟨rfl, rfl, rfl, rfl, rfl, Nat.le_refl _, le_countUp _, rfl⟩
    | _ => exact hsame
  · exact ⟨rfl, rfl, rfl, rfl, rfl, Nat.le_refl _, Nat.le_refl _, rfl⟩

structure Steps (fn fn' : TieredFunction) : Prop where
  cacheKey : fn'.cacheKey = fn.cacheKey
  policy : fn'.optimizationPolicy = fn.optimizationPolicy
  arguments : fn'.feedback.arguments = fn.feedback.arguments
  argumentCount : fn'.feedback.argumentCount = fn.feedback.argumentCount
  executionCount : fn'.feedback.executionCount = fn.feedback.executionCount
  bailouts : fn.feedback.bailoutCount ≤ fn'.feedback.bailoutCount
  exceptions : fn.feedback.exceptionCount ≤ fn'.feedback.exceptionCount
  result : fn'.feedback.result = fn.feedback.result

theorem Steps.settled (h : Steps fn fn') (hr : CallSettled fn' r) : CallSettled fn r where
  cacheKey := hr.cacheKey.trans h.cacheKey
  policy := hr.policy.trans h.policy
  arguments := hr.arguments.trans h.arguments
  argumentCount := hr.argumentCount.trans h.argumentCount
  executionCount := hr.executionCount.trans h.executionCount
  bailouts := h.bailouts.trans hr.bailouts
  exceptions := h.exceptions.trans hr.exceptions
  result := by rw [hr.result, h.result]

theorem Steps.bailout (fn : TieredFunction) : Steps fn fn.observeBailout :=
  ⟨rfl, rfl, rfl, rfl, rfl, le_countUp _, Nat.le_refl _, rfl⟩

theorem Steps.compilationAttempted (fn : TieredFunction) :
    Steps fn { fn with compilationAttempted := true } :=
  ⟨rfl, rfl, rfl, rfl, rfl, Nat.le_refl _, Nat.le_refl _, rfl⟩

theorem settled_status (fn : TieredFunction) (c : CodeCache) (events : List CacheEvent)
    (s : Status) : CallSettled fn ⟨fn, c, events, .status s, none⟩ :=
  ⟨rfl, rfl, rfl, rfl, rfl, Nat.le_refl _, Nat.le_refl _, rfl⟩

theorem settled_baseline (env : Env) (ir : Function) (fn : TieredFunction) (c : CodeCache)
    (events : List CacheEvent) (arguments : List Word) (answer : Outcome) (route : TieredResult) :
    CallSettled fn (invokeBaseline env ir fn c events arguments answer route) := by
  unfold invokeBaseline
  rcases answer with v | s | _
  · exact ⟨rfl, rfl, rfl, rfl, rfl, Nat.le_refl _, Nat.le_refl _, rfl⟩
  · cases s with
    | bailout => exact (Steps.bailout fn).settled (settled_interpreter env ir _ c events arguments)
    | exception => exact ⟨rfl, rfl, rfl, rfl, rfl, Nat.le_refl _, le_countUp _, rfl⟩
    | _ => exact settled_status fn c events _
  · exact ⟨rfl, rfl, rfl, rfl, rfl, Nat.le_refl _, Nat.le_refl _, rfl⟩

theorem settled_lower (fn : TieredFunction) (env : Env) (ir : Function) (c : CodeCache)
    (answers : Answers) (arguments : List Word) :
    CallSettled fn (fn.invokeLower env ir c answers arguments) := by
  unfold TieredFunction.invokeLower
  generalize c.lookup fn.cacheKey = looked
  obtain ⟨c, native⟩ := looked
  cases native with
  | some native => exact settled_baseline env ir fn c [] arguments _ _
  | none =>
    dsimp only
    split
    · generalize c.compile fn.cacheKey answers.compiler answers.registered = compiled
      obtain ⟨c', events, result⟩ := compiled
      refine (Steps.compilationAttempted fn).settled ?_
      cases result with
      | ok native => exact settled_baseline env ir _ c' events arguments _ _
      | error status =>
        cases status with
        | unsupported => exact settled_interpreter env ir _ c' events arguments
        | _ => exact settled_status _ c' events _
    · exact settled_interpreter env ir fn c [] arguments

theorem settled_optimized (fn : TieredFunction) (env : Env) (ir : Function) (c : CodeCache)
    (arguments : List Word) (answer : Outcome) (route : TieredResult)
    (below : TieredFunction → Invoked) (h : ∀ fn, CallSettled fn (below fn)) :
    CallSettled fn (fn.invokeOptimized env ir c arguments answer route below) := by
  have hstep : Steps fn fn.observeBailout.invalidateOptimized :=
    ⟨rfl, rfl, rfl, rfl, rfl, le_countUp _, Nat.le_refl _, rfl⟩
  have hbelow : CallSettled fn (below fn.observeBailout.invalidateOptimized) := hstep.settled (h _)
  unfold TieredFunction.invokeOptimized
  rcases answer with v | s | _
  · exact ⟨rfl, rfl, rfl, rfl, rfl, Nat.le_refl _, Nat.le_refl _, rfl⟩
  · cases s with
    | exception => exact ⟨rfl, rfl, rfl, rfl, rfl, Nat.le_refl _, le_countUp _, rfl⟩
    | _ => exact hbelow
  · exact hbelow

theorem settled_optimizing (fn : TieredFunction) (env : Env) (ir : Function) (c : CodeCache)
    (answers : Answers) (arguments : List Word) :
    CallSettled fn (fn.invokeOptimizing env ir c answers arguments) := by
  unfold TieredFunction.invokeOptimizing
  split
  · dsimp only
    cases answers.optimizing with
    | ok native =>
      have hstep : Steps fn
          { fn with optimizationAttempted := true, optimized := some native } :=
        ⟨rfl, rfl, rfl, rfl, rfl, Nat.le_refl _, Nat.le_refl _, rfl⟩
      refine hstep.settled ?_
      exact settled_optimized _ env ir c arguments _ _ _ fun fn =>
        settled_lower fn env ir c answers arguments
    | error status =>
      have hstep : Steps fn { fn with optimizationAttempted := true, optimized := none } :=
        ⟨rfl, rfl, rfl, rfl, rfl, Nat.le_refl _, Nat.le_refl _, rfl⟩
      refine hstep.settled ?_
      cases status with
      | unsupported => exact settled_lower _ env ir c answers arguments
      | _ => exact settled_status _ c [] _
  · exact settled_lower fn env ir c answers arguments

theorem call_settled (hkey : fn.cacheKey ≠ 0) (k : TierCall) :
    CallSettled (fn.observeCall k.arguments) (fn.call k) := by
  unfold TieredFunction.call TieredFunction.invoke
  rw [if_neg hkey]
  dsimp only
  split
  · exact settled_optimized _ k.env k.ir k.cache k.arguments _ _ _ fun fn =>
      settled_optimizing fn k.env k.ir k.cache k.answers k.arguments
  · exact settled_optimizing _ k.env k.ir k.cache k.answers k.arguments

theorem lower_sameCode (fn : TieredFunction) (env : Env) (ir : Function) (c : CodeCache)
    (answers : Answers) (arguments : List Word) :
    SameCode fn (fn.invokeLower env ir c answers arguments).function := by
  unfold TieredFunction.invokeLower
  generalize c.lookup fn.cacheKey = looked
  obtain ⟨c, native⟩ := looked
  cases native with
  | some native => exact (invokeBaseline_keeps env ir fn c [] arguments _ _).1
  | none =>
    dsimp only
    split
    · generalize c.compile fn.cacheKey answers.compiler answers.registered = compiled
      obtain ⟨c', events, result⟩ := compiled
      have hattempt : SameCode fn { fn with compilationAttempted := true } := ⟨rfl, rfl, rfl⟩
      cases result with
      | ok native => exact hattempt.trans (invokeBaseline_keeps env ir _ c' events arguments _ _).1
      | error status =>
        cases status with
        | unsupported =>
          exact hattempt.trans (fallbackInterpreter_keeps env ir _ c' events arguments).1
        | _ => exact hattempt
    · exact (fallbackInterpreter_keeps env ir fn c [] arguments).1

def TieredFunction.Guarded (fn : TieredFunction) : Prop :=
  fn.optimizationAttempted = false → fn.optimized = none

theorem optimized_attempted (fn : TieredFunction) (env : Env) (ir : Function) (c : CodeCache)
    (arguments : List Word) (answer : Outcome) (route : TieredResult)
    (below : TieredFunction → Invoked)
    (h : (below fn.observeBailout.invalidateOptimized).function.optimizationAttempted =
      fn.optimizationAttempted) :
    (fn.invokeOptimized env ir c arguments answer route below).function.optimizationAttempted =
      fn.optimizationAttempted := by
  unfold TieredFunction.invokeOptimized
  rcases answer with v | s | _
  · rfl
  · cases s with
    | exception => rfl
    | _ => exact h
  · exact h

/-- The first attempt of a function is its last. -/
theorem call_attempted (hkey : fn.cacheKey ≠ 0) (hg : fn.Guarded) (k : TierCall) :
    (fn.call k).function.optimizationAttempted =
      (fn.optimizationAttempted || fn.optimizes k.arguments) ∧ (fn.call k).function.Guarded := by
  unfold TieredFunction.call TieredFunction.invoke
  rw [if_neg hkey]
  dsimp only
  set fn₁ := fn.observeCall k.arguments with hfn
  have hlower (fn' : TieredFunction) := lower_sameCode fn' k.env k.ir k.cache k.answers k.arguments
  cases ha : fn.optimizationAttempted with
  | true =>
    have hattempted (fn' : TieredFunction) (h : fn'.optimizationAttempted = true) :
        (fn'.invokeOptimizing k.env k.ir k.cache k.answers
          k.arguments).function.optimizationAttempted = true := by
      rw [invokeOptimizing_attempted h, (hlower fn').optimizationAttempted, h]
    have hdone (r : Invoked) (h : r.function.optimizationAttempted = true) :
        r.function.optimizationAttempted = (true || fn.optimizes k.arguments) ∧
          r.function.Guarded := by
      refine ⟨h, ?_⟩
      intro hno
      rw [h] at hno
      cases hno
    apply hdone
    split
    · rw [optimized_attempted]
      · exact ha
      · exact (hattempted fn₁.observeBailout.invalidateOptimized ha).trans ha.symm
    · exact hattempted fn₁ ha
  | false =>
    have hnone : fn₁.optimized = none := hg ha
    have heligible : fn.optimizes k.arguments = decide
        (evaluateOptimization fn₁.feedback fn₁.optimizationPolicy = .eligible) := by
      simp [TieredFunction.optimizes, hg ha, ha, hfn, TieredFunction.observeCall]
    rw [hnone, heligible]
    dsimp only
    unfold TieredFunction.invokeOptimizing
    by_cases he : evaluateOptimization fn₁.feedback fn₁.optimizationPolicy = .eligible
    · have hfirst : fn₁.optimizationAttempted = false := ha
      rw [if_pos ⟨by rw [hfirst]; rfl, he⟩, decide_eq_true he]
      dsimp only
      have hdone (r : Invoked) (h : r.function.optimizationAttempted = true) :
          r.function.optimizationAttempted = (false || true) ∧ r.function.Guarded := by
        refine ⟨h, ?_⟩
        intro hno
        rw [h] at hno
        cases hno
      apply hdone
      cases k.answers.optimizing with
      | ok native =>
        refine optimized_attempted _ _ _ _ _ _ _ _ ?_
        rw [(hlower _).optimizationAttempted]
        rfl
      | error status =>
        cases status with
        | unsupported =>
          exact (hlower _).optimizationAttempted
        | _ => rfl
    · rw [if_neg fun h => he h.2, decide_eq_false he]
      refine ⟨(hlower fn₁).optimizationAttempted.trans ha, ?_⟩
      intro _
      exact (hlower fn₁).optimized.trans hnone

theorem after_snoc (fn : TieredFunction) (calls : List TierCall) (k : TierCall) :
    fn.after (calls ++ [k]) = ((fn.after calls).call k).function := by
  simp [TieredFunction.after]

theorem results_append (fn : TieredFunction) (calls : List TierCall) (k : TierCall) :
    fn.results (calls ++ [k]) =
      fn.results calls ++ Outcome.value ((fn.after calls).call k).outcome := by
  induction calls generalizing fn with
  | nil => simp [TieredFunction.results, TieredFunction.after]
  | cons k' calls ih =>
    rw [List.cons_append, TieredFunction.results, TieredFunction.results, ih, List.append_assoc]
    rfl

theorem gained_append (count : FeedbackVector → Nat) (fn : TieredFunction)
    (calls : List TierCall) (k : TierCall) : fn.gained count (calls ++ [k]) =
      fn.gained count calls + (count ((fn.after calls).call k).function.feedback -
        count ((fn.after calls).observeCall k.arguments).feedback) := by
  induction calls generalizing fn with
  | nil => simp [TieredFunction.gained, TieredFunction.after]
  | cons k' calls ih =>
    rw [List.cons_append, TieredFunction.gained, TieredFunction.gained, ih, Nat.add_assoc]
    rfl

theorem passed_append (calls : List TierCall) (k : TierCall) (i : Nat) :
    passed (calls ++ [k]) i = passed calls i ++ [k.arguments.getD i 0] := by
  simp [passed]

structure Kept (fn : TieredFunction) (arity : Nat) (calls : List TierCall) : Prop where
  cacheKey : (fn.after calls).cacheKey = fn.cacheKey
  policy : (fn.after calls).optimizationPolicy = fn.optimizationPolicy
  guarded : (fn.after calls).Guarded
  argumentCount : (fn.after calls).feedback.argumentCount =
    if calls = [] then 0 else min arity feedbackMaxArguments
  executions : (fn.after calls).feedback.executionCount = min calls.length (2 ^ 32 - 1)
  arguments : ∀ i, i < min arity feedbackMaxArguments →
    ((fn.after calls).feedback.arguments i).Records (passed calls i)
  result : (fn.after calls).feedback.result.Records (fn.results calls)
  bailouts : (fn.after calls).feedback.bailoutCount = fn.gained FeedbackVector.bailoutCount calls
  exceptions : (fn.after calls).feedback.exceptionCount =
    fn.gained FeedbackVector.exceptionCount calls
  attempted : (fn.after calls).optimizationAttempted = true ↔
    ∃ before k after, calls = before ++ k :: after ∧ fn.MeetsPolicy before k

structure Begun (fn : TieredFunction) (arity : Nat) (calls : List TierCall) (k : TierCall)
    (v : FeedbackVector) : Prop where
  argumentCount : v.argumentCount = min arity feedbackMaxArguments
  executions : v.executionCount = min (calls.length + 1) (2 ^ 32 - 1)
  arguments : ∀ i, i < min arity feedbackMaxArguments →
    (v.arguments i).Records (passed (calls ++ [k]) i)
  result : v.result.Records (fn.results calls)
  bailouts : v.bailoutCount = fn.gained FeedbackVector.bailoutCount calls
  exceptions : v.exceptionCount = fn.gained FeedbackVector.exceptionCount calls

theorem observeCall_begun {v : FeedbackVector} (hk : k.arguments.length = arity)
    (hcount : v.argumentCount = min arity feedbackMaxArguments)
    (hexec : v.executionCount = min calls.length (2 ^ 32 - 1))
    (hargs : ∀ i, i < min arity feedbackMaxArguments → (v.arguments i).Records (passed calls i))
    (hresult : v.result.Records (fn.results calls))
    (hb : v.bailoutCount = fn.gained FeedbackVector.bailoutCount calls)
    (he : v.exceptionCount = fn.gained FeedbackVector.exceptionCount calls) :
    Begun fn arity calls k (v.observeCall k.arguments) := by
  refine ⟨hcount, ?_, ?_, hresult, hb, he⟩
  · show countUp v.executionCount = _
    rw [hexec, countUp_min]
  · intro i hi
    show (if i < min k.arguments.length v.argumentCount then _ else _ : FeedbackSlot).Records _
    rw [if_pos (by omega), passed_append]
    exact (hargs i hi).observe _

theorem Kept.begins (h : Kept fn arity calls) (hk : k.arguments.length = arity)
    (hroom : arity < 65536 ∨ feedbackMaxArguments ≤ arity % 65536)
    (hfirst : calls = [] ∨ arity ≠ 0) :
    Begun fn arity calls k ((fn.after calls).observeCall k.arguments).feedback := by
  have hcount := h.argumentCount
  by_cases hnil : calls = []
  · subst hnil
    rw [if_pos rfl] at hcount
    have hstart : ((fn.after []).observeCall k.arguments).feedback =
        (FeedbackVector.init k.arguments.length).observeCall k.arguments := by
      show (if (fn.after []).feedback.argumentCount = 0 then _ else _ :
        FeedbackVector).observeCall _ = _
      rw [if_pos hcount]
    rw [hstart]
    refine observeCall_begun hk ?_ rfl (fun i _ => .empty) .empty rfl rfl
    show min (k.arguments.length % 65536) feedbackMaxArguments = _
    unfold feedbackMaxArguments at *
    omega
  · rw [if_neg hnil] at hcount
    have hne : (fn.after calls).feedback.argumentCount ≠ 0 := by
      rw [hcount]
      unfold feedbackMaxArguments
      have := hfirst.resolve_left hnil
      omega
    have hstart : ((fn.after calls).observeCall k.arguments).feedback =
        (fn.after calls).feedback.observeCall k.arguments := by
      show (if (fn.after calls).feedback.argumentCount = 0 then _ else _ :
        FeedbackVector).observeCall _ = _
      rw [if_neg hne]
    rw [hstart]
    exact observeCall_begun hk hcount h.executions h.arguments h.result h.bailouts h.exceptions

theorem Begun.eligible {v : FeedbackVector} (h : Begun fn arity calls k v)
    (hk : k.arguments.length = arity) :
    evaluateOptimization v fn.optimizationPolicy = .eligible ↔ fn.MeetsPolicy calls k := by
  have hargs : (List.range v.argumentCount).any (fun i => !(v.arguments i).isStable) = true ↔
      ¬ ∀ i, i < min arity feedbackMaxArguments → OneClass (passed (calls ++ [k]) i) := by
    rw [h.argumentCount]
    simp only [List.any_eq_true, List.mem_range, Bool.not_eq_true', not_forall]
    refine exists_congr fun i => ?_
    rw [exists_prop]
    refine and_congr_right fun hi => ?_
    rw [← (h.arguments i hi).stable_iff, Bool.not_eq_true]
  have hresult := h.result.stable_iff
  unfold evaluateOptimization TieredFunction.MeetsPolicy
  rw [if_neg (by rw [h.argumentCount]; omega), h.executions, h.bailouts, h.exceptions, hk]
  by_cases hcold : min (calls.length + 1) (2 ^ 32 - 1) < fn.optimizationPolicy.minimumExecutions
  · rw [if_pos hcold]
    exact iff_of_false (by decide) fun hm => absurd hm.1 (by omega)
  rw [if_neg hcold]
  by_cases hb : fn.gained FeedbackVector.bailoutCount calls > fn.optimizationPolicy.maximumBailouts
  · rw [if_pos hb]
    exact iff_of_false (by decide) fun hm => absurd hm.2.1 (by omega)
  rw [if_neg hb]
  by_cases he : fn.gained FeedbackVector.exceptionCount calls >
      fn.optimizationPolicy.maximumExceptions
  · rw [if_pos he]
    exact iff_of_false (by decide) fun hm => absurd hm.2.2.1 (by omega)
  rw [if_neg he]
  by_cases ha : fn.optimizationPolicy.requireStableArguments = true ∧
      (List.range v.argumentCount).any (fun i => !(v.arguments i).isStable) = true
  · rw [if_pos ha]
    exact iff_of_false (by decide) fun hm => hargs.mp ha.2 (hm.2.2.2.1 ha.1)
  rw [if_neg ha]
  by_cases hr : fn.optimizationPolicy.requireStableResult = true ∧ (!v.result.isStable) = true
  · rw [if_pos hr]
    refine iff_of_false (by decide) fun hm => ?_
    have hstable := hresult.mpr (hm.2.2.2.2 hr.1)
    rw [hstable] at hr
    cases hr.2
  rw [if_neg hr]
  refine iff_of_true rfl ⟨by omega, by omega, by omega, ?_, ?_⟩
  · intro hreq
    by_contra hno
    exact ha ⟨hreq, hargs.mpr hno⟩
  · intro hreq
    by_contra hno
    refine hr ⟨hreq, ?_⟩
    rw [Bool.not_eq_true', ← Bool.not_eq_true, hresult]
    exact hno

theorem Kept.optimizes_iff (h : Kept fn arity calls) (hk : k.arguments.length = arity)
    (hroom : arity < 65536 ∨ feedbackMaxArguments ≤ arity % 65536)
    (hfirst : calls = [] ∨ arity ≠ 0) :
    (fn.after calls).optimizes k.arguments = true ↔ fn.MeetsPolicy calls k ∧
      ∀ earlier k' rest, calls = earlier ++ k' :: rest → ¬ fn.MeetsPolicy earlier k' := by
  have hbegun := h.begins hk hroom hfirst
  have hearlier : (fn.after calls).optimizationAttempted = false ↔
      ∀ earlier k' rest, calls = earlier ++ k' :: rest → ¬ fn.MeetsPolicy earlier k' := by
    rw [← Bool.not_eq_true, h.attempted]
    simp only [not_exists, not_and]
  rw [← hearlier, ← hbegun.eligible hk]
  unfold TieredFunction.optimizes
  rw [decide_eq_true_eq, h.policy]
  constructor
  · rintro ⟨-, hattempted, heligible⟩
    exact ⟨heligible, hattempted⟩
  · rintro ⟨heligible, hattempted⟩
    exact ⟨h.guarded hattempted, hattempted, heligible⟩

/-- One more call. -/
theorem Kept.next (h : Kept fn arity calls) (hkey : fn.cacheKey ≠ 0)
    (hk : k.arguments.length = arity)
    (hroom : arity < 65536 ∨ feedbackMaxArguments ≤ arity % 65536)
    (hfirst : calls = [] ∨ arity ≠ 0) : Kept fn arity (calls ++ [k]) := by
  have hkey' : (fn.after calls).cacheKey ≠ 0 := by
    rw [h.cacheKey]
    exact hkey
  have hbegun := h.begins hk hroom hfirst
  have hsettled := call_settled hkey' k
  obtain ⟨hattempted, hguarded⟩ := call_attempted hkey' h.guarded k
  have hsplit (P : List TierCall → TierCall → Prop) :
      (∃ before k' after, calls ++ [k] = before ++ k' :: after ∧ P before k') ↔
        (∃ before k' after, calls = before ++ k' :: after ∧ P before k') ∨ P calls k := by
    constructor
    · rintro ⟨before, k', after, heq, hP⟩
      rcases List.eq_nil_or_concat after with rfl | ⟨rest, last, rfl⟩
      · obtain ⟨rfl, hlast⟩ := List.append_inj' heq rfl
        cases hlast
        exact .inr hP
      · rw [List.concat_eq_append, ← List.cons_append, ← List.append_assoc] at heq
        obtain ⟨rfl, -⟩ := List.append_inj' heq rfl
        exact .inl ⟨before, k', rest, rfl, hP⟩
    · rintro (⟨before, k', after, rfl, hP⟩ | hP)
      · exact ⟨before, k', after ++ [k], by simp, hP⟩
      · exact ⟨calls, k, [], rfl, hP⟩
  refine ⟨?_, ?_, ?_, ?_, ?_, ?_, ?_, ?_, ?_, ?_⟩
  all_goals rw [after_snoc]
  · rw [hsettled.cacheKey]
    exact h.cacheKey
  · rw [hsettled.policy]
    exact h.policy
  · exact hguarded
  · rw [hsettled.argumentCount, hbegun.argumentCount, if_neg (by simp)]
  · rw [hsettled.executionCount, hbegun.executions, List.length_append, List.length_singleton]
  · intro i hi
    rw [hsettled.arguments]
    exact hbegun.arguments i hi
  · rw [hsettled.result, results_append]
    exact hbegun.result.observeAll _
  · rw [gained_append]
    have hb := hbegun.bailouts
    have hle := hsettled.bailouts
    omega
  · rw [gained_append]
    have he := hbegun.exceptions
    have hle := hsettled.exceptions
    omega
  · rw [hattempted, hsplit fun before k' => fn.MeetsPolicy before k', Bool.or_eq_true,
      ← h.attempted, h.optimizes_iff hk hroom hfirst]
    constructor
    · rintro (hdone | ⟨hmeets, -⟩)
      · exact .inl hdone
      · exact .inr hmeets
    · rintro (hdone | hmeets)
      · exact .inl hdone
      · by_cases hdone : (fn.after calls).optimizationAttempted = true
        · exact .inl hdone
        · refine .inr ⟨hmeets, ?_⟩
          intro earlier k' rest heq hm
          exact hdone (h.attempted.mpr ⟨earlier, k', rest, heq, hm⟩)

theorem Kept.init (cacheKey : Word) (baselineThreshold optimizationThreshold : Nat)
    (policy : Option OptimizationPolicy) (arity : Nat) :
    Kept (.init cacheKey baselineThreshold optimizationThreshold policy) arity [] where
  cacheKey := rfl
  policy := rfl
  guarded := fun _ => rfl
  argumentCount := rfl
  executions := rfl
  arguments := fun _ _ => .empty
  result := .empty
  bailouts := rfl
  exceptions := rfl
  attempted := by
    refine iff_of_false (by intro h; cases h) ?_
    rintro ⟨before, k, after, heq, -⟩
    simp at heq

theorem Kept.run (h : Kept fn arity []) (hkey : fn.cacheKey ≠ 0)
    (hroom : arity < 65536 ∨ feedbackMaxArguments ≤ arity % 65536)
    (hzero : arity = 0 → calls.length ≤ 1) (hk : ∀ k ∈ calls, k.arguments.length = arity) :
    Kept fn arity calls := by
  induction calls using List.reverseRecOn with
  | nil => exact h
  | append_singleton calls k ih =>
    have hcalls : calls = [] ∨ arity ≠ 0 := by
      by_cases ha : arity = 0
      · have := hzero ha
        rw [List.length_append, List.length_singleton] at this
        exact .inl (List.length_eq_zero_iff.mp (by omega))
      · exact .inr ha
    refine (ih ?_ ?_).next hkey (hk k (by simp)) hroom hcalls
    · intro ha
      have := hzero ha
      rw [List.length_append, List.length_singleton] at this
      omega
    · exact fun k' hk' => hk k' (List.mem_append_left _ hk')

/-- The profile counts every call exactly when the function has a key, the number of arguments
fits the profile, and there is an argument or only one call. -/
theorem profile_counts_iff (cacheKey : Word) (baselineThreshold optimizationThreshold : Nat)
    (policy : Option OptimizationPolicy) (arity : Nat) (calls : List TierCall)
    (hk : ∀ k ∈ calls, k.arguments.length = arity) :
    let fn := TieredFunction.init cacheKey baselineThreshold optimizationThreshold policy
    (∀ before after, calls = before ++ after → fn.Profiled arity before) ↔
      calls = [] ∨ cacheKey ≠ 0 ∧ (arity = 0 → calls.length ≤ 1) ∧
        (arity < 65536 ∨ feedbackMaxArguments ≤ arity % 65536) := by
  intro fn
  have hinit : Kept fn arity [] :=
    .init cacheKey baselineThreshold optimizationThreshold policy arity
  constructor
  · intro h
    by_contra hno
    rw [not_or] at hno
    obtain ⟨hne, hno⟩ := hno
    obtain ⟨k, rest, rfl⟩ := List.exists_cons_of_ne_nil hne
    have hfirst := h [k] rest rfl
    have hlen : k.arguments.length = arity := hk k List.mem_cons_self
    by_cases hkey : cacheKey = 0
    · -- the call is rejected
      have hrejected : (fn.after [k]) = fn := by
        show (fn.invoke k.env k.ir k.cache k.answers k.arguments).function = fn
        unfold TieredFunction.invoke
        rw [if_pos (by exact hkey)]
      have hexec := hfirst.executions
      rw [hrejected] at hexec
      cases hexec
    have hsettled : CallSettled (fn.observeCall k.arguments) (fn.call k) := call_settled hkey k
    have hbegun : (fn.observeCall k.arguments).feedback =
        (FeedbackVector.init arity).observeCall k.arguments := by rw [← hlen]; rfl
    by_cases hroom : arity < 65536 ∨ feedbackMaxArguments ≤ arity % 65536
    · -- without arguments the second call sets the profile up again
      have hzero : arity = 0 ∧ 1 < (k :: rest).length := by
        by_contra hz
        refine hno ⟨hkey, ?_, hroom⟩
        intro ha
        by_contra hmany
        exact hz ⟨ha, by omega⟩
      obtain ⟨rfl, hmany⟩ := hzero
      obtain ⟨k', rest', rfl⟩ := List.exists_cons_of_ne_nil
        (l := rest) (by rintro rfl; simp at hmany)
      have hone : Kept fn 0 [k] := hinit.next hkey hlen hroom (.inl rfl)
      have hcount : (fn.after [k]).feedback.argumentCount = 0 := hone.argumentCount
      have hkey' : (fn.after [k]).cacheKey ≠ 0 := by
        rw [hone.cacheKey]
        exact hkey
      have hagain := (call_settled hkey' k').executionCount
      have hstart : ((fn.after [k]).observeCall k'.arguments).feedback.executionCount = 1 := by
        show countUp (if (fn.after [k]).feedback.argumentCount = 0 then _ else _ :
          FeedbackVector).executionCount = 1
        rw [if_pos hcount]
        rfl
      have hexec := (h [k, k'] rest' rfl).executions
      have htwo : (fn.after [k, k']).feedback.executionCount = 1 := hagain.trans hstart
      rw [htwo] at hexec
      cases hexec
    · -- the profile has fewer slots than the call has arguments
      have hslot : ((fn.after [k]).feedback.arguments (arity % 65536)) = {} := by
        show (fn.call k).function.feedback.arguments (arity % 65536) = {}
        rw [hsettled.arguments, hbegun]
        show (if arity % 65536 < min k.arguments.length (min (arity % 65536) feedbackMaxArguments)
          then _ else _ : FeedbackSlot) = {}
        rw [if_neg (by omega)]
        rfl
      have hrecords := (hfirst.arguments (arity % 65536) (by omega)).observations
      rw [hslot] at hrecords
      cases hrecords
  · rintro (rfl | ⟨hkey, hzero, hroom⟩) before after hsplit
    · obtain ⟨rfl, -⟩ := List.append_eq_nil_iff.mp hsplit.symm
      refine ⟨hinit.executions, hinit.arguments, hinit.result, ?_⟩
      intro before k after heq
      simp at heq
    · have hkept (earlier later : List TierCall) (hs : calls = earlier ++ later) :
          Kept fn arity earlier := by
        refine hinit.run hkey hroom ?_ ?_
        · intro ha
          have := hzero ha
          rw [hs, List.length_append] at this
          omega
        · intro k hm
          exact hk k (by rw [hs]; exact List.mem_append_left _ hm)
      have h := hkept before after hsplit
      refine ⟨h.executions, h.arguments, h.result, ?_⟩
      intro earlier k later heq
      have hs : calls = earlier ++ k :: (later ++ after) := by
        rw [hsplit, heq]
        simp
      refine (hkept earlier _ hs).optimizes_iff (hk k (by rw [hs]; simp)) hroom ?_
      by_cases ha : arity = 0
      · have := hzero ha
        rw [hs, List.length_append, List.length_cons] at this
        exact .inl (List.length_eq_zero_iff.mp (by omega))
      · exact .inr ha

end

def constantSeven : Function where
  instructions :=
    [{ opcode := .constantI64, destination := 0, immediate := 7 },
     { opcode := .returnI64, left := 0 }]
  registerCount := 1
  argumentCount := 0
  localCount := 0

def sevenCall : TierCall where
  env := Optimizing.integerEnv
  ir := constantSeven
  cache := (CodeCache.create 1 4096).get rfl
  answers := failingAnswers .unsupported .unsupported
  arguments := []

def sumCall : TierCall where
  env := Optimizing.integerEnv
  ir := Optimizing.binaryFunction .addI64
  cache := (CodeCache.create 1 4096).get rfl
  answers := failingAnswers .unsupported .unsupported
  arguments := [2, 3]

/-- Two calls of a sum are both counted. -/
theorem sum_is_profiled : (TieredFunction.init 8 100 2 none).Profiled 2 [sumCall, sumCall] := by
  refine (profile_counts_iff 8 100 2 none 2 [sumCall, sumCall] ?_).mpr (.inr ?_) _ [] rfl
  · intro k hk
    simp only [List.mem_cons, List.not_mem_nil, or_false, or_self] at hk
    rw [hk]
    rfl
  · exact ⟨by decide, by decide, by decide⟩

/-- Two calls without arguments are counted as one, and never get to the threshold. -/
theorem calls_without_arguments_are_lost :
    irExecute sevenCall.env sevenCall.ir [] = .ok 7 ∧
    ((TieredFunction.init 8 100 2 none).after [sevenCall, sevenCall]).feedback.executionCount = 1 ∧
    ¬ (TieredFunction.init 8 100 2 none).Profiled 0 [sevenCall, sevenCall] := by
  refine ⟨by decide +kernel, by decide +kernel, ?_⟩
  intro h
  have hexec := h.executions
  revert hexec
  decide +kernel

end TurboJS.Runtime
