import TurboJS.Runtime.Tiered
import TurboJS.Optimizing.Correct
import TurboJS.Foundation.Run

namespace TurboJS.Runtime
open IR Foundation

/-! A tiered function and its cache over a whole run, while others use the cache as well. -/

/-! ## Where the code of a key comes from -/

section

variable {c : CodeCache} {m : Word → Option NativeFunction} {key : Word} {f : NativeFunction}

theorem replayFrom_some {events : List CacheEvent} (h : replayFrom m events key = some f) :
    m key = some f ∨ .compiled key f ∈ events := by
  induction events using List.reverseRecOn with
  | nil => exact .inl h
  | append_singleton events e ih =>
    rw [replayFrom_append] at h
    have hearlier : replayFrom m events key = some f →
        m key = some f ∨ .compiled key f ∈ events ++ [e] := fun h =>
      (ih h).imp_right fun hmem => List.mem_append_left _ hmem
    cases e with
    | compiled k g =>
      by_cases hk : key = k
      · subst hk
        have hg : g = f := by simpa [replayFrom, CacheEvent.apply] using h
        subst hg
        exact .inr (by simp)
      · apply hearlier
        simpa [replayFrom, CacheEvent.apply, Function.update_of_ne hk] using h
    | removed k =>
      by_cases hk : key = k
      · subst hk
        simp [replayFrom, CacheEvent.apply] at h
      · apply hearlier
        simpa [replayFrom, CacheEvent.apply, Function.update_of_ne hk] using h

theorem removeSlot_compiles_nothing (c : CodeCache) (slot : Nat) :
    .compiled key f ∉ (c.removeSlot slot).2 := by
  rcases removeSlot_events c slot with he | he
  · rw [he]
    exact List.not_mem_nil
  · simp [he]

theorem makeRoom_compiles_nothing (key : Word) (f : NativeFunction) (codeSize fuel : Nat)
    (c : CodeCache) :
    .compiled key f ∉ (CodeCache.makeRoomFrom codeSize fuel c).2 := by
  induction fuel generalizing c with
  | zero => exact List.not_mem_nil
  | succ fuel ih =>
    unfold CodeCache.makeRoomFrom
    split
    · cases he : c.evictLru with
      | none => exact List.not_mem_nil
      | some r =>
        obtain ⟨slot, -, rfl⟩ := Option.map_eq_some_iff.mp he
        simp only [List.mem_append, not_or]
        exact ⟨removeSlot_compiles_nothing c slot, ih _⟩
    · exact List.not_mem_nil

theorem insert_compiles_nothing (key : Word) (f : NativeFunction) (c : CodeCache) (slot : Nat)
    (e : CacheEntry) (registered : Bool) : .compiled key f ∉ (c.insert slot e registered).2 := by
  unfold CodeCache.insert
  simp only
  split
  · exact List.not_mem_nil
  · exact removeSlot_compiles_nothing _ slot

theorem compiled_by_compile {k : Word} {compiler : Compiler} {registered : Bool}
    (h : .compiled key f ∈ (c.compile k compiler registered).2.1) :
    key = k ∧ compiler.result = .ok f := by
  unfold CodeCache.compile at h
  by_cases hk : k = 0
  · rw [if_pos hk] at h
    cases h
  rw [if_neg hk] at h
  cases hf : c.findLive k with
  | some slot =>
    rw [hf] at h
    cases h
  | none =>
    simp only [hf] at h
    cases hr : compiler.result with
    | error status =>
      rw [hr] at h
      cases h
    | ok native =>
      simp only [hr] at h
      split at h
      · cases h
      have hroom := makeRoom_compiles_nothing key f native.codeSize c.count c
      rw [← CodeCache.makeRoom] at hroom
      generalize c.makeRoom native.codeSize = room at *
      obtain ⟨c', evicted⟩ := room
      simp only at hroom h
      split at h
      · exact absurd h hroom
      cases hslot : c'.findSlot k true with
      | none =>
        rw [hslot] at h
        exact absurd h hroom
      | some slot =>
        simp only [hslot] at h
        have hins := insert_compiles_nothing key f c' slot
          (functionEntry c' (c'.entries slot) k native) registered
        split at h <;>
          simp only [List.mem_append, List.mem_cons, CacheEvent.compiled.injEq, hroom, hins,
            List.not_mem_nil, false_or, or_false] at h <;>
          exact ⟨h.1, by rw [h.2]⟩

theorem compiled_by_perform {op : CacheOp} (h : .compiled key f ∈ (c.perform op).2) :
    ∃ compiler registered, op = .compile key compiler registered ∧ compiler.result = .ok f := by
  cases op with
  | lookup k => cases h
  | compile k compiler registered =>
    obtain ⟨rfl, hr⟩ := compiled_by_compile h
    exact ⟨compiler, registered, rfl, hr⟩
  | storeContinuation k prologueCount native registered =>
    exfalso
    simp only [CodeCache.perform, CodeCache.storeContinuation] at h
    split at h
    · cases h
    cases hf : c.findContinuation k with
    | some slot =>
      rw [hf] at h
      cases h
    | none =>
      simp only [hf] at h
      split at h
      · cases h
      have hroom := makeRoom_compiles_nothing key f native.codeSize c.count c
      rw [← CodeCache.makeRoom] at hroom
      split at h
      · exact hroom h
      cases hslot : (c.makeRoom native.codeSize).1.firstFree with
      | none =>
        rw [hslot] at h
        exact hroom h
      | some slot =>
        simp only [hslot, List.mem_append, hroom, false_or] at h
        exact insert_compiles_nothing _ _ _ _ _ _ h
  | lookupContinuation k => cases h
  | attachEntryHandle k handle kind argumentCount targetIdentity => cases h
  | invalidate k =>
    exfalso
    simp only [CodeCache.perform, CodeCache.invalidate] at h
    split at h
    · cases h
    · cases hf : c.findSlot k false with
      | none =>
        rw [hf] at h
        cases h
      | some slot =>
        rw [hf] at h
        exact removeSlot_compiles_nothing c slot h
  | clear =>
    exfalso
    have hclear : .compiled key f ∉ (forUp c.slotCount clearSlot (c, [])).2 := by
      refine forUp_invariant (P := fun s : CodeCache × List CacheEvent => .compiled key f ∉ s.2)
        ?_ ?_
      · exact List.not_mem_nil
      intro i s _ hs
      simp only [clearSlot, List.mem_append, not_or]
      exact ⟨hs, removeSlot_compiles_nothing s.1 i⟩
    exact hclear h

theorem CodeCache.Valid.compile_ok (hv : c.Valid m) {compiler : Compiler} {registered : Bool}
    (h : (c.compile key compiler registered).2.2 = .ok f) :
    m key = some f ∨ compiler.result = .ok f := by
  unfold CodeCache.compile at h
  by_cases hk : key = 0
  · rw [if_pos hk] at h
    cases h
  rw [if_neg hk] at h
  have hfind := hv.findLive_spec hk
  cases hf : c.findLive key with
  | some slot =>
    rw [hf] at hfind
    simp only [hf, hfind.2.2.2.2.2] at h
    cases hm : m key with
    | none =>
      rw [hm] at h
      cases h
    | some g =>
      rw [hm] at h
      cases h
      exact .inl rfl
  | none =>
    simp only [hf] at h
    cases hr : compiler.result with
    | error status =>
      rw [hr] at h
      cases h
    | ok native =>
      simp only [hr] at h
      split at h
      · cases h
      generalize c.makeRoom native.codeSize = room at *
      obtain ⟨c', evicted⟩ := room
      simp only at h
      split at h
      · cases h
      cases hslot : c'.findSlot key true with
      | none =>
        rw [hslot] at h
        cases h
      | some slot =>
        simp only [hslot] at h
        split at h
        · exact .inr h
        · cases h

end

theorem fallbackInterpreter_outcome (env : Env) (ir : Function) (fn : TieredFunction)
    (c : CodeCache) (events : List CacheEvent) (arguments : List Word) :
    (fallbackInterpreter env ir fn c events arguments).outcome = irExecute env ir arguments := by
  unfold fallbackInterpreter
  generalize irExecute env ir arguments = outcome
  rcases outcome with v | s | _
  · rfl
  · cases s <;> rfl
  · rfl

structure SameCode (fn fn' : TieredFunction) : Prop where
  cacheKey : fn'.cacheKey = fn.cacheKey
  optimized : fn'.optimized = fn.optimized
  optimizationAttempted : fn'.optimizationAttempted = fn.optimizationAttempted

theorem SameCode.trans {fn fn' fn'' : TieredFunction} (h : SameCode fn fn')
    (h' : SameCode fn' fn'') : SameCode fn fn'' :=
  ⟨h'.1.trans h.1, h'.2.trans h.2, h'.3.trans h.3⟩

theorem observeBailout_same (fn : TieredFunction) : SameCode fn fn.observeBailout :=
  ⟨rfl, rfl, rfl⟩

theorem fallbackInterpreter_keeps (env : Env) (ir : Function) (fn : TieredFunction)
    (c : CodeCache) (events : List CacheEvent) (arguments : List Word) :
    SameCode fn (fallbackInterpreter env ir fn c events arguments).function ∧
      (fallbackInterpreter env ir fn c events arguments).cache = c := by
  unfold fallbackInterpreter
  generalize irExecute env ir arguments = outcome
  rcases outcome with v | s | _
  · exact ⟨⟨rfl, rfl, rfl⟩, rfl⟩
  · cases s <;> exact ⟨⟨rfl, rfl, rfl⟩, rfl⟩
  · exact ⟨⟨rfl, rfl, rfl⟩, rfl⟩

theorem invokeBaseline_keeps (env : Env) (ir : Function) (fn : TieredFunction) (c : CodeCache)
    (events : List CacheEvent) (arguments : List Word) (answer : Outcome) (route : TieredResult) :
    SameCode fn (invokeBaseline env ir fn c events arguments answer route).function ∧
      (invokeBaseline env ir fn c events arguments answer route).cache = c := by
  have hfall := fallbackInterpreter_keeps env ir fn.observeBailout c events arguments
  unfold invokeBaseline
  rcases answer with v | s | _
  · exact ⟨⟨rfl, rfl, rfl⟩, rfl⟩
  · cases s with
    | bailout => exact ⟨(observeBailout_same fn).trans hfall.1, hfall.2⟩
    | _ => exact ⟨⟨rfl, rfl, rfl⟩, rfl⟩
  · exact ⟨⟨rfl, rfl, rfl⟩, rfl⟩

/-- What is known of the compilers and of the code during a call: code that was compiled is
`good`, and `good` code gives the interpreter's result or a bailout. -/
structure Answers.Honest (answers : Answers) (good : NativeFunction → Prop) (env : Env)
    (ir : Function) (arguments : List Word) : Prop where
  optimizing : ∀ f, answers.optimizing = .ok f → good f
  baseline : ∀ f, answers.compiler.result = .ok f → good f
  agrees : ∀ f, good f → answers.invoke f arguments = irExecute env ir arguments ∨
    answers.invoke f arguments = .status .bailout

structure TieredFunction.Compiles (fn : TieredFunction) (c : CodeCache) : Prop where
  absent : (c.lookup fn.cacheKey).2 = none
  first : fn.compilationAttempted = false
  hot : fn.compileThreshold ≤ fn.callCount

def TieredFunction.baselineFailure (fn : TieredFunction) (c : CodeCache) (answers : Answers) :
    Option Status :=
  match ((c.lookup fn.cacheKey).1.compile fn.cacheKey answers.compiler answers.registered).2.2 with
  | .ok _ => none
  | .error status => some status

section

variable {good : NativeFunction → Prop} {env : Env} {ir : Function} {fn : TieredFunction}
  {c : CodeCache} {m : Word → Option NativeFunction} {answers : Answers} {arguments : List Word}

theorem invokeBaseline_outcome (fn : TieredFunction) (c : CodeCache) (events : List CacheEvent)
    (route : TieredResult) {answer : Outcome} {v : Word}
    (hanswer : answer = irExecute env ir arguments ∨ answer = .status .bailout)
    (hv : irExecute env ir arguments = .ok v) :
    (invokeBaseline env ir fn c events arguments answer route).outcome = .ok v := by
  rcases hanswer with rfl | rfl
  · rw [hv]
    rfl
  · rw [← hv]
    exact fallbackInterpreter_outcome ..

theorem invokeLower_outcome (hvalid : c.Valid m) (hgood : ∀ f, m fn.cacheKey = some f → good f)
    (hh : answers.Honest good env ir arguments) {v : Word}
    (hv : irExecute env ir arguments = .ok v) :
    (fn.invokeLower env ir c answers arguments).outcome = .ok v ↔
      (fn.Compiles c → ∀ s, fn.baselineFailure c answers = some s → s = .unsupported) := by
  obtain ⟨hvalid', hlookup⟩ := hvalid.lookup fn.cacheKey
  have hcompiles : fn.Compiles c ↔ (c.lookup fn.cacheKey).2 = none ∧
      fn.compilationAttempted = false ∧ fn.compileThreshold ≤ fn.callCount :=
    ⟨fun h => ⟨h.1, h.2, h.3⟩, fun h => ⟨h.1, h.2.1, h.2.2⟩⟩
  rw [hcompiles, TieredFunction.baselineFailure]
  unfold TieredFunction.invokeLower
  generalize c.lookup fn.cacheKey = found at *
  obtain ⟨c', native⟩ := found
  simp only at hvalid' hlookup ⊢
  cases native with
  | some native =>
    have hok := invokeBaseline_outcome fn c' [] .baselineNative
      (hh.agrees native (hgood native hlookup.symm)) hv
    simp [hok]
  | none =>
    simp only [Bool.not_eq_true', true_and, ge_iff_le]
    by_cases hfirst : fn.compilationAttempted = false ∧ fn.compileThreshold ≤ fn.callCount
    · rw [if_pos hfirst]
      simp only [hfirst, and_self, true_imp_iff]
      have hcompile : ∀ f, (c'.compile fn.cacheKey answers.compiler answers.registered).2.2 =
          .ok f → good f := fun f hf => by
        rcases hvalid'.compile_ok hf with h | h
        · exact hgood f h
        · exact hh.baseline f h
      generalize c'.compile fn.cacheKey answers.compiler answers.registered = compiled at *
      obtain ⟨c'', events, result⟩ := compiled
      cases result with
      | ok native =>
        have hok := invokeBaseline_outcome { fn with compilationAttempted := true } c'' events
          .baselineCompiled
          (hh.agrees native (hcompile native rfl)) hv
        simp [hok]
      | error status =>
        cases status with
        | unsupported => simp [fallbackInterpreter_outcome, hv]
        | _ => simp
    · rw [if_neg hfirst]
      simp [hfirst, fallbackInterpreter_outcome, hv]

theorem invokeLower_keeps (hvalid : c.Valid m) (hgood : ∀ f, m fn.cacheKey = some f → good f)
    (hh : answers.Honest good env ir arguments) :
    let r := fn.invokeLower env ir c answers arguments
    SameCode fn r.function ∧ ∃ m', r.cache.Valid m' ∧ ∀ f, m' fn.cacheKey = some f → good f := by
  obtain ⟨hvalid', -⟩ := hvalid.lookup fn.cacheKey
  unfold TieredFunction.invokeLower
  generalize c.lookup fn.cacheKey = found at *
  obtain ⟨c', native⟩ := found
  simp only at hvalid' ⊢
  cases native with
  | some native =>
    obtain ⟨hsame, hcache⟩ := invokeBaseline_keeps env ir fn c' [] arguments
      (answers.invoke native arguments) .baselineNative
    refine ⟨hsame, m, ?_, hgood⟩
    rw [hcache]
    exact hvalid'
  | none =>
    simp only
    split
    · have hcompiled := hvalid'.compile fn.cacheKey answers.compiler answers.registered
      have hcode : ∀ f, replayFrom m (c'.compile fn.cacheKey answers.compiler
          answers.registered).2.1 fn.cacheKey = some f → good f := by
        intro f hf
        rcases replayFrom_some hf with h | h
        · exact hgood f h
        · exact hh.baseline f (compiled_by_compile h).2
      generalize c'.compile fn.cacheKey answers.compiler answers.registered = compiled at *
      obtain ⟨c'', events, result⟩ := compiled
      have hattempt : SameCode fn { fn with compilationAttempted := true } := ⟨rfl, rfl, rfl⟩
      cases result with
      | ok native =>
        obtain ⟨hsame, hcache⟩ := invokeBaseline_keeps env ir
          { fn with compilationAttempted := true } c'' events arguments
          (answers.invoke native arguments) .baselineCompiled
        refine ⟨hattempt.trans hsame, _, ?_, hcode⟩
        simp only [hcache]
        exact hcompiled
      | error status =>
        cases status with
        | unsupported =>
          obtain ⟨hsame, hcache⟩ := fallbackInterpreter_keeps env ir
            { fn with compilationAttempted := true } c'' events arguments
          refine ⟨hattempt.trans hsame, _, ?_, hcode⟩
          simp only [hcache]
          exact hcompiled
        | _ => exact ⟨hattempt, _, hcompiled, hcode⟩
    · obtain ⟨hsame, hcache⟩ := fallbackInterpreter_keeps env ir fn c' [] arguments
      refine ⟨hsame, m, ?_, hgood⟩
      rw [hcache]
      exact hvalid'

def TieredFunction.optimizes (fn : TieredFunction) (arguments : List Word) : Bool :=
  fn.optimized = none ∧ fn.optimizationAttempted = false ∧
    evaluateOptimization (fn.observeCall arguments).feedback fn.optimizationPolicy = .eligible

def TieredFunction.optimizedAnswer (fn : TieredFunction) (answers : Answers)
    (arguments : List Word) : Option Outcome :=
  match fn.optimized with
  | some f => some (answers.invoke f arguments)
  | none =>
    if fn.optimizes arguments then answers.optimizing.toOption.map (answers.invoke · arguments)
    else none

/-- No compilation that the call makes fails with a status other than `unsupported`. -/
structure TieredFunction.FailsClosed (fn : TieredFunction) (c : CodeCache) (answers : Answers)
    (arguments : List Word) : Prop where
  optimizing : fn.optimizes arguments = true → ∀ s, answers.optimizing = .error s →
    s = .unsupported
  baseline : (∀ v, fn.optimizedAnswer answers arguments ≠ some (.ok v)) →
    (fn.observeCall arguments).Compiles c →
    ∀ s, (fn.observeCall arguments).baselineFailure c answers = some s → s = .unsupported

structure Intact (good : NativeFunction → Prop) (fn : TieredFunction) (c : CodeCache)
    (m : Word → Option NativeFunction) : Prop where
  optimized : ∀ f, fn.optimized = some f → good f ∧ fn.optimizationAttempted = true
  valid : c.Valid m
  baseline : ∀ f, m fn.cacheKey = some f → good f

theorem invokeOptimized_outcome {answer : Outcome} {v : Word} {route : TieredResult}
    {below : TieredFunction → Invoked}
    (hanswer : answer = irExecute env ir arguments ∨ answer = .status .bailout)
    (hv : irExecute env ir arguments = .ok v) :
    (fn.invokeOptimized env ir c arguments answer route below).outcome = .ok v ↔
      ((∀ w, answer ≠ .ok w) →
        (below fn.observeBailout.invalidateOptimized).outcome = .ok v) := by
  rcases hanswer with rfl | rfl
  · rw [hv]
    exact iff_of_true rfl fun h => absurd rfl (h v)
  · constructor
    · exact fun h _ => h
    · intro h
      apply h
      intro w hw
      cases hw

theorem invokeOptimizing_attempted (h : fn.optimizationAttempted = true) :
    fn.invokeOptimizing env ir c answers arguments = fn.invokeLower env ir c answers arguments := by
  unfold TieredFunction.invokeOptimizing
  rw [if_neg]
  simp [h]

structure SameBaseline (fn fn' : TieredFunction) : Prop where
  cacheKey : fn'.cacheKey = fn.cacheKey
  compilationAttempted : fn'.compilationAttempted = fn.compilationAttempted
  callCount : fn'.callCount = fn.callCount
  compileThreshold : fn'.compileThreshold = fn.compileThreshold

theorem SameBaseline.compiles {fn' : TieredFunction} (h : SameBaseline fn fn') :
    fn'.Compiles c ↔ fn.Compiles c := by
  constructor
  · rintro ⟨h1, h2, h3⟩
    rw [h.cacheKey] at h1
    rw [h.compilationAttempted] at h2
    rw [h.callCount, h.compileThreshold] at h3
    exact ⟨h1, h2, h3⟩
  · rintro ⟨h1, h2, h3⟩
    rw [← h.cacheKey] at h1
    rw [← h.compilationAttempted] at h2
    rw [← h.callCount, ← h.compileThreshold] at h3
    exact ⟨h1, h2, h3⟩

theorem SameBaseline.baselineFailure {fn' : TieredFunction} (h : SameBaseline fn fn') :
    fn'.baselineFailure c answers = fn.baselineFailure c answers := by
  simp only [TieredFunction.baselineFailure, h.cacheKey]

theorem SameBaseline.invokeLower_outcome {fn' : TieredFunction} (h : SameBaseline fn fn')
    (hvalid : c.Valid m) (hgood : ∀ f, m fn.cacheKey = some f → good f)
    (hh : answers.Honest good env ir arguments) {v : Word}
    (hv : irExecute env ir arguments = .ok v) :
    (fn'.invokeLower env ir c answers arguments).outcome = .ok v ↔
      (fn.Compiles c → ∀ s, fn.baselineFailure c answers = some s → s = .unsupported) := by
  have hgood' : ∀ f, m fn'.cacheKey = some f → good f := by
    rw [h.cacheKey]
    exact hgood
  rw [Runtime.invokeLower_outcome hvalid hgood' hh hv, h.compiles, h.baselineFailure]

theorem optimizes_iff (hopt : fn.optimized = none) : fn.optimizes arguments = true ↔
    (!(fn.observeCall arguments).optimizationAttempted) = true ∧
      evaluateOptimization (fn.observeCall arguments).feedback
        (fn.observeCall arguments).optimizationPolicy = .eligible := by
  have hattempted : (fn.observeCall arguments).optimizationAttempted =
      fn.optimizationAttempted := rfl
  have hpolicy : (fn.observeCall arguments).optimizationPolicy = fn.optimizationPolicy := rfl
  simp [TieredFunction.optimizes, hopt, hattempted, hpolicy]

/-- A call gives the interpreter's result exactly if its compilations fail closed. -/
theorem invoke_outcome (hi : Intact good fn c m) (hkey : fn.cacheKey ≠ 0)
    (hh : answers.Honest good env ir arguments) {v : Word}
    (hv : irExecute env ir arguments = .ok v) :
    (fn.invoke env ir c answers arguments).outcome = .ok v ↔
      fn.FailsClosed c answers arguments := by
  unfold TieredFunction.invoke
  rw [if_neg hkey]
  have hobserved : (fn.observeCall arguments).optimized = fn.optimized := rfl
  have hgood : ∀ f, m (fn.observeCall arguments).cacheKey = some f → good f := hi.baseline
  cases hopt : fn.optimized with
  | some native =>
    obtain ⟨hnative, hattempted⟩ := hi.optimized native hopt
    have hnot : fn.optimizes arguments = false := by simp [TieredFunction.optimizes, hopt]
    have hanswer : fn.optimizedAnswer answers arguments =
        some (answers.invoke native arguments) := by simp [TieredFunction.optimizedAnswer, hopt]
    have hbelow : SameBaseline (fn.observeCall arguments)
        (fn.observeCall arguments).observeBailout.invalidateOptimized := ⟨rfl, rfl, rfl, rfl⟩
    have hagain : (fn.observeCall arguments).observeBailout.invalidateOptimized.optimizationAttempted
        = true := hattempted
    simp only [hobserved, hopt]
    rw [invokeOptimized_outcome (hh.agrees native hnative) hv, invokeOptimizing_attempted hagain,
      hbelow.invokeLower_outcome hi.valid hgood hh hv]
    constructor
    · intro h
      refine ⟨fun h => absurd h (by simp [hnot]), ?_⟩
      simpa [hanswer] using h
    · rintro ⟨-, h⟩
      simpa [hanswer] using h
  | none =>
    simp only [hobserved, hopt]
    unfold TieredFunction.invokeOptimizing
    by_cases heligible : fn.optimizes arguments = true
    · rw [if_pos ((optimizes_iff hopt).mp heligible)]
      cases hresult : answers.optimizing with
      | ok native =>
        have hanswer : fn.optimizedAnswer answers arguments =
            some (answers.invoke native arguments) := by
          simp [TieredFunction.optimizedAnswer, hopt, heligible, hresult, Except.toOption]
        have hbelow : SameBaseline (fn.observeCall arguments)
            { fn.observeCall arguments with
              optimizationAttempted := true,
              optimized := some native }.observeBailout.invalidateOptimized :=
          ⟨rfl, rfl, rfl, rfl⟩
        simp only
        rw [invokeOptimized_outcome (hh.agrees native (hh.optimizing native hresult)) hv,
          hbelow.invokeLower_outcome hi.valid hgood hh hv]
        constructor
        · intro h
          refine ⟨fun _ s hs => ?_, ?_⟩
          · rw [hresult] at hs
            cases hs
          · simpa [hanswer] using h
        · rintro ⟨-, h⟩
          simpa [hanswer] using h
      | error status =>
        have hanswer : fn.optimizedAnswer answers arguments = none := by
          simp [TieredFunction.optimizedAnswer, hopt, heligible, hresult, Except.toOption]
        cases status with
        | unsupported =>
          have hbelow : SameBaseline (fn.observeCall arguments)
              { fn.observeCall arguments with
                optimizationAttempted := true, optimized := none } := ⟨rfl, rfl, rfl, rfl⟩
          simp only
          rw [hbelow.invokeLower_outcome hi.valid hgood hh hv]
          constructor
          · intro h
            refine ⟨fun _ s hs => ?_, fun _ => h⟩
            rw [hresult] at hs
            cases hs
            rfl
          · rintro ⟨-, h⟩
            exact h (by simp [hanswer])
        | _ =>
          refine iff_of_false (by simp) ?_
          rintro ⟨h, -⟩
          cases h heligible _ hresult
    · have hanswer : fn.optimizedAnswer answers arguments = none := by
        simp [TieredFunction.optimizedAnswer, hopt, heligible]
      rw [if_neg fun h => heligible ((optimizes_iff hopt).mpr h),
        invokeLower_outcome hi.valid hgood hh hv]
      constructor
      · intro h
        exact ⟨fun h => absurd h heligible, fun _ => h⟩
      · rintro ⟨-, h⟩
        exact h (by simp [hanswer])

def Invoked.Intact (r : Invoked) (good : NativeFunction → Prop) (key : Word) : Prop :=
  r.function.cacheKey = key ∧ ∃ m, Runtime.Intact good r.function r.cache m

theorem Intact.invokeLower (hi : Intact good fn c m)
    (hh : answers.Honest good env ir arguments) :
    (fn.invokeLower env ir c answers arguments).Intact good fn.cacheKey := by
  obtain ⟨hsame, m', hvalid, hgood⟩ := invokeLower_keeps hi.valid hi.baseline hh
  refine ⟨hsame.cacheKey, m', ?_, hvalid, ?_⟩
  · intro f hf
    rw [hsame.optimized] at hf
    rw [hsame.optimizationAttempted]
    exact hi.optimized f hf
  · rw [hsame.cacheKey]
    exact hgood

theorem Intact.invokeOptimized (hi : Intact good fn c m) (answer : Outcome) (route : TieredResult)
    {below : TieredFunction → Invoked}
    (hbelow : (below fn.observeBailout.invalidateOptimized).Intact good fn.cacheKey) :
    (fn.invokeOptimized env ir c arguments answer route below).Intact good fn.cacheKey := by
  have hdone : ∀ fn' : TieredFunction, SameCode fn fn' → Intact good fn' c m := by
    intro fn' hsame
    refine ⟨?_, hi.valid, ?_⟩
    · rw [hsame.optimized, hsame.optimizationAttempted]
      exact hi.optimized
    · rw [hsame.cacheKey]
      exact hi.baseline
  rcases answer with v | s | _
  · exact ⟨rfl, m, hdone (fn.observeSuccess v) ⟨rfl, rfl, rfl⟩⟩
  · cases s with
    | exception => exact ⟨rfl, m, hdone fn.observeException ⟨rfl, rfl, rfl⟩⟩
    | _ => exact hbelow
  · exact hbelow

theorem Intact.invokeOptimizing (hi : Intact good fn c m)
    (hh : answers.Honest good env ir arguments) :
    (fn.invokeOptimizing env ir c answers arguments).Intact good fn.cacheKey := by
  have hnone : Intact good { fn with optimizationAttempted := true, optimized := none } c m :=
    ⟨fun f hf => (by cases hf), hi.valid, hi.baseline⟩
  unfold TieredFunction.invokeOptimizing
  split
  · cases hresult : answers.optimizing with
    | ok native =>
      have hsome : Intact good
          { fn with optimizationAttempted := true, optimized := some native } c m := by
        refine ⟨?_, hi.valid, hi.baseline⟩
        intro f hf
        cases hf
        exact ⟨hh.optimizing native hresult, rfl⟩
      have hbelow : Intact good
          { fn with optimizationAttempted := true,
                    optimized := some native }.observeBailout.invalidateOptimized c m :=
        ⟨fun f hf => (by cases hf), hi.valid, hi.baseline⟩
      exact hsome.invokeOptimized _ _ (hbelow.invokeLower hh)
    | error status =>
      cases status with
      | unsupported => exact hnone.invokeLower hh
      | _ => exact ⟨rfl, m, hnone⟩
  · exact hi.invokeLower hh

theorem Intact.invoke (hi : Intact good fn c m) (hh : answers.Honest good env ir arguments) :
    (fn.invoke env ir c answers arguments).Intact good fn.cacheKey := by
  have hobserved : Intact good (fn.observeCall arguments) c m :=
    ⟨hi.optimized, hi.valid, hi.baseline⟩
  unfold TieredFunction.invoke
  split
  · exact ⟨rfl, m, hi⟩
  cases hopt : (fn.observeCall arguments).optimized with
  | some native =>
    have hbelow : Intact good (fn.observeCall arguments).observeBailout.invalidateOptimized c m :=
      ⟨fun f hf => (by cases hf), hi.valid, hi.baseline⟩
    simp only [hopt]
    exact hobserved.invokeOptimized _ _ (hbelow.invokeOptimizing hh)
  | none =>
    simp only [hopt]
    exact hobserved.invokeOptimizing hh

theorem Intact.perform (hi : Intact good fn c m) {op : CacheOp}
    (hop : ∀ compiler registered f, op = .compile fn.cacheKey compiler registered →
      compiler.result = .ok f → good f) :
    Intact good fn (c.perform op).1 (replayFrom m (c.perform op).2) := by
  refine ⟨hi.optimized, hi.valid.perform op, ?_⟩
  intro f hf
  rcases replayFrom_some hf with h | h
  · exact hi.baseline f h
  · obtain ⟨compiler, registered, hcompile, hresult⟩ := compiled_by_perform h
    exact hop compiler registered f hcompile hresult

end

inductive TieredStep where
  | call (env : Env) (answers : Answers) (arguments : List Word)
  | other (op : CacheOp)

def tieredStep (ir : Function) (s : TieredFunction × CodeCache) :
    TieredStep → TieredFunction × CodeCache
  | .call env answers arguments =>
    let r := s.1.invoke env ir s.2 answers arguments
    (r.function, r.cache)
  | .other op => (s.1, (s.2.perform op).1)

/-- Whatever code comes from a compiler for the function is `good`. -/
def TieredStep.Honest (good : NativeFunction → Prop) (ir : Function) (key : Word) :
    TieredStep → Prop
  | .call env answers arguments => answers.Honest good env ir arguments
  | .other op => ∀ compiler registered f, op = .compile key compiler registered →
      compiler.result = .ok f → good f

def ReturnsInterpreted (ir : Function) (s : TieredFunction × CodeCache) : TieredStep → Prop
  | .call env answers arguments => ∀ v, irExecute env ir arguments = .ok v →
      (s.1.invoke env ir s.2 answers arguments).outcome = .ok v
  | .other _ => True

def CompilesClosed (ir : Function) (s : TieredFunction × CodeCache) : TieredStep → Prop
  | .call env answers arguments => ∀ v, irExecute env ir arguments = .ok v →
      s.1.FailsClosed s.2 answers arguments
  | .other _ => True

/-- Tiering fails closed along a run, for all its calls, exactly if no compilation that a call of
the run makes fails with a status other than `unsupported`. -/
theorem tiered_run_fails_closed_iff {key : Word} (hkey : key ≠ 0)
    {maximumEntries maximumCodeBytes : Nat} {c : CodeCache}
    (hcreate : CodeCache.create maximumEntries maximumCodeBytes = some c)
    (baselineThreshold optimizationThreshold : Nat) (policy : Option OptimizationPolicy)
    (ir : Function) (good : NativeFunction → Prop) (steps : List TieredStep)
    (hsteps : ∀ step ∈ steps, step.Honest good ir key) :
    let fn := TieredFunction.init key baselineThreshold optimizationThreshold policy
    Along (tieredStep ir) (ReturnsInterpreted ir) (fn, c) steps ↔
      Along (tieredStep ir) (CompilesClosed ir) (fn, c) steps := by
  intro fn
  refine along_iff (I := fun s => s.1.cacheKey = key ∧ ∃ m, Intact good s.1 s.2 m)
    (K := TieredStep.Honest good ir key) ?_ ?_ ?_ hsteps
  · rintro ⟨fn, c⟩ step ⟨rfl, m, hi⟩ hstep
    cases step with
    | call env answers arguments => exact hi.invoke hstep
    | other op => exact ⟨rfl, _, hi.perform hstep⟩
  · rintro ⟨fn, c⟩ step ⟨rfl, m, hi⟩ hstep
    cases step with
    | call env answers arguments =>
      exact forall_congr' fun v => imp_congr_right fun hv => invoke_outcome hi hkey hstep hv
    | other op => exact Iff.rfl
  · refine ⟨rfl, fun _ => none, ?_, create_valid hcreate, ?_⟩
    · intro f hf
      cases hf
    · intro f hf
      cases hf

def failingAnswers (optimizing baseline : Status) : Answers :=
  ⟨.error optimizing, ⟨.error baseline, none⟩, true, fun _ _ => .status .bailout⟩

theorem failingAnswers_honest (optimizing baseline : Status) (env : Env) (ir : Function)
    (arguments : List Word) :
    (failingAnswers optimizing baseline).Honest (fun _ => True) env ir arguments := by
  refine ⟨?_, ?_, ?_⟩
  · intro f hf
    cases hf
  · intro f hf
    trivial
  · intro f _
    exact .inr rfl

/-- A sum that is called twice is interpreted each time, as none of its tiers can be compiled. -/
theorem unsupported_sum_is_interpreted :
    ∃ c, CodeCache.create 1 4096 = some c ∧
      Along (tieredStep (Optimizing.binaryFunction .addI64))
        (ReturnsInterpreted (Optimizing.binaryFunction .addI64))
        (TieredFunction.init 8 1 2 none, c)
        [.call Optimizing.integerEnv (failingAnswers .unsupported .unsupported) [2, 3],
          .call Optimizing.integerEnv (failingAnswers .unsupported .unsupported) [2, 3]] := by
  obtain ⟨c, hc⟩ : ∃ c, CodeCache.create 1 4096 = some c := ⟨_, rfl⟩
  refine ⟨c, hc, ?_⟩
  have hkey : (8 : Word) ≠ 0 := by decide
  refine (tiered_run_fails_closed_iff hkey hc 1 2 none _ (fun _ => True) _ ?_).mpr ?_
  · intro step hstep
    simp only [List.mem_cons, List.not_mem_nil, or_false, or_self] at hstep
    subst hstep
    exact failingAnswers_honest ..
  · cases hc
    refine ⟨fun _ _ => ⟨?_, ?_⟩, fun _ _ => ⟨?_, ?_⟩, trivial⟩
    · intro _ s hs
      cases hs
      rfl
    · intro _ _ s hs
      cases hs
      rfl
    · intro _ s hs
      cases hs
      rfl
    -- the second call does not try the baseline compiler again
    · intro _ hcompiles
      exact absurd hcompiles.first (by decide +kernel)

/-- When the optimizing compiler is out of memory, or has no register left for a value, the call
fails with it. -/
theorem compiler_out_of_memory_fails_the_call :
    (irVerify (Optimizing.binaryFunction .addI64)).status = .ok ∧
    irExecute Optimizing.integerEnv (Optimizing.binaryFunction .addI64) [2, 3] = .ok 5 ∧
    ∃ c, CodeCache.create 1 4096 = some c ∧
      (failingAnswers .outOfMemory .unsupported).Honest (fun _ => True) Optimizing.integerEnv
        (Optimizing.binaryFunction .addI64) [2, 3] ∧
      ¬ Along (tieredStep (Optimizing.binaryFunction .addI64))
        (ReturnsInterpreted (Optimizing.binaryFunction .addI64))
        (TieredFunction.init 8 100 2 none, c)
        [.call Optimizing.integerEnv (failingAnswers .outOfMemory .unsupported) [2, 3],
          .call Optimizing.integerEnv (failingAnswers .outOfMemory .unsupported) [2, 3]] := by
  refine ⟨by decide +kernel, by decide +kernel, _, rfl, failingAnswers_honest .., ?_⟩
  intro h
  have hsecond := h.2.1 5 (by decide +kernel)
  revert hsecond
  decide +kernel

end TurboJS.Runtime
