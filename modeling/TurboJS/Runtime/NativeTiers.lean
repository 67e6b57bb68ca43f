import TurboJS.Runtime.FailClosed
import TurboJS.Baseline.Optimized
import TurboJS.Frontend.LoweringSound

namespace TurboJS.Runtime
open IR Foundation Baseline Frontend Optimizing

/-! The tiers over the bytecode: what a call returns, whatever tier runs it, is the number that
the bytecode returns. -/

/-! ## Native code -/

/-- The native functions that the compilers made of an IR function: machine code of the function
itself, or of what the optimizing pipeline made of it. -/
structure NativeImage (ir : Function) where
  compiled : NativeFunction → Prop
  optimized : NativeFunction → Prop
  source : NativeFunction → Function
  code : NativeFunction → List Op
  baseline : ∀ n, compiled n → baselineCode (source n) = some (code n)
  small : ∀ n, compiled n → extent Op.size (code n) < 2 ^ 31
  itself : ∀ n, compiled n → ¬ optimized n → source n = ir ∧ WrittenBeforeRead ir
  pipeline : ∀ n, compiled n → optimized n → ArgumentsFirst ir.instructions ∧
    ∃ fuel feedback, optimizingPipeline fuel ir feedback = some (source n)

def nativeOutcome : NativeResult → Outcome
  | .invalidArgument => .status .invalidArgument
  | .ok v => .ok v
  | .bailout .. => .status .bailout

/-- What is known of a call: its arguments are int32, the bytecode computes with exact numbers on
them, the interpreter of the IR returns a value, which an optimized function keeps, and native
functions are run by the machine. -/
structure NativeCall {ir : Function} (image : NativeImage ir) (code : List UInt8)
    (answers : Answers) (w : World) (args : List Int) : Prop where
  words : w.arguments = args.map (BitVec.ofInt 64)
  int32 : ∀ x ∈ args, IsInt32 x
  exact : ∀ s, NumberRuns code args s → ExactAt code s
  returns : ∃ v, irExecute w.env ir w.arguments = .ok v
  optimizing : ∀ n, answers.optimizing = .ok n → image.compiled n
  baseline : ∀ n, answers.compiler.result = .ok n → image.compiled n
  comparable : ∀ n, image.compiled n → ¬ image.optimized n → ∀ s, Follows w ir .initial s →
    Comparable w ir s
  kept : ∀ n, image.compiled n → image.optimized n → KeepsResult w.env ir w.arguments
  answered : ∀ n, image.compiled n → ∃ m r, Enters m ∧
    Invokes w (image.source n) (image.code n) m r ∧
    answers.invoke n w.arguments = nativeOutcome r

def TieredStep.Native {ir : Function} (image : NativeImage ir) (code : List UInt8) (key : Word) :
    TieredStep → Prop
  | .call env answers arguments => ∃ w args, w.env = env ∧ w.arguments = arguments ∧
      NativeCall image code answers w args
  | .other op => ∀ compiler registered n, op = .compile key compiler registered →
      compiler.result = .ok n → image.compiled n

def ReturnsNumber (code : List UInt8) (ir : Function) (s : TieredFunction × CodeCache) :
    TieredStep → Prop
  | .call env answers arguments => ∃ args value, arguments = args.map (BitVec.ofInt 64) ∧
      (∀ x ∈ args, IsInt32 x) ∧ NumberReturns code args value ∧
      ∃ r, (s.1.invoke env ir s.2 answers arguments).outcome = .ok r ∧ Represents value r
  | .other _ => True

section

variable {w : World} {f ir : Function} {code : List Op} {m : Machine} {r : NativeResult}
  {image : NativeImage ir} {answers : Answers} {args : List Int}

theorem irExecute_accepts {v : Word} (h : irExecute w.env f w.arguments = .ok v) :
    f.argumentCount ≤ w.arguments.length ∧ (irVerify f).status = .ok := by
  unfold irExecute at h
  split at h
  · cases h
  · rename_i hargs
    split at h
    · cases h
    · rename_i hverified
      exact ⟨Nat.not_lt.mp hargs, Decidable.not_not.mp hverified⟩

/-- Where the interpreter returns a value, native code returns it or bails out. -/
theorem nativeOutcome_of_executes (hcode : baselineCode f = some code)
    (hsmall : extent Op.size code < 2 ^ 31) (hwritten : WrittenBeforeRead f)
    (hrun : ∀ s, Follows w f .initial s → Comparable w f s) (hm : Enters m)
    (hinvokes : Invokes w f code m r) {v : Word} (hv : irExecute w.env f w.arguments = .ok v) :
    nativeOutcome r = .ok v ∨ nativeOutcome r = .status .bailout := by
  obtain ⟨n, hends⟩ := ends_of_irExecute hv
  cases r with
  | invalidArgument =>
    cases hinvokes with
    | rejected hshort => exact absurd (irExecute_accepts hv).1 (Nat.not_le.mpr hshort)
    | ran _ _ hr =>
      simp only [nativeResult, Option.bind_eq_bind, Option.bind_eq_some_iff] at hr
      obtain ⟨_, -, hr⟩ := hr
      split at hr
      · cases hr
      · cases hr
  | ok u =>
    have hdef : ∀ s, Follows w f .initial s → Defined w f s :=
      fun s hs => (hrun s hs).defined hcode hwritten hs
    have hnative : NativeEnds w f code m (.returned u) := ⟨_, hinvokes, rfl⟩
    obtain ⟨-, s, e, hs, hend, hx⟩ := (nativeEnds_iff hcode hsmall hdef hm).mp hnative
    rcases reference_of_follows hcode hrun hs hend with ⟨k, hreference⟩ | hexcused
    · rw [← hx] at hreference
      cases hreference.unique hends
      exact .inl rfl
    · rw [← hx] at hexcused
      exact hexcused.elim
  | bailout => exact .inr rfl

theorem NativeCall.executes {bytes : List UInt8} (h : NativeCall image bytes answers w args)
    {n : NativeFunction} (hn : image.compiled n) {v : Word}
    (hv : irExecute w.env ir w.arguments = .ok v) :
    irExecute w.env (image.source n) w.arguments = .ok v ∧ WrittenBeforeRead (image.source n) ∧
      ∀ s, Follows w (image.source n) .initial s → Comparable w (image.source n) s := by
  by_cases ho : image.optimized n
  · obtain ⟨hfirst, fuel, feedback, hpipeline⟩ := image.pipeline n hn ho
    obtain ⟨hargs, hverified⟩ := irExecute_accepts hv
    obtain ⟨hplain, hwritten, -, hout⟩ := optimized_plain hverified hargs hfirst hpipeline
    have hjumps := (optimizingPipeline_straight w.env hverified hargs hfirst hpipeline).1
    have hkeeps := h.kept n hn ho
    rw [KeepsResult, ← irExecute_straight hverified hargs hfirst hjumps, hv] at hkeeps
    exact ⟨hout.trans hkeeps.symm, hwritten, plain_comparable hplain hout⟩
  · obtain ⟨hsource, hwritten⟩ := image.itself n hn ho
    rw [hsource]
    exact ⟨hv, hwritten, h.comparable n hn ho⟩

theorem NativeCall.honest {bytes : List UInt8} (h : NativeCall image bytes answers w args) :
    answers.Honest image.compiled w.env ir w.arguments := by
  refine ⟨h.optimizing, h.baseline, ?_⟩
  intro n hn
  obtain ⟨v, hv⟩ := h.returns
  obtain ⟨m, r, hm, hinvokes, hanswer⟩ := h.answered n hn
  obtain ⟨hsource, hwritten, hcomparable⟩ := h.executes hn hv
  rw [hanswer, hv]
  exact nativeOutcome_of_executes (image.baseline n hn) (image.small n hn) hwritten hcomparable hm
    hinvokes hsource

theorem TieredStep.Native.honest {bytes : List UInt8} {key : Word} {step : TieredStep}
    (h : step.Native image bytes key) : step.Honest image.compiled ir key := by
  cases step with
  | call env answers arguments =>
    obtain ⟨w, args, rfl, rfl, hcall⟩ := h
    exact hcall.honest
  | other op => exact h

theorem NativeCall.returnsNumber {info : EngineBytecodeInfo}
    (h : NativeCall image info.bytecode answers w args)
    (hf : engineBytecodeToIR info = .ok ir) (hmode : info.numericMode = .int32) {v : Word}
    (hv : irExecute w.env ir w.arguments = .ok v) :
    ∃ value, NumberReturns info.bytecode args value ∧ Represents value v := by
  obtain ⟨a, fin, ht⟩ := engineBytecodeToIR_ok hf
  obtain ⟨n, he⟩ := ends_of_irExecute hv
  have hcount : info.argumentCount ≤ args.length := by
    have hargs := (irExecute_accepts hv).1
    rwa [h.words, List.length_map, ht.arguments] at hargs
  have hm : Mirrors info .start .start .zero :=
    ⟨rfl, .nil, by simp [Lowering.start], fun _ _ => .inl rfl⟩
  have hlinked : Linked info a fin ir w.env w.arguments v n .start :=
    .falls ht.rounds rfl (fun _ => ht.analyzed.zero) hm he
  exact hlinked.returns ht hmode h.words h.int32 hcount h.exact (.refl _)

end

/-- `return 5`. -/
def returnFive : EngineBytecodeInfo where
  bytecode := [1, 5, 0, 0, 0, 40]
  localCount := 0
  stackSize := 1
  argumentCount := 0
  numericMode := .int32
  callResolver := none
  callableResolver := none
  methodPropertyResolver := none

theorem returnFive_exact (s : NumberState) (hs : NumberRuns returnFive.bytecode [] s) :
    ExactAt returnFive.bytecode s := by
  have hpush : operationAt returnFive.bytecode 0 = some (.pushI32 5, 5) := by decide +kernel
  have hret : operationAt returnFive.bytecode 5 = some (.ret, 6) := by decide +kernel
  intro o next ho
  rcases hs.first with rfl | ⟨t, ht, hs⟩
  · cases hpush.symm.trans ho
    trivial
  · simp only [numberStep, NumberState.start, hpush, Option.bind_eq_bind, Option.bind_some,
      numberExec, Option.some.injEq] at ht
    subst ht
    rcases hs.first with rfl | ⟨t, ht, -⟩
    · cases hret.symm.trans ho
      trivial
    · simp [numberStep, hret, numberExec] at ht

def fiveFunction : Function where
  instructions := [{ opcode := .constantI64, destination := 0, immediate := 5 },
    { opcode := .returnI64, left := 0, bytecodeOffset := 5 }]
  registerCount := 1
  argumentCount := 0
  localCount := 1

theorem fiveFunction_next : nativeNext (stillWorld []) fiveFunction .initial =
    some ⟨1, 0, Frame.zero.setRegister 0 5, {0}⟩ := by
  simp [nativeNext, effectAt, nativeEffect, pollsAt, isCallNative, divisionFaults, refEffect,
    IR.effect, fiveFunction, NativeState.initial, pollsAfter, writtenAfter, cellWrite]

theorem fiveFunction_end : nativeEnd (stillWorld []) fiveFunction
    ⟨1, 0, Frame.zero.setRegister 0 5, {0}⟩ = some (.returned 5) := by
  simp [nativeEnd, effectAt, nativeEffect, pollsAt, isCallNative, divisionFaults, refEffect,
    IR.effect, fiveFunction]

theorem fiveFunction_comparable (s : NativeState)
    (hs : Follows (stillWorld []) fiveFunction .initial s) :
    Comparable (stillWorld []) fiveFunction s := by
  rcases follows_pair fiveFunction_next fiveFunction_end hs with rfl | rfl
  all_goals
    refine ⟨by decide, ?_, ?_, ?_⟩
    · rintro i ⟨⟩
      rfl
    · rintro i ⟨⟩
      simp [divisionFaults]
    · rintro i site ⟨⟩ hcall
      simp [isCallNative] at hcall

def fiveAnswers : Answers :=
  ⟨.error .unsupported, ⟨.ok ⟨0, 64⟩, none⟩, true, fun _ _ => .ok 5⟩

end TurboJS.Runtime
