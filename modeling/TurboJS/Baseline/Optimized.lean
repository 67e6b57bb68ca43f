import TurboJS.Baseline.Implements
import TurboJS.Optimizing.Correct

namespace TurboJS.Baseline

open IR Foundation Optimizing

/-! The optimizing tier from the source function down to the machine. -/

def writtenBy (f : Function) (is : List Instruction) : Set Nat :=
  is.foldl (fun W i => writtenAfter f i W) ∅

/-- What the lowering has emitted is plain and reads what has been written, and a value is
mapped to a written register. -/
structure Threaded (f : Function) (s : Lowering) : Prop where
  plain : ∀ i ∈ s.instructions, isPlain i.opcode = true
  reads : ∀ k i, s.instructions[k]? = some i → ∀ c ∈ cellReads f i,
    c ∈ writtenBy f (s.instructions.take k)
  maps : ∀ id, s.map id ≠ noRegister → s.map id ∈ writtenBy f s.instructions

section

variable {w : World} {f out : Function} {code : List Op} {m : Machine} {s s' : Lowering}
  {i : Instruction} {v : Optimizing.Value} {k n c : Nat} {W : Set Nat} {fr : Frame}

theorem writtenBy_concat (is : List Instruction) :
    writtenBy f (is ++ [i]) = writtenAfter f i (writtenBy f is) := by
  simp [writtenBy]

theorem mem_writtenAfter (h : c ∈ W) : c ∈ writtenAfter f i W := by
  unfold writtenAfter
  split
  · exact Set.mem_insert_of_mem _ h
  · exact h

theorem Threaded.emit (h : Threaded f s) (hp : isPlain i.opcode = true)
    (hr : ∀ c ∈ cellReads f i, c ∈ writtenBy f s.instructions) {map : Nat → Nat}
    (hm : ∀ id, map id ≠ noRegister → map id ∈ writtenBy f (s.instructions ++ [i])) :
    Threaded f ⟨s.instructions ++ [i], n, map⟩ := by
  refine ⟨?_, ?_, hm⟩
  · intro j hj
    rcases List.mem_append.mp hj with hj | hj
    · exact h.plain j hj
    · rw [List.mem_singleton.mp hj]
      exact hp
  · intro k j hj
    rcases Nat.lt_trichotomy k s.instructions.length with hk | rfl | hk
    · rw [List.getElem?_append_left hk] at hj
      simp only [List.take_append_of_le_length (Nat.le_of_lt hk)]
      exact h.reads k j hj
    · simp only [List.getElem?_concat_length, Option.some.injEq] at hj
      subst hj
      simpa using hr
    · rw [List.getElem?_eq_none (by simp; omega)] at hj
      cases hj

theorem Threaded.define (h : Threaded f s) {id : Nat} (hd : s.define id i = some s')
    (hp : isPlain i.opcode = true) (hw : i.opcode ≠ .returnI64)
    (hr : ∀ c ∈ cellReads f i, c ∈ writtenBy f s.instructions) : Threaded f s' := by
  unfold Lowering.define at hd
  split at hd
  · cases hd
  · simp only [Option.some.injEq] at hd
    subst hd
    have hwrite : cellWrite f { i with destination := s.registerCount } =
        some s.registerCount := by
      unfold cellWrite
      cases ho : i.opcode <;> rw [ho] at hp hw <;> first
        | rfl
        | exact absurd rfl hw
        | cases hp
    refine h.emit (i := { i with destination := s.registerCount }) hp hr ?_
    intro id' hid
    rw [writtenBy_concat]
    by_cases he : id' = id
    · subst he
      simp [writtenAfter, hwrite]
    · rw [Function.update_of_ne he] at hid ⊢
      exact mem_writtenAfter (h.maps id' hid)

theorem Threaded.mapped (h : Threaded f s) (hm : s.mapped c = true) :
    s.map c ∈ writtenBy f s.instructions := by
  simp only [Lowering.mapped, Bool.and_eq_true, bne_iff_ne, ne_eq] at hm
  exact h.maps c hm.2

theorem Threaded.lowerValue (h : Threaded f s) (hl : lowerValue s v = some s') :
    Threaded f s' := by
  unfold Optimizing.lowerValue at hl
  split at hl
  · cases hl
    exact h
  · split at hl
    · exact h.define hl rfl (by simp) (by simp [cellReads])
    · exact h.define hl rfl (by simp) (by simp [cellReads])
    · split at hl
      · cases hl
      · rename_i hm
        have hleft := h.mapped (by simpa using hm)
        simp only [Option.some.injEq] at hl
        subst hl
        refine h.emit rfl (by simpa [cellReads] using hleft) ?_
        intro id hid
        rw [writtenBy_concat]
        exact mem_writtenAfter (h.maps id hid)
    · cases hop : loweredOpcode v.opcode with
      | none => simp [hop] at hl
      | some opcode =>
        simp only [hop] at hl
        split at hl
        · cases hl
        · rename_i hm
          simp only [Bool.or_eq_true, Bool.not_eq_true', not_or, Bool.not_eq_false] at hm
          have hleft := h.mapped hm.1
          have hright := h.mapped hm.2
          obtain ⟨hmap, hbin, hplain⟩ := loweredOpcode_cases hop
          refine h.define hl hplain ?_ ?_
          · intro ha
            change opcode = .returnI64 at ha
            rw [← hmap, ha] at hbin
            cases hbin
          · intro c hc
            have hreads : c = s.map v.left ∨ c = s.map v.right := by
              unfold cellReads at hc
              cases ho : opcode <;> rw [ho] at hplain <;> simp_all [isPlain]
            rcases hreads with rfl | rfl
            · exact hleft
            · exact hright

theorem lowerGraph_threaded {g : Graph} (h : lowerGraph g n = some out) :
    ∃ s, Threaded out s ∧ out.instructions = s.instructions ∧ out.argumentCount = n := by
  unfold lowerGraph at h
  split at h
  · cases h
  · simp only [Option.bind_eq_bind, Option.bind_eq_some_iff] at h
    obtain ⟨s, hs, h⟩ := h
    split at h
    · simp only [Option.some.injEq] at h
      have hstart : Threaded out {} := ⟨by simp, by simp, fun _ hid => absurd rfl hid⟩
      refine ⟨s, (Reach.of_foldlM hs).invariant hstart ?_, by rw [← h], by rw [← h]⟩
      intro s v s' hs _ hv
      exact hs.lowerValue hv
    · cases h

theorem plain_cases (hp : isPlain i.opcode = true) (fr : Frame) :
    (∀ t ∈ successors k i, t = k + 1) ∧ pollsAt k i = false ∧ isCallNative i = false ∧
      divisionFaults i fr = false := by
  unfold successors pollsAt isCallNative divisionFaults
  cases ho : i.opcode <;> rw [ho] at hp <;> first
    | (simp; done)
    | cases hp

theorem Threaded.writtenBeforeRead (h : Threaded f s) (hf : f.instructions = s.instructions) :
    WrittenBeforeRead f := by
  have hpath : ∀ k W, PathTo f k W → W = writtenBy f (f.instructions.take k) := by
    intro k W hk
    induction hk with
    | entry => rfl
    | @step k k' W i _ hi hs ih =>
      rw [(plain_cases (h.plain i (hf ▸ List.mem_of_getElem? hi)) .zero).1 k' hs,
        List.take_add_one, hi, ih]
      exact (writtenBy_concat _).symm
  intro k W i hk hi
  rw [hpath k W hk, hf]
  exact h.reads k i (hf ▸ hi)

theorem plain_effect (hp : ∀ i ∈ f.instructions, isPlain i.opcode = true)
    (hi : f.instructions[k]? = some i) :
    nativeEffect w f k i n fr = refEffect w.env f w.arguments i fr := by
  obtain ⟨-, hpolls, hcall, hdiv⟩ := plain_cases (k := k) (hp i (List.mem_of_getElem? hi)) fr
  exact nativeEffect_plain hpolls hcall hdiv

theorem plain_ends {word : Word} {a : NativeState}
    (hp : ∀ i ∈ f.instructions, isPlain i.opcode = true)
    (h : irExecute w.env f w.arguments = .ok word) (ha : Follows w f .initial a) :
    ∃ n, Ends w.env f w.arguments n a.frame a.pc (.returned word) := by
  refine Runs.keeps (P := fun a => ∃ n, Ends w.env f w.arguments n a.frame a.pc _) ?_ ha
    (ends_of_irExecute h)
  rintro a b ⟨n, hn⟩ hab
  obtain ⟨i, hi, heff⟩ := nativeNext_cases hab
  rw [plain_effect hp hi] at heff
  rcases heff with ⟨fr, he, rfl⟩ | ⟨t, fr, he, rfl⟩
  · obtain ⟨n, -, hn⟩ := hn.of_next hi he
    exact ⟨n, hn⟩
  · obtain ⟨n, -, hn⟩ := hn.of_goto hi he
    exact ⟨n, hn⟩

theorem plain_comparable {word : Word} (hp : ∀ i ∈ f.instructions, isPlain i.opcode = true)
    (h : irExecute w.env f w.arguments = .ok word) (a : NativeState)
    (ha : Follows w f .initial a) : Comparable w f a := by
  obtain ⟨n, hn⟩ := plain_ends hp h ha
  have hcases : ∀ i, f.instructions[a.pc]? = some i → _ :=
    fun i hi => plain_cases (k := a.pc) (hp i (List.mem_of_getElem? hi)) a.frame
  refine ⟨hn.inside, fun i hi => localsInBounds_plain (hp i (List.mem_of_getElem? hi)),
    fun i hi => (hcases i hi).2.2.2, ?_⟩
  intro i site hi hcall
  rw [(hcases i hi).2.2.1] at hcall
  cases hcall

/-- On plain code the machine is not behind the interpreter, and not ahead of it. -/
theorem plain_returns {word : Word} (hp : ∀ i ∈ f.instructions, isPlain i.opcode = true)
    (hwritten : WrittenBeforeRead f) (hargs : f.argumentCount ≤ w.arguments.length)
    (h : irExecute w.env f w.arguments = .ok word) (hcode : baselineCode f = some code)
    (hsmall : extent Op.size code < 2 ^ 31) (hm : Enters m) (x : Ending) :
    NativeEnds w f code m x ↔ x = .returned word := by
  have hcomparable := plain_comparable hp h
  have hlast : ∀ a e, Follows w f .initial a → nativeEnd w f a = some e →
      endingOf a e = .returned word := by
    intro a e ha he
    obtain ⟨n, hn⟩ := plain_ends hp h ha
    obtain ⟨i, hi, heff⟩ := nativeEnd_effect he
    have hhead := hn.head hi
    rw [plain_effect hp hi] at heff
    rw [heff] at hhead
    cases e <;> exact hhead.symm
  rw [nativeEnds_iff hcode hsmall
    (fun a ha => (hcomparable a ha).defined hcode hwritten ha) hm]
  constructor
  · rintro ⟨-, a, e, ha, he, rfl⟩
    exact hlast a e ha he
  · rintro rfl
    obtain ⟨n, hn⟩ := ends_of_irExecute h
    obtain ⟨a, e, ha, he, -⟩ := follows_of_reference (s := .initial) hcode hcomparable hn
    exact ⟨hargs, a, e, ha, he, (hlast a e ha he).symm⟩

theorem optimized_plain {fuel : Nat} {feedback : Option FeedbackVector}
    (hv : (irVerify f).status = .ok) (hn : f.argumentCount ≤ w.arguments.length)
    (ha : ArgumentsFirst f.instructions) (h : optimizingPipeline fuel f feedback = some out) :
    (∀ i ∈ out.instructions, isPlain i.opcode = true) ∧ WrittenBeforeRead out ∧
      out.argumentCount = f.argumentCount ∧
      irExecute w.env out w.arguments = .ok (translatedResult w.arguments f) := by
  have hreturns := (optimizingPipeline_straight w.env hv hn ha h).2
  obtain ⟨-, -, g, -, -, -, hlower, -⟩ := optimizingPipeline_stages h
  obtain ⟨s, hs, hsame, hcount⟩ := lowerGraph_threaded hlower
  exact ⟨hsame ▸ hs.plain, hs.writtenBeforeRead hsame, hcount,
    optimizingPipeline_returns w.env hv hn ha h hreturns⟩

/-- The machine returns the translated result, so it returns what the interpreter makes of the
source just where nothing was dropped that mattered. -/
theorem optimized_code_returns {fuel : Nat} {feedback : Option FeedbackVector}
    (hv : (irVerify f).status = .ok) (hn : f.argumentCount ≤ w.arguments.length)
    (ha : ArgumentsFirst f.instructions) (h : optimizingPipeline fuel f feedback = some out)
    (hcode : baselineCode out = some code) (hsmall : extent Op.size code < 2 ^ 31)
    (hm : Enters m) :
    (∀ x, NativeEnds w out code m x ↔ x = .returned (translatedResult w.arguments f)) ∧
      ((∀ x, NativeEnds w out code m (.returned x) ↔ irExecute w.env f w.arguments = .ok x) ↔
        KeepsResult w.env f w.arguments) := by
  obtain ⟨hplain, hwritten, hcount, hout⟩ := optimized_plain hv hn ha h
  have hends := plain_returns hplain hwritten (hcount ▸ hn) hout hcode hsmall hm
  refine ⟨hends, ?_⟩
  unfold KeepsResult
  simp only [hends, Ending.returned.injEq,
    irExecute_straight hv hn ha (optimizingPipeline_straight w.env hv hn ha h).1]
  constructor
  · intro hall
    exact (hall _).mp rfl
  · intro hkeeps x
    rw [hkeeps, Option.some.injEq, eq_comm]

end

theorem plain_sum_is_returned : ∃ out code, optimizingPipeline 4 (binaryFunction .addI64) none =
    some out ∧ baselineCode out = some code ∧
    ∀ x, NativeEnds (stillWorld [2, 3]) out code (freshMachine 9) x ↔ x = .returned 5 := by
  obtain ⟨out, h⟩ : ∃ out, optimizingPipeline 4 (binaryFunction .addI64) none = some out :=
    ⟨_, rfl⟩
  obtain ⟨code, hcode⟩ : ∃ code, baselineCode out = some code := by
    cases h
    exact Option.isSome_iff_exists.mp (by decide)
  have hsmall : extent Op.size code < 2 ^ 31 := by
    cases h
    exact baselineCode_small hcode (by decide)
  have ha : ArgumentsFirst (binaryFunction .addI64).instructions := by
    unfold ArgumentsFirst
    decide
  exact ⟨out, code, h, hcode, (optimized_code_returns (w := stillWorld [2, 3]) (by decide)
    (by decide) ha h hcode hsmall (freshMachine_enters 9)).1⟩

end TurboJS.Baseline
