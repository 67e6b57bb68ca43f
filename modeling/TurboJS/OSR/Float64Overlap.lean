import TurboJS.OSR.Float64Kernels

namespace TurboJS.OSR.Typed
open Foundation

/-! Float64Array kernels on views of one buffer, against their loops element by element. -/

def TransformRun.scalar (ops : Operations) (r : TransformRun) (bytes : Nat → Byte) : Nat → Byte :=
  ((r.loop ops).scalar r.layout.start (r.layout.count - r.layout.start) ((), bytes)).2

def scalarDenseArrayTransform (ops : Operations) (p : DenseProgram) (frame : List FrameValue)
    (bytes : Nat → Byte) : Option (Option (Nat → Byte)) :=
  (admitTransform ops p frame).map fun r => r.map fun r => r.scalar ops bytes

def TransformRun.Safe (cpu : Cpu) (r : TransformRun) : Prop :=
  cpu.vectors = false ∨ r.layout.count - r.layout.start < 8 ∨
    ∀ s ∈ r.sources, r.layout.dst ≤ s ∨ s + 8 * r.width cpu ≤ r.layout.dst

section

variable {cpu : Cpu} {ops ops' : Operations} {p : DenseProgram} {frame : List FrameValue}
  {r r' : TransformRun} {bytes : Nat → Byte}

theorem osrNumber_isSome (ops' : Operations) {v : FrameValue} {d : Double}
    (h : osrNumber ops v = some d) :
    ∃ d', osrNumber ops' v = some d' := by
  cases v with
  | int64 n => exact ⟨_, rfl⟩
  | float64 d => exact ⟨_, rfl⟩
  | _ => cases h

theorem numberAt_isSome (ops' : Operations) {index : Nat} {d : Double}
    (h : numberAt ops frame index = some d) :
    ∃ d', numberAt ops' frame index = some d' := by
  obtain ⟨v, hv, hd⟩ := Option.bind_eq_some_iff.mp h
  obtain ⟨d', hd'⟩ := osrNumber_isSome ops' hd
  exact ⟨d', Option.bind_eq_some_iff.mpr ⟨v, hv, hd'⟩⟩

theorem numberIf_isSome (ops' : Operations) {reads : Bool} {index : Nat} {d : Double}
    (h : numberIf ops frame reads index = some d) :
    ∃ d', numberIf ops' frame reads index = some d' := by
  cases reads with
  | false => exact ⟨zeroDouble, rfl⟩
  | true => exact numberAt_isSome ops' h

theorem admitTransform_layout (ops' : Operations)
    (h : admitTransform ops p frame = some (some r)) :
    ∃ r', admitTransform ops' p frame = some (some r') ∧ r'.mode = r.mode ∧
      r'.layout = r.layout := by
  obtain ⟨input, hinput, h⟩ := Option.bind_eq_some_iff.mp h
  obtain ⟨output, houtput, h⟩ := Option.bind_eq_some_iff.mp h
  obtain ⟨index, hindex, h⟩ := Option.bind_eq_some_iff.mp h
  obtain ⟨scale, hscale, h⟩ := Option.bind_eq_some_iff.mp h
  obtain ⟨offset, hoffset, h⟩ := Option.bind_eq_some_iff.mp h
  obtain ⟨inputB, hinputB, h⟩ := Option.bind_eq_some_iff.mp h
  obtain ⟨fill, hfill, h⟩ := Option.bind_eq_some_iff.mp h
  obtain ⟨scale', hscale'⟩ := numberIf_isSome ops' hscale
  obtain ⟨offset', hoffset'⟩ := numberIf_isSome ops' hoffset
  obtain ⟨fill', hfill'⟩ := numberIf_isSome ops' hfill
  simp only [admitTransform, hinput, houtput, hindex, Option.bind_eq_bind, Option.bind_some,
    hscale', hoffset', hinputB, hfill']
  split at h
  · cases h
  · rename_i hneg
    rw [if_neg hneg]
    split at h
    · obtain ⟨layout, hlayout, h⟩ := Option.bind_eq_some_iff.mp h
      cases h
      simp only [hlayout, Option.bind_some]
      exact ⟨_, rfl, rfl, rfl⟩
    · cases h

theorem width_pos (cpu : Cpu) (r : TransformRun) : 1 < r.width cpu := by
  unfold TransformRun.width
  split <;> decide

def projecting (mulFirst addFirst : Bool) : Operations where
  mul a b := if mulFirst then a else b
  add a b := if addFirst then a else b
  div a _ := a
  ofInt _ := zeroDouble
  toUint32 _ := 0
  finite _ := true
  isZero _ := false

theorem exists_copying {s : Nat} (hs : s ∈ r.sources) :
    ∃ ops, ∀ r' : TransformRun, r'.mode = r.mode → r'.layout = r.layout →
      ∀ i m, (r'.loop ops).value i m = loadElement m (s + 8 * i) := by
  cases hmode : r.mode with
  | fill => simp [TransformRun.sources, hmode] at hs
  | binaryAdd =>
    simp only [TransformRun.sources, hmode, List.mem_cons, List.not_mem_nil, or_false] at hs
    rcases hs with rfl | rfl
    · refine ⟨projecting true true, fun r' hmode' hlayout i m => ?_⟩
      rw [← hlayout]
      simp only [ElementLoop.value, TransformRun.loop, TransformRun.op, TransformRun.sources,
        hmode']
      rfl
    · refine ⟨projecting true false, fun r' hmode' hlayout i m => ?_⟩
      rw [← hlayout]
      simp only [ElementLoop.value, TransformRun.loop, TransformRun.op, TransformRun.sources,
        hmode']
      rfl
  | affine | inplaceAffine | copy =>
    simp only [TransformRun.sources, hmode, List.mem_cons, List.not_mem_nil, or_false] at hs
    subst hs
    refine ⟨projecting true true, fun r' hmode' hlayout i m => ?_⟩
    rw [← hlayout]
    simp only [ElementLoop.value, TransformRun.loop, TransformRun.op, TransformRun.sources, hmode']
    rfl

theorem TransformRun.run_eq_scalar (h : r.Safe cpu) :
    r.run cpu ops bytes = r.scalar ops bytes := by
  unfold TransformRun.run TransformRun.scalar
  by_cases hvector : cpu.vectors ∧ 8 ≤ r.layout.count - r.layout.start
  · have hahead : ¬ (r.loop ops).Ahead (r.width cpu) := by
      rintro ⟨s, hs, hbehind, hinside⟩
      rcases h with h | h | h
      · exact absurd hvector.1 (by simp [h])
      · omega
      · rcases h s hs with hle | hge
        · exact Nat.not_lt.mpr hle hbehind
        · exact Nat.not_lt.mpr hge hinside
    simp only [if_pos hvector, f64Kernel]
    exact congrArg Prod.snd
      (ElementLoop.blocks_rest_eq (ElementLoop.independent_of_not_ahead hahead) (by omega) _)
  · simp only [if_neg hvector]

theorem TransformRun.exists_run_ne (h : ¬ r.Safe cpu) :
    ∃ ops, ∀ r' : TransformRun, r'.mode = r.mode → r'.layout = r.layout →
      ∃ bytes, r'.run cpu ops bytes ≠ r'.scalar ops bytes := by
  simp only [TransformRun.Safe, not_or, not_forall, Bool.not_eq_false, Nat.not_lt,
    Nat.not_le] at h
  obtain ⟨hvectors, hcount, s, hs, hbehind, hinside⟩ := h
  obtain ⟨ops, hops⟩ := exists_copying hs
  refine ⟨ops, fun r' hmode hlayout => ?_⟩
  have hwidth : r'.width cpu = r.width cpu := by
    rw [TransformRun.width, hmode]
    rfl
  have hfour : r.width cpu ≤ 4 := by
    unfold TransformRun.width
    split <;> decide
  obtain ⟨fuel, hfuel⟩ : ∃ fuel, r.layout.count - r.layout.start = fuel + 1 :=
    ⟨r.layout.count - r.layout.start - 1, by omega⟩
  have hdst : (r'.loop ops).destination = r.layout.dst := by rw [← hlayout]; rfl
  have hfits : r.layout.start + r.width cpu ≤ r.layout.count := by omega
  have hbytes : (0 : Byte) ≠ 1 := by decide
  obtain ⟨bytes, hne⟩ := ElementLoop.exists_blocks_ne fuel (by decide)
    (hops r' hmode hlayout) (width_pos cpu r) (hdst ▸ hbehind) (hdst ▸ hinside) hfits hbytes ()
  refine ⟨bytes, ?_⟩
  have hvector : cpu.vectors = true ∧ 8 ≤ r.layout.count - r.layout.start := ⟨hvectors, hcount⟩
  unfold TransformRun.run TransformRun.scalar f64Kernel
  simp only [hwidth, hlayout, if_pos hvector]
  rw [hfuel] at hne ⊢
  exact hne

theorem transform_iff (h : admitTransform ops p frame = some (some r)) :
    (∀ ops bytes frame' bytes', runDenseArrayTransform cpu ops p frame bytes =
      some (some (frame', bytes')) →
        scalarDenseArrayTransform ops p frame bytes = some (some bytes')) ↔ r.Safe cpu := by
  constructor
  · intro hall
    by_contra hunsafe
    obtain ⟨ops', hne⟩ := TransformRun.exists_run_ne hunsafe
    obtain ⟨r', hadmitted, hmode, hlayout⟩ := admitTransform_layout ops' h
    obtain ⟨bytes, hne⟩ := hne r' hmode hlayout
    have heq := hall ops' bytes _ _ (by rw [runDenseArrayTransform, hadmitted]; rfl)
    rw [scalarDenseArrayTransform, hadmitted] at heq
    exact hne (Option.some.inj (Option.some.inj heq)).symm
  · intro hsafe ops' bytes frame' bytes' hrun
    obtain ⟨r', hadmitted, hmode, hlayout⟩ := admitTransform_layout ops' h
    rw [runDenseArrayTransform, hadmitted] at hrun
    rw [scalarDenseArrayTransform, hadmitted]
    cases hrun
    have hsafe' : r'.Safe cpu := by
      rw [TransformRun.Safe, TransformRun.sources, TransformRun.width, hmode, hlayout]
      exact hsafe
    rw [Option.map_some, Option.map_some, TransformRun.run_eq_scalar hsafe']

end

def SumRun.elements (r : SumRun) (bound : Nat) : Nat :=
  match r.mode with
  | .affineSum => r.layout.count
  | .binaryBiasedDivSum => min bound r.layout.count

/-- The elements of a sum one by one; `bound` is the number of indices below the value that the
loop is bounded by. Behind the end of the array nothing is stored. -/
def SumRun.scalar (ops : Operations) (p : SumProgram) (r : SumRun) (bound : Nat)
    (bytes : Nat → Byte) : Double × (Nat → Byte) :=
  (r.loop ops p).scalar r.layout.start (r.elements bound - r.layout.start) (r.accumulator, bytes)

/-- The buffer after `turbojs_run_typed_array_affine_sum`. -/
def runTypedArraySum (ops : Operations) (p : SumProgram) (frame : SumFrame) (bytes : Nat → Byte) :
    Option (Nat → Byte) :=
  (admitSum ops p frame).map fun r => (r.run ops p bytes).2

def scalarTypedArraySum (ops : Operations) (p : SumProgram) (frame : SumFrame) (bound : Nat)
    (bytes : Nat → Byte) : Option (Nat → Byte) :=
  (admitSum ops p frame).map fun r => (r.scalar ops p bound bytes).2

/-- The bound is not below the length of the array, and there is no full round or no source lies
within a round before the array. -/
def SumRun.Safe (r : SumRun) (bound : Nat) : Prop :=
  (r.mode = .binaryBiasedDivSum → r.layout.count ≤ r.layout.start ∨ r.layout.count ≤ bound) ∧
    (r.layout.count - r.layout.start < 4 ∨
      ∀ s ∈ r.sources, r.layout.dst ≤ s ∨ s + 8 * 4 ≤ r.layout.dst)

section

variable {ops ops' : Operations} {p : SumProgram} {frame : SumFrame} {r : SumRun} {bound : Nat}
  {bytes : Nat → Byte}

theorem admitSum_layout (hfinite : ∀ d, ops'.finite d = true) (hzero : ∀ d, ops'.isZero d = false)
    (h : admitSum ops p frame = some r) :
    ∃ r', admitSum ops' p frame = some r' ∧ r'.mode = r.mode ∧ r'.layout = r.layout := by
  obtain ⟨array, harray, h⟩ := Option.bind_eq_some_iff.mp h
  obtain ⟨index, hindex, h⟩ := Option.bind_eq_some_iff.mp h
  obtain ⟨accumulator, haccumulator, h⟩ := Option.bind_eq_some_iff.mp h
  obtain ⟨accumulator', haccumulator'⟩ := osrNumber_isSome ops' haccumulator
  simp only [admitSum, harray, hindex, haccumulator', Option.bind_eq_bind, Option.bind_some]
  split at h
  · cases h
  · rename_i hneg
    rw [if_neg hneg]
    simp only at h
    split at h
    · cases h
    · rename_i hcount
      rw [if_neg hcount]
      cases hmode : p.mode with
      | affineSum =>
        rw [hmode] at h
        cases h
        exact ⟨_, rfl, rfl, rfl⟩
      | binaryBiasedDivSum =>
        rw [hmode] at h
        obtain ⟨arrayB, harrayB, h⟩ := Option.bind_eq_some_iff.mp h
        obtain ⟨outer, houter, h⟩ := Option.bind_eq_some_iff.mp h
        obtain ⟨outer', houter'⟩ := osrNumber_isSome ops' houter
        split at h
        · cases h
        · rename_i hguard
          cases h
          have hlong : ¬ arrayB.count < array.count := fun hlt => hguard (.inr (.inr hlt))
          simp only [harrayB, houter', Option.bind_some, hfinite, hzero, hlong,
            Bool.true_eq_false, Bool.false_eq_true, or_self, if_false]
          exact ⟨_, rfl, rfl, rfl⟩

theorem SumRun.not_ahead (h : ∀ s ∈ r.sources, r.layout.dst ≤ s ∨ s + 8 * 4 ≤ r.layout.dst) :
    ¬ (r.loop ops p).Ahead 4 := by
  rintro ⟨s, hs, hbehind, hinside⟩
  rcases h s hs with hle | hge
  · exact Nat.not_lt.mpr hle hbehind
  · exact Nat.not_lt.mpr hge hinside

theorem SumRun.run_eq (hstart : r.layout.start ≤ r.layout.count)
    (h : r.layout.count - r.layout.start < 4 ∨ (r.loop ops p).Independent 4) :
    r.run ops p bytes = (r.loop ops p).scalar r.layout.start (r.layout.count - r.layout.start)
      (r.accumulator, bytes) := by
  rcases h with hshort | h
  · have hnone (fuel : Nat) (st : Double × (Nat → Byte)) :
        (r.loop ops p).blocks 4 r.layout.count fuel r.layout.start st = (r.layout.start, st) := by
      cases fuel with
      | zero => rfl
      | succ fuel => rw [ElementLoop.blocks, if_neg (by omega)]
    unfold SumRun.run
    simp only [hnone]
  · exact ElementLoop.blocks_rest_eq h hstart _

theorem SumRun.run_eq_scalar (hstart : r.layout.start ≤ r.layout.count) (h : r.Safe bound) :
    (r.run ops p bytes).2 = (r.scalar ops p bound bytes).2 := by
  obtain ⟨hbound, hoverlap⟩ := h
  rw [SumRun.run_eq hstart (hoverlap.imp_right fun h =>
    ElementLoop.independent_of_not_ahead (SumRun.not_ahead h)), SumRun.scalar]
  cases hmode : r.mode with
  | affineSum => rw [SumRun.elements, hmode]
  | binaryBiasedDivSum =>
    have hsame : min bound r.layout.count - r.layout.start =
        r.layout.count - r.layout.start := by
      rcases hbound hmode with hnone | hlong <;> omega
    rw [SumRun.elements, hmode]
    simp only [hsame]

def constantQuotient : Operations where
  mul a _ := a
  add a _ := a
  div _ _ := fun _ => 1
  ofInt _ := zeroDouble
  toUint32 _ := 0
  finite _ := true
  isZero _ := false

theorem SumRun.run_ne_of_bound (hmode : r.mode = .binaryBiasedDivSum)
    (hstart : r.layout.start < r.layout.count) (hbound : bound < r.layout.count) :
    (r.run constantQuotient p fun _ => 0).2 ≠ (r.scalar constantQuotient p bound fun _ => 0).2 := by
  have hvalue (i : Nat) (m : Nat → Byte) : (r.loop constantQuotient p).value i m = fun _ => 1 := by
    simp only [ElementLoop.value, SumRun.loop, SumRun.op, hmode]
    rfl
  have hindependent : (r.loop constantQuotient p).Independent 4 := by
    intro i j k lanes st _ _
    rw [hvalue, hvalue]
  obtain ⟨n, hn⟩ : ∃ n, r.layout.count - r.layout.start = n + 1 :=
    ⟨r.layout.count - r.layout.start - 1, by omega⟩
  have hdst : (r.loop constantQuotient p).destination = r.layout.dst := rfl
  intro heq
  have hlast := congrFun heq (r.layout.dst + 8 * (r.layout.start + n) + (0 : Fin 8))
  rw [SumRun.run_eq (Nat.le_of_lt hstart) (.inr hindependent), hn, ElementLoop.scalar_succ,
    ElementLoop.element_snd, hdst, ElementLoop.storeElement_at, hvalue, SumRun.scalar,
    ElementLoop.scalar_after] at hlast
  · exact absurd hlast (show (1 : Byte) ≠ 0 by decide)
  · rw [SumRun.elements, hmode, hdst]
    simp only
    omega

theorem SumRun.exists_run_ne (p : SumProgram)
    (hoverlap : ¬ (r.layout.count - r.layout.start < 4 ∨
      ∀ s ∈ r.sources, r.layout.dst ≤ s ∨ s + 8 * 4 ≤ r.layout.dst))
    (hbound : r.elements bound - r.layout.start = r.layout.count - r.layout.start) :
    ∃ ops : Operations, (∀ d, ops.finite d = true) ∧ (∀ d, ops.isZero d = false) ∧
      ∀ r' : SumRun, r'.mode = r.mode → r'.layout = r.layout →
        ∃ bytes, (r'.run ops p bytes).2 ≠ (r'.scalar ops p bound bytes).2 := by
  simp only [not_or, not_forall, Nat.not_lt, Nat.not_le] at hoverlap
  obtain ⟨hcount, s, hs, hbehind, hinside⟩ := hoverlap
  obtain ⟨mulFirst, hcopy⟩ : ∃ mulFirst, ∀ r' : SumRun, r'.mode = r.mode → r'.layout = r.layout →
      ∀ i m, (r'.loop (projecting mulFirst true) p).value i m = loadElement m (s + 8 * i) := by
    cases hmode : r.mode with
    | affineSum =>
      simp only [SumRun.sources, hmode, List.mem_cons, List.not_mem_nil, or_false] at hs
      subst hs
      refine ⟨true, fun r' hmode' hlayout i m => ?_⟩
      rw [← hlayout]
      simp only [ElementLoop.value, SumRun.loop, SumRun.op, SumRun.sources, hmode']
      rfl
    | binaryBiasedDivSum =>
      simp only [SumRun.sources, hmode, List.mem_cons, List.not_mem_nil, or_false] at hs
      rcases hs with rfl | rfl
      · refine ⟨true, fun r' hmode' hlayout i m => ?_⟩
        rw [← hlayout]
        simp only [ElementLoop.value, SumRun.loop, SumRun.op, SumRun.sources, hmode']
        rfl
      · refine ⟨false, fun r' hmode' hlayout i m => ?_⟩
        rw [← hlayout]
        simp only [ElementLoop.value, SumRun.loop, SumRun.op, SumRun.sources, hmode']
        rfl
  refine ⟨projecting mulFirst true, fun _ => rfl, fun _ => rfl, fun r' hmode hlayout => ?_⟩
  have hdst : (r'.loop (projecting mulFirst true) p).destination = r.layout.dst := by
    rw [← hlayout]
    rfl
  obtain ⟨fuel, hfuel⟩ : ∃ fuel, r.layout.count - r.layout.start = fuel + 1 :=
    ⟨r.layout.count - r.layout.start - 1, by omega⟩
  have hfits : r.layout.start + 4 ≤ r.layout.count := by omega
  have hbytes : (0 : Byte) ≠ 1 := by decide
  obtain ⟨bytes, hne⟩ := ElementLoop.exists_blocks_ne fuel (by decide)
    (hcopy r' hmode hlayout) (by decide) (hdst ▸ hbehind) (hdst ▸ hinside) hfits hbytes
    r'.accumulator
  refine ⟨bytes, ?_⟩
  have helements : r'.elements bound = r.elements bound := by
    rw [SumRun.elements, hmode, hlayout]
    rfl
  unfold SumRun.run SumRun.scalar
  rw [hlayout, helements, hbound]
  rw [hfuel] at hne ⊢
  exact hne

theorem admitSum_start (h : admitSum ops p frame = some r) :
    r.layout.start ≤ r.layout.count := by
  obtain ⟨array, -, h⟩ := Option.bind_eq_some_iff.mp h
  obtain ⟨index, -, h⟩ := Option.bind_eq_some_iff.mp h
  obtain ⟨accumulator, -, h⟩ := Option.bind_eq_some_iff.mp h
  split at h
  · cases h
  · simp only at h
    split at h
    · cases h
    · rename_i hcount
      split at h
      · cases h
        exact Nat.not_lt.mp fun hlt => hcount (.inl hlt)
      · obtain ⟨arrayB, -, h⟩ := Option.bind_eq_some_iff.mp h
        obtain ⟨outer, -, h⟩ := Option.bind_eq_some_iff.mp h
        split at h
        · cases h
        · cases h
          exact Nat.not_lt.mp fun hlt => hcount (.inl hlt)

theorem sum_iff (h : admitSum ops p frame = some r) :
    (∀ ops bytes bytes', runTypedArraySum ops p frame bytes = some bytes' →
      scalarTypedArraySum ops p frame bound bytes = some bytes') ↔ r.Safe bound := by
  have hstart := admitSum_start h
  constructor
  · intro hall
    have hdiffers (ops' : Operations) (hfinite : ∀ d, ops'.finite d = true)
        (hzero : ∀ d, ops'.isZero d = false) : ∃ r' : SumRun, r'.mode = r.mode ∧
          r'.layout = r.layout ∧
          ∀ bytes, (r'.run ops' p bytes).2 = (r'.scalar ops' p bound bytes).2 := by
      obtain ⟨r', hadmitted, hmode, hlayout⟩ := admitSum_layout hfinite hzero h
      refine ⟨r', hmode, hlayout, fun bytes => ?_⟩
      have heq := hall ops' bytes _ (by rw [runTypedArraySum, hadmitted]; rfl)
      rw [scalarTypedArraySum, hadmitted] at heq
      exact (Option.some.inj heq).symm
    have hbound : r.mode = .binaryBiasedDivSum →
        r.layout.count ≤ r.layout.start ∨ r.layout.count ≤ bound := by
      intro hmode
      by_contra hshort
      rw [not_or, Nat.not_le, Nat.not_le] at hshort
      obtain ⟨r', hmode', hlayout, heq⟩ :=
        hdiffers constantQuotient (fun _ => rfl) fun _ => rfl
      exact SumRun.run_ne_of_bound (hmode'.trans hmode) (hlayout ▸ hshort.1)
        (hlayout ▸ hshort.2) (heq _)
    refine ⟨hbound, ?_⟩
    by_contra hoverlap
    have helements : r.elements bound - r.layout.start = r.layout.count - r.layout.start := by
      cases hmode : r.mode with
      | affineSum => rw [SumRun.elements, hmode]
      | binaryBiasedDivSum =>
        rw [SumRun.elements, hmode]
        simp only
        rcases hbound hmode with hnone | hlong <;> omega
    obtain ⟨ops', hfinite, hzero, hne⟩ := SumRun.exists_run_ne p hoverlap helements
    obtain ⟨r', hmode, hlayout, heq⟩ := hdiffers ops' hfinite hzero
    obtain ⟨bytes, hne⟩ := hne r' hmode hlayout
    exact hne (heq bytes)
  · intro hsafe ops' bytes bytes' hrun
    obtain ⟨r', hadmitted, rfl⟩ := Option.map_eq_some_iff.mp hrun
    obtain ⟨hmode, hlayout⟩ : r'.mode = r.mode ∧ r'.layout = r.layout := by
      obtain ⟨q, hq, hmode, hlayout⟩ :=
        admitSum_layout (fun _ => rfl : ∀ d, constantQuotient.finite d = true) (fun _ => rfl)
          hadmitted
      obtain ⟨q', hq', hmode', hlayout'⟩ :=
        admitSum_layout (fun _ => rfl : ∀ d, constantQuotient.finite d = true) (fun _ => rfl) h
      rw [hq] at hq'
      cases hq'
      exact ⟨hmode.symm.trans hmode', hlayout.symm.trans hlayout'⟩
    have hsafe' : r'.Safe bound := by
      rw [SumRun.Safe, SumRun.sources, hmode, hlayout]
      exact hsafe
    rw [scalarTypedArraySum, hadmitted, Option.map_some,
      SumRun.run_eq_scalar (admitSum_start hadmitted) hsafe']

end

def copyFrame (source destination : Nat) : List FrameValue :=
  [.reference (some ⟨source, 8⟩), .reference (some ⟨destination, 8⟩), .int64 0]

def quotientFrame (array arrayB : Nat) : SumFrame :=
  ⟨.reference (some ⟨array, 8⟩), .reference (some ⟨arrayB, 8⟩), .float64 zeroDouble, .int64 0,
    .int64 0⟩

def quotientProgram : SumProgram where
  mode := .binaryBiasedDivSum
  scale := zeroDouble
  offset := zeroDouble
  biasScale := zeroDouble
  divisorBase := zeroDouble
  divisorScale := zeroDouble
  indexMask := 0
  outerMask := 0

end TurboJS.OSR.Typed
