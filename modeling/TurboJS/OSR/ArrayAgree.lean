import TurboJS.OSR.ArrayRounds

namespace TurboJS.OSR
open Bytecode Foundation

/-! When the runner of the array loops agrees with the interpreted loop. -/

/-! ## The sums of the runner -/

theorem intValue_eq_some {v : JSValue} {n : Int} (h : intValue v = some n) :
    v = .number n ∧ int32Min ≤ n ∧ n ≤ int32Max := by
  cases v with
  | number m =>
    simp only [intValue] at h
    split at h
    · rename_i hm
      cases h
      exact ⟨rfl, hm⟩
    · cases h
  | _ => cases h

theorem i64AddChecked_eq {x y z : Int} (h : i64AddChecked x y = some z) : z = x + y := by
  unfold i64AddChecked at h
  split at h
  · cases h
    rfl
  · cases h

@[simp] theorem foldlM_add_number (m n : Int) (vs : List JSValue) :
    (JSValue.number n :: vs).foldlM (binary .add) (.number m) =
      vs.foldlM (binary .add) (.number (m + n)) := rfl

theorem floatSum_foldlM {vs : List JSValue} {sum r : JSValue} (h : floatSum vs sum = some r) :
    vs.foldlM (binary .add) sum = some r := by
  induction vs generalizing sum with
  | nil => exact h
  | cons v vs ih =>
    unfold floatSum at h
    split at h
    · obtain ⟨s, hs, h⟩ := Option.bind_eq_some_iff.mp h
      rw [List.foldlM_cons, hs]
      exact ih h
    · cases h

theorem scalarSum_foldlM {vs : List JSValue} {sum : Int} {r : JSValue}
    (h : scalarSum vs sum = some r) : vs.foldlM (binary .add) (.number sum) = some r := by
  induction vs generalizing sum with
  | nil => exact h
  | cons v vs ih =>
    unfold scalarSum at h
    split at h
    · rename_i n hn
      obtain ⟨s, hs, h⟩ := Option.bind_eq_some_iff.mp h
      obtain ⟨rfl, -⟩ := intValue_eq_some hn
      rw [foldlM_add_number, ← i64AddChecked_eq hs]
      exact ih h
    · exact floatSum_foldlM h

def Lanes.total (l : Lanes) : Int := l.lane0 + l.lane1 + l.lane2 + l.lane3

theorem Lanes.add_total {l l' : Lanes} {x0 x1 x2 x3 : Int} (h : l.add x0 x1 x2 x3 = some l') :
    l'.total = l.total + x0 + x1 + x2 + x3 := by
  obtain ⟨y0, h0, h⟩ := Option.bind_eq_some_iff.mp h
  obtain ⟨y1, h1, h⟩ := Option.bind_eq_some_iff.mp h
  obtain ⟨y2, h2, h⟩ := Option.bind_eq_some_iff.mp h
  obtain ⟨y3, h3, h⟩ := Option.bind_eq_some_iff.mp h
  cases h
  simp only [Lanes.total, i64AddChecked_eq h0, i64AddChecked_eq h1, i64AddChecked_eq h2,
    i64AddChecked_eq h3]
  omega

theorem laneLoop_foldlM {vs rest : List JSValue} {l l' : Lanes} {n m : Nat}
    (h : laneLoop vs l n = some (rest, l', m)) :
    n ≤ m ∧ (m = n → l' = l) ∧ ∀ s : Int, vs.foldlM (binary .add) (.number (s + l.total)) =
      rest.foldlM (binary .add) (.number (s + l'.total)) := by
  fun_induction laneLoop vs l n with
  | case1 => cases h
  | case2 l n v0 v1 v2 v3 vs hinit x0 x1 x2 x3 h0 h1 h2 h3 ih =>
    obtain ⟨l1, hl, h⟩ := Option.bind_eq_some_iff.mp h
    obtain ⟨hle, -, hfold⟩ := ih l1 h
    refine ⟨by omega, by omega, ?_⟩
    intro s
    rw [← hfold, Lanes.add_total hl, (intValue_eq_some h0).1, (intValue_eq_some h1).1,
      (intValue_eq_some h2).1, (intValue_eq_some h3).1]
    simp only [foldlM_add_number, Int.add_assoc]
  | case3 =>
    cases h
    exact ⟨Nat.le_refl _, fun _ => rfl, fun _ => rfl⟩
  | case4 =>
    cases h
    exact ⟨Nat.le_refl _, fun _ => rfl, fun _ => rfl⟩

theorem Lanes.reduce_eq {l : Lanes} {n : Nat} {x y : Int} (h0 : n = 0 → l.total = 0)
    (h : l.reduce n x = some y) : y = x + l.total := by
  unfold Lanes.reduce at h
  split at h
  · rename_i hn
    cases h
    rw [h0 hn, Int.add_zero]
  · obtain ⟨pair0, hp0, h⟩ := Option.bind_eq_some_iff.mp h
    obtain ⟨pair1, hp1, h⟩ := Option.bind_eq_some_iff.mp h
    obtain ⟨block, hb, h⟩ := Option.bind_eq_some_iff.mp h
    rw [i64AddChecked_eq h, i64AddChecked_eq hb, i64AddChecked_eq hp1, i64AddChecked_eq hp0]
    simp only [Lanes.total]
    omega

theorem exactSum_foldlM {acc r : JSValue} {vs : List JSValue} (h : exactSum acc vs = some r) :
    vs.foldlM (binary .add) acc = some r := by
  unfold exactSum at h
  split at h
  · rename_i n hn
    obtain ⟨rfl, -⟩ := intValue_eq_some hn
    obtain ⟨⟨rest, lanes, blocks⟩, hl, h⟩ := Option.bind_eq_some_iff.mp h
    obtain ⟨isum, hi, h⟩ := Option.bind_eq_some_iff.mp h
    obtain ⟨-, hsame, hfold⟩ := laneLoop_foldlM hl
    have hzero : blocks = 0 → lanes.total = 0 := by
      intro hb
      rw [hsame hb]
      rfl
    have := hfold n
    simp only [Lanes.total, Int.add_zero] at this
    rw [this, ← Lanes.total, ← Lanes.reduce_eq hzero hi]
    exact scalarSum_foldlM h
  · exact floatSum_foldlM h

theorem wrapAdd_ofBits (x : BitVec 32) {v : JSValue} {n : Int} (h : intValue v = some n) :
    wrapAdd (ofBits x) v = some (ofBits (x + toBits n)) := by
  obtain ⟨rfl, -⟩ := intValue_eq_some h
  have hor : toBits (x.toInt + n) ||| toBits 0 = x + toBits n := by
    rw [toBits_add, toBits_toInt]
    exact BitVec.or_zero
  change some (ofBits (toBits (x.toInt + n) ||| toBits 0)) = _
  rw [hor]

theorem wrappedSum_foldlM {vs : List JSValue} {x y : BitVec 32} (h : wrappedSum vs x = some y) :
    vs.foldlM wrapAdd (ofBits x) = some (ofBits y) := by
  induction vs generalizing x with
  | nil =>
    cases h
    rfl
  | cons v vs ih =>
    obtain ⟨n, hn, h⟩ := Option.bind_eq_some_iff.mp h
    rw [List.foldlM_cons, wrapAdd_ofBits x hn]
    exact ih h

theorem readings_eq {a : FastArray} {i n : Nat} (hn : i + n = a.length) :
    readings a i n =
      a.values.drop i ++ List.replicate (a.length - max i a.values.length) .undefined := by
  have hcount := a.count_le
  induction n generalizing i with
  | zero =>
    rw [readings, List.drop_eq_nil_of_le (by omega), Nat.sub_eq_zero_of_le (by omega)]
    rfl
  | succ n ih =>
    rw [readings, ih (by omega)]
    by_cases hi : i < a.values.length
    · have hget : a.get i = a.values[i] := by
        simp [FastArray.get, hi]
      rw [hget, List.drop_eq_getElem_cons hi, List.cons_append, Nat.max_eq_right (by omega),
        Nat.max_eq_right (by omega)]
    · have hget : a.get i = .undefined := by
        simp [FastArray.get, Nat.le_of_not_lt hi]
      rw [hget, List.drop_eq_nil_of_le (by omega), List.drop_eq_nil_of_le (by omega),
        List.nil_append, List.nil_append, ← List.replicate_succ]
      congr 1
      omega

section

variable {p : ArrayProgram}

theorem foldlM_holes (hm : p.mode = .holeySum) (x : JSValue) (n : Nat) :
    (List.replicate n .undefined).foldlM p.next x = some x := by
  induction n with
  | zero => rfl
  | succ n ih =>
    rw [List.replicate_succ, List.foldlM_cons]
    simp only [ArrayProgram.next, hm, and_self, if_true, Option.bind_eq_bind, Option.bind_some]
    exact ih

theorem add_undefined {x : JSValue} (hx : isNumeric x = true) :
    binary .add x .undefined = some .nan := by
  cases x <;> first | rfl | cases hx

theorem next_undefined (hm : p.mode = .sum) {x : JSValue} (hx : isNumeric x = true) :
    ∃ y, p.next x .undefined = some y := by
  have hmode : ¬ (p.mode = .holeySum ∧ JSValue.undefined = .undefined) := by simp [hm]
  rw [ArrayProgram.next, if_neg hmode]
  split
  · exact ⟨_, by rw [wrapAdd, add_undefined hx]; rfl⟩
  · exact ⟨_, add_undefined hx⟩

theorem foldlM_missing (hm : p.mode = .sum) {x : JSValue} (hx : isNumeric x = true) (n : Nat) :
    ∃ y, (List.replicate n .undefined).foldlM p.next x = some y := by
  induction n generalizing x with
  | zero => exact ⟨x, rfl⟩
  | succ n ih =>
    obtain ⟨y, hy⟩ := next_undefined hm hx
    obtain ⟨z, hz⟩ := ih (ArrayProgram.next_isNumeric hx hy)
    refine ⟨z, ?_⟩
    rw [List.replicate_succ, List.foldlM_cons, hy]
    exact hz

theorem foldlM_isNumeric {vs : List JSValue} {x y : JSValue} (hx : isNumeric x = true)
    (h : vs.foldlM p.next x = some y) : isNumeric y = true := by
  induction vs generalizing x with
  | nil =>
    cases h
    exact hx
  | cons v vs ih =>
    rw [List.foldlM_cons] at h
    obtain ⟨z, hz, h⟩ := Option.bind_eq_some_iff.mp h
    exact ih (ArrayProgram.next_isNumeric hx hz) h

theorem sumOutcome_foldlM (hm : p.mode = .sum) {a : FastArray} {acc v : JSValue} {i stop : Nat}
    (h : sumOutcome p.int32Wrap a acc i = some (stop, v)) :
    i ≤ a.values.length ∧ stop = a.values.length ∧
      (a.values.drop i).foldlM p.next acc = some v := by
  unfold sumOutcome at h
  simp only at h
  split at h
  · cases h
  · rename_i hi
    split at h
    · rename_i hw
      obtain ⟨n, hn, h⟩ := Option.bind_eq_some_iff.mp h
      obtain ⟨x, hx, h⟩ := Option.bind_eq_some_iff.mp h
      cases h
      obtain ⟨rfl, hrange⟩ := intValue_eq_some hn
      have hnext : p.next = wrapAdd := by
        funext x v
        simp [ArrayProgram.next, hm, hw]
      refine ⟨by omega, rfl, ?_⟩
      rw [hnext, ← ofBits_toBits hrange]
      exact wrappedSum_foldlM hx
    · rename_i hw
      obtain ⟨s, hs, h⟩ := Option.bind_eq_some_iff.mp h
      cases h
      have hnext : p.next = binary .add := by
        funext x v
        simp [ArrayProgram.next, hm, hw]
      refine ⟨by omega, rfl, ?_⟩
      rw [hnext]
      exact exactSum_foldlM hs

theorem holeyWrappedSum_foldlM (hm : p.mode = .holeySum) (hw : p.int32Wrap = true)
    {vs : List JSValue} (hinit : .uninitialized ∉ vs) {x y : BitVec 32}
    (h : holeyWrappedSum vs x = some y) : vs.foldlM p.next (ofBits x) = some (ofBits y) := by
  induction vs generalizing x with
  | nil =>
    cases h
    rfl
  | cons v vs ih =>
    have hv : v ≠ .uninitialized := by
      rintro rfl
      exact hinit (by simp)
    have hvs : .uninitialized ∉ vs := fun hmem => hinit (by simp [hmem])
    unfold holeyWrappedSum at h
    split at h
    · rename_i hundef
      obtain rfl : v = .undefined := hundef.resolve_left hv
      rw [List.foldlM_cons]
      simp only [ArrayProgram.next, hm, and_self, if_true, Option.bind_eq_bind, Option.bind_some]
      exact ih hvs h
    · rename_i hdef
      obtain ⟨n, hn, h⟩ := Option.bind_eq_some_iff.mp h
      have hnext : p.next (ofBits x) v = some (ofBits (x + toBits n)) := by
        rw [← wrapAdd_ofBits x hn, ArrayProgram.next, if_neg (fun hu => hdef (.inr hu.2)),
          if_pos hw]
      rw [List.foldlM_cons, hnext]
      exact ih hvs h

theorem holeyOutcome_foldlM (hm : p.mode = .holeySum) (hw : p.int32Wrap = true) {a : FastArray}
    {acc v : JSValue} {i stop : Nat} (h : holeyOutcome a acc i = some (stop, v)) :
    i ≤ a.length ∧ stop = a.length ∧ (a.values.drop i).foldlM p.next acc = some v := by
  obtain ⟨n, hn, h⟩ := Option.bind_eq_some_iff.mp h
  obtain ⟨length, hlen, h⟩ := Option.bind_eq_some_iff.mp h
  obtain ⟨hlen, -⟩ := intValue_eq_some hlen
  injection hlen with hlen
  subst hlen
  split at h
  · cases h
  · rename_i hi
    obtain ⟨x, hx, h⟩ := Option.bind_eq_some_iff.mp h
    cases h
    obtain ⟨rfl, hrange⟩ := intValue_eq_some hn
    refine ⟨by omega, rfl, ?_⟩
    rw [Nat.min_eq_left a.count_le, List.take_length] at hx
    rw [← ofBits_toBits hrange]
    exact holeyWrappedSum_foldlM hm hw (fun hmem => a.initialized (List.mem_of_mem_drop hmem)) hx

end

theorem indexValues_succ {i limit : Nat} (h : i < limit) :
    indexValues i limit = .number i :: indexValues (i + 1) limit := by
  obtain ⟨n, rfl⟩ : ∃ n, limit = i + 1 + n := ⟨limit - (i + 1), by omega⟩
  have h1 : i + 1 + n - i = n + 1 := by omega
  have h2 : i + 1 + n - (i + 1) = n := by omega
  simp only [indexValues, h1, h2, List.range_succ_eq_map, List.map_cons, List.map_map,
    Nat.add_zero, List.cons.injEq, true_and]
  refine List.map_congr_left ?_
  intro k _
  simp only [Function.comp_apply, JSValue.number.injEq]
  omega

theorem arrayMergeKind_int {kind : ElementKind} {n : Int} (h : (intValue (.number n)).isSome) :
    arrayMergeKind kind (.number n) = .packedInt32 ↔ kind = .packedInt32 ∨ kind = .empty := by
  cases kind <;> simp [arrayMergeKind, arrayValueKind, h]

theorem arrayMergeKind_ne_empty (kind : ElementKind) (n : Int) :
    arrayMergeKind kind (.number n) ≠ .empty := by
  cases kind <;> by_cases h : (intValue (.number n)).isSome <;>
    simp [arrayMergeKind, arrayValueKind, h]

section

variable (a : FastArray) (v : JSValue) (hv : v ≠ .uninitialized)

@[simp] theorem FastArray.append_values : (a.append v hv).values = a.values ++ [v] := rfl

@[simp] theorem FastArray.append_length :
    (a.append v hv).length = max a.length (a.values.length + 1) := rfl

@[simp] theorem FastArray.append_kind : (a.append v hv).kind = arrayMergeKind a.kind v := rfl

end

structure Appended (a a' : FastArray) (n : Nat) : Prop where
  values : a'.values = a.values ++ indexValues a.values.length (a.values.length + n)
  length : a'.length = max a.length (a.values.length + n)
  extensible : a'.extensible = a.extensible
  lengthWritable : a'.lengthWritable = a.lengthWritable
  kind : a'.kind = .packedInt32 ↔ a.kind = .packedInt32 ∨ a.kind = .empty ∧ 0 < n

theorem appendIndices_appended (a : FastArray) (n : Nat)
    (hn : a.values.length + n ≤ int32Max) : Appended a (appendIndices a n) n := by
  induction n generalizing a with
  | zero =>
    constructor
    · simp [appendIndices, indexValues]
    · have := a.count_le
      simp only [appendIndices]
      omega
    · rfl
    · rfl
    · simp [appendIndices]
  | succ n ih =>
    have hint : (intValue (.number (a.values.length : Int))).isSome := by
      have hmin : int32Min ≤ (a.values.length : Int) := by
        simp only [int32Min]
        omega
      rw [intValue, if_pos ⟨hmin, by omega⟩]
      rfl
    obtain ⟨hv, hl, he, hw, hk⟩ := ih (a.append (.number a.values.length) (by simp)) (by
      simp only [FastArray.append_values, List.length_append, List.length_singleton]
      omega)
    simp only [FastArray.append_values, FastArray.append_length, FastArray.append_kind,
      List.length_append, List.length_singleton] at hv hl hk
    refine ⟨?_, ?_, he, hw, ?_⟩
    · have hlt : a.values.length < a.values.length + (n + 1) := by omega
      have hend : a.values.length + (n + 1) = a.values.length + 1 + n := by omega
      rw [appendIndices, hv, indexValues_succ hlt, List.append_assoc, List.singleton_append, hend]
    · rw [appendIndices, hl]
      omega
    · rw [appendIndices, hk, arrayMergeKind_int hint]
      constructor
      · rintro ((h | h) | ⟨h, -⟩)
        · exact .inl h
        · exact .inr ⟨h, by omega⟩
        · exact absurd h (arrayMergeKind_ne_empty _ _)
      · rintro (h | ⟨h, -⟩)
        · exact .inl (.inl h)
        · exact .inl (.inr h)

theorem appendIndices_eq_fill_iff {a : FastArray} {limit : Nat}
    (h : a.values.length ≤ limit) (hl : limit ≤ int32Max) :
    appendIndices a (limit - a.values.length) = FastArray.fill a limit h ↔
      a.length ≤ limit ∧
        (a.kind = .packedInt32 ∨ a.kind = .empty ∧ a.values.length < limit) := by
  have hsum : a.values.length + (limit - a.values.length) = limit := by omega
  obtain ⟨hv, hlen, he, hw, hk⟩ := appendIndices_appended a (limit - a.values.length) (by omega)
  rw [hsum] at hv hlen
  have hpos : 0 < limit - a.values.length ↔ a.values.length < limit := by omega
  rw [hpos] at hk
  constructor
  · intro heq
    rw [heq] at hlen hk
    have hlen : limit = max a.length limit := hlen
    exact ⟨by omega, hk.mp rfl⟩
  · rintro ⟨hle, hkind⟩
    have hkind := hk.mpr hkind
    have hlen : (appendIndices a (limit - a.values.length)).length = limit := by omega
    generalize appendIndices a (limit - a.values.length) = a' at *
    cases a'
    simp_all [FastArray.fill]

section

variable {S : Type} {T : ShapeTable S} {proto : Nat → Option (PropFlags × JSValue)}
  {b : FunctionBytecode} {p : ArrayProgram} {slots : Slot → JSValue} {h : Heap S}
  {out : HeapExit (Heap S)}

def HeapAgrees {H : Type} (ops : HeapOps H) (b : FunctionBytecode) (target source : Nat)
    (s : State H) (out : HeapExit H) : Prop :=
  Segment ops b target (source + 1) s ⟨out.resume, s.stack, out.slots, out.heap⟩

def ArrayFaithful (b : FunctionBytecode) (p : ArrayProgram) (slots : Slot → JSValue)
    (a : FastArray) : Prop :=
  FrameIndexed b ⟨.local, p.induction⟩ ∧
    match p.mode with
    | .initIndex => ∀ limit, initLimit p slots = some limit → a.length ≤ limit ∧
        (a.kind = .packedInt32 ∨ a.kind = .empty ∧ a.values.length < limit)
    | .sum => FrameIndexed b p.accumulatorSlot ∧ a.values.length = a.length ∧
        (slots ⟨.local, p.induction⟩ = .number a.length ∨
          p.accumulatorSlot ≠ ⟨.local, p.induction⟩)
    | .holeySum => FrameIndexed b p.accumulatorSlot ∧
        (slots ⟨.local, p.induction⟩ = .number a.length ∨
          p.accumulatorSlot ≠ ⟨.local, p.induction⟩)

theorem arrayAt_eq_some {v : JSValue} {o : Nat} {a : FastArray}
    (ha : arrayAt h v = some (o, a)) : v = .object o ∧ h o = some (.array a) := by
  unfold arrayAt at ha
  split at ha
  · split at ha
    · rename_i ho
      cases ha
      exact ⟨rfl, ho⟩
    · cases ha
  · cases ha

theorem runArrayLoop_outcome (hi : FrameIndexed b ⟨.local, p.induction⟩)
    (hv : p.induction < b.varCount) (hrun : runArrayLoop b p slots h = some out) :
    ∃ o a i, AtElement p.arraySlot p.induction slots h o a i ∧ out.resume = p.resume ∧
      match p.mode with
      | .initIndex => ∃ stop a', initOutcome p slots a i = some (stop, a') ∧
          out.slots = Function.update slots ⟨.local, p.induction⟩ (.number stop) ∧
          out.heap = Function.update h o (some (.array a'))
      | .sum => ∃ stop v,
          accumulate (sumOutcome p.int32Wrap a) (slots p.accumulatorSlot) i = some (stop, v) ∧
          out.heap = h ∧ (FrameIndexed b p.accumulatorSlot → out.slots = Function.update
            (Function.update slots ⟨.local, p.induction⟩ (.number stop)) p.accumulatorSlot v)
      | .holeySum => ∃ stop v,
          accumulate (holeyOutcome a) (slots p.accumulatorSlot) i = some (stop, v) ∧
          out.heap = h ∧ (FrameIndexed b p.accumulatorSlot → out.slots = Function.update
            (Function.update slots ⟨.local, p.induction⟩ (.number stop)) p.accumulatorSlot v) := by
  have hframe := captureFrame_holds (b := b) slots
  unfold runArrayLoop at hrun
  simp only [frameLocal_local hi] at hrun
  split at hrun
  · cases hrun
  obtain ⟨⟨o, a⟩, ha, hrun⟩ := Option.bind_eq_some_iff.mp hrun
  obtain ⟨i, hind, hrun⟩ := Option.bind_eq_some_iff.mp hrun
  rw [hframe.locals p.induction hv] at hind
  obtain ⟨hind, -⟩ := intValue_eq_some hind
  obtain ⟨harray, hheap⟩ := arrayAt_eq_some ha
  split at hrun
  · cases hrun
  rename_i hnn
  obtain ⟨n, rfl⟩ := Int.eq_ofNat_of_zero_le (Int.le_of_not_gt hnn)
  simp only [Int.toNat_natCast] at hrun
  have hadvance : ∀ stop : Nat, Holds b
      { captureFrame b slots with
        locals := Function.update (captureFrame b slots).locals (b.argCount + p.induction)
          (.number stop) }
      (Function.update slots ⟨.local, p.induction⟩ (.number stop)) := fun stop =>
    hframe.update_local p.induction hv (.number stop)
  refine ⟨o, a, n, ⟨harray, hheap, hind⟩, ?_⟩
  cases hm : p.mode <;> simp only [hm] at hrun ⊢
  case initIndex =>
    obtain ⟨⟨stop, a'⟩, ho, hout⟩ := Option.bind_eq_some_iff.mp hrun
    simp only [Option.some.injEq] at hout
    subst hout
    exact ⟨rfl, stop, a', ho, (hadvance stop).writeBack, rfl⟩
  all_goals
    obtain ⟨⟨stop, v⟩, ho, hrun⟩ := Option.bind_eq_some_iff.mp hrun
    obtain ⟨f, hf, hout⟩ := Option.bind_eq_some_iff.mp hrun
    simp only [Option.some.injEq] at hout
    subst hout
    exact ⟨rfl, stop, v, ho, rfl, fun hacc => ((hadvance stop).store hacc hf).writeBack⟩

inductive ArrayLoopOf (T : ShapeTable S) (proto : Nat → Option (PropFlags × JSValue))
    (b : FunctionBytecode) (p : ArrayProgram) (target source : Nat) : Prop where
  | sum (hm : p.mode = .sum) (hl : SumLoop T proto b p target source)
  | initIndex (hm : p.mode = .initIndex) (hl : InitLoop T proto b p target source)
  | holeySum (hm : p.mode = .holeySum) (hw : p.int32Wrap = true)
      (hl : SumLoop T proto b p target source)

variable (T proto) in
theorem detectArrayLoop_loop {target source : Nat}
    (hp : detectArrayLoop b target source = some p) :
    p.induction < b.varCount ∧ ArrayLoopOf T proto b p target source := by
  simp only [detectArrayLoop, Option.orElse_eq_orElse, Option.orElse_eq_or,
    Option.or_eq_some_iff] at hp
  rcases hp with (hp | ⟨-, hp⟩) | ⟨-, hp⟩
  · obtain ⟨hm, hv, hl⟩ := detectDenseArraySumLoop_loop T proto hp
    exact ⟨hv, .sum hm hl⟩
  · obtain ⟨hm, hv, hl⟩ := detectDenseArrayInitLoop_loop T proto hp
    exact ⟨hv, .initIndex hm hl⟩
  · obtain ⟨hm, hw, hv, hl⟩ := detectHoleyArraySumLoop_loop T proto hp
    exact ⟨hv, .holeySum hm hw hl⟩

section

variable {o i : Nat} {a : FastArray} {target source : Nat} {st : List JSValue}

theorem accumulate_eq_some {outcome : JSValue → Nat → Option (Nat × JSValue)} {acc : JSValue}
    {r : Nat × JSValue} (ho : accumulate outcome acc i = some r) :
    isNumeric acc = true ∧ outcome acc i = some r := by
  unfold accumulate at ho
  split at ho
  · rename_i hn
    exact ⟨hn, ho⟩
  · cases ho

theorem SumLoop.interpreted_sum (hl : SumLoop T proto b p target source) (hm : p.mode = .sum)
    (hs : AtElement p.arraySlot p.induction slots h o a i)
    (hne : p.accumulatorSlot ≠ ⟨.local, p.induction⟩) {stop : Nat} {v : JSValue}
    (ho : accumulate (sumOutcome p.int32Wrap a) (slots p.accumulatorSlot) i = some (stop, v)) :
    ∃ x, (a.values.length = a.length → x = v) ∧
      Segment (heapOps T proto) b target (source + 1) ⟨target, st, slots, h⟩
        ⟨p.resume, st, afterRound slots p.accumulatorSlot p.induction x a.length, h⟩ := by
  obtain ⟨hacc, ho⟩ := accumulate_eq_some ho
  obtain ⟨hi, -, hfold⟩ := sumOutcome_foldlM hm ho
  have hcount := a.count_le
  have hlen : i + (a.length - i) = a.length := by omega
  have hv := foldlM_isNumeric hacc hfold
  obtain ⟨x, hx⟩ := foldlM_missing hm hv (a.length - max i a.values.length)
  refine ⟨x, ?_, hl.rounds hne hs hlen hacc ?_⟩
  · intro hall
    rw [Nat.sub_eq_zero_of_le (by omega)] at hx
    cases hx
    rfl
  · rw [readings_eq hlen, List.foldlM_append, hfold]
    exact hx

theorem SumLoop.interpreted_holes (hl : SumLoop T proto b p target source)
    (hm : p.mode = .holeySum) (hw : p.int32Wrap = true)
    (hs : AtElement p.arraySlot p.induction slots h o a i)
    (hne : p.accumulatorSlot ≠ ⟨.local, p.induction⟩) {stop : Nat} {v : JSValue}
    (ho : accumulate (holeyOutcome a) (slots p.accumulatorSlot) i = some (stop, v)) :
    Segment (heapOps T proto) b target (source + 1) ⟨target, st, slots, h⟩
      ⟨p.resume, st, afterRound slots p.accumulatorSlot p.induction v a.length, h⟩ := by
  obtain ⟨hacc, ho⟩ := accumulate_eq_some ho
  obtain ⟨hi, -, hfold⟩ := holeyOutcome_foldlM hm hw ho
  have hlen : i + (a.length - i) = a.length := by omega
  refine hl.rounds hne hs hlen hacc ?_
  rw [readings_eq hlen, List.foldlM_append, hfold]
  exact foldlM_holes hm v _

end

theorem initOutcome_spec {p : ArrayProgram} {slots : Slot → JSValue} {a a' : FastArray}
    {i stop : Nat} (ho : initOutcome p slots a i = some (stop, a')) :
    i = a.values.length ∧ limitValue p.limit p.limitSlot slots = .number stop ∧
      initLimit p slots = some (stop : Int) ∧ stop ≤ int32Max ∧ a.extensible = true ∧
      a.lengthWritable = true ∧ ∃ hle, a' = FastArray.fill a stop hle := by
  obtain ⟨limit, hlimit, ho⟩ := Option.bind_eq_some_iff.mp ho
  split at ho
  · cases ho
  rename_i hrange
  split at ho
  · rename_i hguard
    cases ho
    obtain ⟨hi, hle, he, -, hw⟩ := hguard
    have hstop : ((limit.toNat : Nat) : Int) = limit := by omega
    rw [hstop]
    refine ⟨hi, ?_, hlimit, ?_, he, hw, hi ▸ hle, rfl⟩
    · unfold initLimit at hlimit
      unfold limitValue
      cases hslot : p.limitSlot with
      | none =>
        rw [hslot] at hlimit
        obtain rfl := Option.some.inj hlimit
        rfl
      | some slot =>
        rw [hslot] at hlimit
        exact (intValue_eq_some hlimit).1
    · simp only [maximumElements, int32Max] at hrange ⊢
      omega
  · cases ho

theorem AtElement.unique {i o' : Nat} {a' : FastArray} {arraySlot : Slot} {induction : Nat}
    (hs : AtElement arraySlot induction slots h o' a' i) {o : Nat} {a : FastArray}
    (ha : arrayAt h (slots arraySlot) = some (o, a)) : o' = o ∧ a' = a := by
  obtain ⟨harray, hheap⟩ := arrayAt_eq_some ha
  rw [hs.array] at harray
  cases harray
  rw [hs.heap] at hheap
  cases hheap
  exact ⟨rfl, rfl⟩

theorem heapAgrees_of_segment {H : Type} {ops : HeapOps H} {out : HeapExit H} {s : State H}
    {target source : Nat} {slots : Slot → JSValue} {h : H}
    (hseg : Segment ops b target (source + 1) s ⟨out.resume, s.stack, slots, h⟩) :
    (slots = out.slots → h = out.heap → HeapAgrees ops b target source s out) ∧
      ((out.resume < target ∨ source < out.resume) → HeapAgrees ops b target source s out →
        slots = out.slots ∧ h = out.heap) := by
  constructor
  · rintro rfl rfl
    exact hseg
  · intro houtside hagree
    have hsame := Runs.exit_unique hseg hagree (by simp only; omega) (by simp only; omega)
    injection hsame with _ _ hslots hheap
    exact ⟨hslots, hheap⟩

section

variable {target source o : Nat} {a : FastArray} {st : List JSValue}

theorem InitLoop.agrees_iff (hl : InitLoop T proto b p target source) (hm : p.mode = .initIndex)
    (hi : FrameIndexed b ⟨.local, p.induction⟩) (hv : p.induction < b.varCount)
    (ha : arrayAt h (slots p.arraySlot) = some (o, a))
    (hrun : runArrayLoop b p slots h = some out) :
    (ArrayFaithful b p slots a →
      HeapAgrees (heapOps T proto) b target source ⟨target, st, slots, h⟩ out) ∧
    ((p.resume < target ∨ source < p.resume) →
      HeapAgrees (heapOps T proto) b target source ⟨target, st, slots, h⟩ out →
      ArrayFaithful b p slots a) := by
  obtain ⟨o', a', i, hs, hres, hcase⟩ := runArrayLoop_outcome hi hv hrun
  obtain ⟨rfl, rfl⟩ := hs.unique ha
  simp only [hm] at hcase
  obtain ⟨stop, a'', hout, hslots, hheap⟩ := hcase
  obtain ⟨rfl, hlimit, hlimit', hmax, he, hw, hle, rfl⟩ := initOutcome_spec hout
  have hend : Segment (heapOps T proto) b target (source + 1) ⟨target, st, slots, h⟩
      ⟨out.resume, st, out.slots, Function.update h o'
        (some (.array (appendIndices a' (stop - a'.values.length))))⟩ := by
    rw [hslots, hres]
    exact hl.rounds hs (by omega) he hw hlimit
  have hfaithful : ArrayFaithful b p slots a' ↔
      appendIndices a' (stop - a'.values.length) = FastArray.fill a' stop hle := by
    rw [appendIndices_eq_fill_iff hle hmax]
    simp [ArrayFaithful, hm, hi, hlimit']
  obtain ⟨hsuff, hnec⟩ := heapAgrees_of_segment hend
  rw [hfaithful, ← hres]
  constructor
  · intro heq
    exact hsuff rfl (by rw [heq, hheap])
  · intro houtside hagree
    have hsame := congrFun (hnec houtside hagree).2 o'
    rw [hheap, Function.update_self, Function.update_self] at hsame
    injection hsame with hsame
    injection hsame

theorem stored_eq_afterRound {acc : Slot} {induction n : Nat} {v : JSValue}
    (hne : acc ≠ ⟨.local, induction⟩) :
    Function.update (Function.update slots ⟨.local, induction⟩ (.number n)) acc v =
      afterRound slots acc induction v n := by
  rw [afterRound, Function.update_comm hne]

theorem stored_at_end {acc : Slot} {induction n : Nat}
    (hi : slots ⟨.local, induction⟩ = .number n) :
    Function.update (Function.update slots ⟨.local, induction⟩ (.number n)) acc (slots acc) =
      slots := by
  rw [← hi, Function.update_eq_self, Function.update_eq_self]

theorem SumLoop.agrees_sum (hl : SumLoop T proto b p target source) (hm : p.mode = .sum)
    (hi : FrameIndexed b ⟨.local, p.induction⟩) (hacc : FrameIndexed b p.accumulatorSlot)
    (hv : p.induction < b.varCount) (ha : arrayAt h (slots p.arraySlot) = some (o, a))
    (hrun : runArrayLoop b p slots h = some out) :
    (ArrayFaithful b p slots a →
      HeapAgrees (heapOps T proto) b target source ⟨target, st, slots, h⟩ out) ∧
    (p.accumulatorSlot ≠ ⟨.local, p.induction⟩ → (p.resume < target ∨ source < p.resume) →
      HeapAgrees (heapOps T proto) b target source ⟨target, st, slots, h⟩ out →
      ArrayFaithful b p slots a) := by
  obtain ⟨o', a', i, hs, hres, hcase⟩ := runArrayLoop_outcome hi hv hrun
  obtain ⟨rfl, rfl⟩ := hs.unique ha
  simp only [hm] at hcase
  obtain ⟨stop, v, hout, hheap, hslots⟩ := hcase
  have hslots := hslots hacc
  obtain ⟨hle, rfl, hfold⟩ := sumOutcome_foldlM hm (accumulate_eq_some hout).2
  have hend : p.accumulatorSlot ≠ ⟨.local, p.induction⟩ → ∃ x,
      (a'.values.length = a'.length → x = v) ∧
      Segment (heapOps T proto) b target (source + 1) ⟨target, st, slots, h⟩
        ⟨out.resume, st, afterRound slots p.accumulatorSlot p.induction x a'.length, h⟩ := by
    rw [hres]
    exact fun hne => hl.interpreted_sum hm hs hne hout
  simp only [ArrayFaithful, hm]
  constructor
  · rintro ⟨-, -, hall, hcase⟩
    by_cases hne : p.accumulatorSlot = ⟨.local, p.induction⟩
    · have hlast := hcase.resolve_right (fun h => h hne)
      rw [hs.induction] at hlast
      injection hlast with hlast
      rw [List.drop_eq_nil_of_le (by omega)] at hfold
      cases hfold
      have hdone := hl.done st hs (by omega)
      rw [← hres] at hdone
      refine (heapAgrees_of_segment hdone).1 ?_ hheap.symm
      rw [hslots, stored_at_end]
      rw [hs.induction, hall, hlast]
    · obtain ⟨x, hx, hseg⟩ := hend hne
      refine (heapAgrees_of_segment hseg).1 ?_ hheap.symm
      rw [hslots, hx hall, hall, stored_eq_afterRound hne]
  · intro hne houtside hagree
    obtain ⟨x, -, hseg⟩ := hend hne
    rw [← hres] at houtside
    have hsame := congrFun ((heapAgrees_of_segment hseg).2 houtside hagree).1
      ⟨.local, p.induction⟩
    rw [hslots, stored_eq_afterRound hne, afterRound, afterRound, Function.update_self,
      Function.update_self] at hsame
    injection hsame with hsame
    exact ⟨hi, hacc, by omega, .inr hne⟩

theorem SumLoop.agrees_holes (hl : SumLoop T proto b p target source)
    (hm : p.mode = .holeySum) (hw : p.int32Wrap = true)
    (hi : FrameIndexed b ⟨.local, p.induction⟩) (hacc : FrameIndexed b p.accumulatorSlot)
    (hv : p.induction < b.varCount) (ha : arrayAt h (slots p.arraySlot) = some (o, a))
    (hrun : runArrayLoop b p slots h = some out) (hfaithful : ArrayFaithful b p slots a) :
    HeapAgrees (heapOps T proto) b target source ⟨target, st, slots, h⟩ out := by
  obtain ⟨o', a', i, hs, hres, hcase⟩ := runArrayLoop_outcome hi hv hrun
  obtain ⟨rfl, rfl⟩ := hs.unique ha
  simp only [hm] at hcase
  obtain ⟨stop, v, hout, hheap, hslots⟩ := hcase
  have hslots := hslots hacc
  obtain ⟨hle, rfl, hfold⟩ := holeyOutcome_foldlM hm hw (accumulate_eq_some hout).2
  simp only [ArrayFaithful, hm] at hfaithful
  by_cases hne : p.accumulatorSlot = ⟨.local, p.induction⟩
  · have hlast := hfaithful.2.2.resolve_right (fun h => h hne)
    have hcount := a'.count_le
    rw [hs.induction] at hlast
    injection hlast with hlast
    rw [List.drop_eq_nil_of_le (by omega)] at hfold
    cases hfold
    have hdone := hl.done st hs (by omega)
    rw [← hres] at hdone
    refine (heapAgrees_of_segment hdone).1 ?_ hheap.symm
    rw [hslots, stored_at_end]
    rw [hs.induction, hlast]
  · have hseg : Segment (heapOps T proto) b target (source + 1) ⟨target, st, slots, h⟩
        ⟨out.resume, st, afterRound slots p.accumulatorSlot p.induction v a'.length, h⟩ := by
      rw [hres]
      exact hl.interpreted_holes hm hw hs hne hout
    refine (heapAgrees_of_segment hseg).1 ?_ hheap.symm
    rw [hslots, stored_eq_afterRound hne]

end

/-- Array loops: a completed run agrees with the interpreted loop when the runner is faithful on
the array, and on slots that are apart only then. -/
theorem array_loop_agrees_iff (T : ShapeTable S) (proto : Nat → Option (PropFlags × JSValue))
    {target source : Nat} (hp : detectArrayLoop b target source = some p) (st : List JSValue)
    {o : Nat} {a : FastArray} (ha : arrayAt h (slots p.arraySlot) = some (o, a))
    (hrun : runArrayLoop b p slots h = some out) :
    (ArrayFaithful b p slots a →
      HeapAgrees (heapOps T proto) b target source ⟨target, st, slots, h⟩ out) ∧
    (FrameIndexed b ⟨.local, p.induction⟩ →
      (p.mode ≠ .initIndex → FrameIndexed b p.accumulatorSlot ∧
        p.accumulatorSlot ≠ ⟨.local, p.induction⟩) →
      (p.resume < target ∨ source < p.resume) →
      HeapAgrees (heapOps T proto) b target source ⟨target, st, slots, h⟩ out →
      ArrayFaithful b p slots a) := by
  obtain ⟨hv, hloop⟩ := detectArrayLoop_loop T proto hp
  cases hloop with
  | initIndex hm hl =>
    constructor
    · intro hfaithful
      exact (hl.agrees_iff hm hfaithful.1 hv ha hrun).1 hfaithful
    · intro hi _ houtside hagree
      exact (hl.agrees_iff hm hi hv ha hrun).2 houtside hagree
  | sum hm hl =>
    constructor
    · intro hfaithful
      have hacc : FrameIndexed b p.accumulatorSlot := by
        have := hfaithful.2
        simp only [hm] at this
        exact this.1
      exact (hl.agrees_sum hm hfaithful.1 hacc hv ha hrun).1 hfaithful
    · intro hi happart houtside hagree
      obtain ⟨hacc, hne⟩ := happart (by simp [hm])
      exact (hl.agrees_sum hm hi hacc hv ha hrun).2 hne houtside hagree
  | holeySum hm hw hl =>
    constructor
    · intro hfaithful
      have hacc : FrameIndexed b p.accumulatorSlot := by
        have := hfaithful.2
        simp only [hm] at this
        exact this.1
      exact hl.agrees_holes hm hw hfaithful.1 hacc hv ha hrun hfaithful
    · intro hi happart _ _
      obtain ⟨hacc, hne⟩ := happart (by simp [hm])
      simp only [ArrayFaithful, hm]
      exact ⟨hi, hacc, .inr hne⟩

end

/-- `for (; i < a.length; i++) sum = sum + a[i]`. -/
def arraySumLoop : FunctionBytecode where
  code := [97, 0, 0, 206, 240, 166, 241, 21, 205, 206, 97, 0, 0, 70, 157, 17, 209, 14,
    97, 0, 0, 144, 98, 0, 0, 14, 243, 229]
  cpool := []
  argCount := 0
  varCount := 3

def arraySumProgram : ArrayProgram :=
  ⟨.sum, ⟨.local, 2⟩, ⟨.local, 1⟩, 0, none, 0, false, 28⟩

def arraySumSlots : Slot → JSValue
  | ⟨.local, 2⟩ => .object 0
  | _ => .number 0

def oneElement (length : Nat) (h : 1 ≤ length) : FastArray :=
  ⟨[.number 5], length, .packedInt32, true, true, h, by decide⟩

def oneArray (a : FastArray) : Heap (Nat → Option PropFlags)
  | 0 => some (.array a)
  | _ => none

theorem full_array_is_summed :
    detectArrayLoop arraySumLoop 0 26 = some arraySumProgram ∧
      ∃ out, runArrayLoop arraySumLoop arraySumProgram arraySumSlots
          (oneArray (oneElement 1 (Nat.le_refl 1))) = some out ∧
        ArrayFaithful arraySumLoop arraySumProgram arraySumSlots
          (oneElement 1 (Nat.le_refl 1)) ∧
        HeapAgrees (heapOps layoutTable fun _ => none) arraySumLoop 0 26
          ⟨0, [], arraySumSlots, oneArray (oneElement 1 (Nat.le_refl 1))⟩ out := by
  have hp : detectArrayLoop arraySumLoop 0 26 = some arraySumProgram := by decide +kernel
  have hfaithful : ArrayFaithful arraySumLoop arraySumProgram arraySumSlots
      (oneElement 1 (Nat.le_refl 1)) :=
    ⟨by decide, by decide, rfl, .inr (by decide)⟩
  refine ⟨hp, _, rfl, hfaithful, ?_⟩
  exact (array_loop_agrees_iff layoutTable (fun _ => none) hp [] rfl rfl).1 hfaithful

/-- The sum ends at the stored elements where the loop goes on to the length: with one element
stored and a length of two the runner leaves the index 1 and the interpreter 2. -/
theorem missing_element_is_left_out :
    ¬ ∀ (b : FunctionBytecode) (target source : Nat) (p : ArrayProgram) (slots : Slot → JSValue)
      (h : Heap (Nat → Option PropFlags)) (o : Nat) (a : FastArray)
      (out : HeapExit (Heap (Nat → Option PropFlags))),
      detectArrayLoop b target source = some p → arrayAt h (slots p.arraySlot) = some (o, a) →
      runArrayLoop b p slots h = some out →
      HeapAgrees (heapOps layoutTable fun _ => none) b target source ⟨target, [], slots, h⟩
        out := by
  intro hall
  have hp : detectArrayLoop arraySumLoop 0 26 = some arraySumProgram := by decide +kernel
  obtain ⟨out, hrun⟩ : ∃ out, runArrayLoop arraySumLoop arraySumProgram arraySumSlots
      (oneArray (oneElement 2 (by decide))) = some out := ⟨_, rfl⟩
  have hagree := hall _ _ _ _ _ _ _ _ _ hp rfl hrun
  have hvalue : (runArrayLoop arraySumLoop arraySumProgram arraySumSlots
      (oneArray (oneElement 2 (by decide)))).map
      (fun out => (out.resume, out.slots ⟨.local, 0⟩)) = some (28, .number 1) := by
    decide +kernel
  simp only [hrun, Option.map_some, Option.some.injEq, Prod.mk.injEq] at hvalue
  have hadvance := advance_runs (step (heapOps layoutTable fun _ => none) arraySumLoop)
    (fun s => decide (0 ≤ s.pc ∧ s.pc < 27)) 60
    ⟨0, [], arraySumSlots, oneArray (oneElement 2 (by decide))⟩
  simp only [decide_eq_true_eq] at hadvance
  have hend : ((advance (step (heapOps layoutTable fun _ => none) arraySumLoop)
      (fun s => decide (0 ≤ s.pc ∧ s.pc < 27)) 60
      ⟨0, [], arraySumSlots, oneArray (oneElement 2 (by decide))⟩).pc = 28) ∧
      (advance (step (heapOps layoutTable fun _ => none) arraySumLoop)
        (fun s => decide (0 ≤ s.pc ∧ s.pc < 27)) 60
        ⟨0, [], arraySumSlots, oneArray (oneElement 2 (by decide))⟩).slots ⟨.local, 0⟩ =
        .number 2 := by
    decide +kernel
  have hsame := Runs.exit_unique hagree hadvance (by simp only [hvalue.1]; omega)
    (by rw [hend.1]; decide)
  rw [← hsame] at hend
  simp only [hvalue.2] at hend
  exact absurd hend.2 (by decide)

end TurboJS.OSR
