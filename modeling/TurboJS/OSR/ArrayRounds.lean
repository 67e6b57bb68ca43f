import TurboJS.OSR.ArrayLoop

namespace TurboJS.OSR
open Bytecode Foundation

/-! What the interpreter does on the array loops: the header, one round, all rounds. -/

/-- `(x + v) | 0`. -/
def wrapAdd (x v : JSValue) : Option JSValue := do
  let sum ← binary .add x v
  binary .or sum (.number 0)

def ArrayProgram.next (p : ArrayProgram) (x v : JSValue) : Option JSValue :=
  if p.mode = .holeySum ∧ v = .undefined then some x
  else if p.int32Wrap then wrapAdd x v
  else binary .add x v

/-- The elements that `n` rounds read from `i` on. -/
def readings (a : FastArray) (i : Nat) : Nat → List JSValue
  | 0 => []
  | n + 1 => a.get i :: readings a (i + 1) n

def afterRound (slots : Slot → JSValue) (acc : Slot) (induction : Nat) (x : JSValue) (i : Nat) :
    Slot → JSValue :=
  Function.update (Function.update slots acc x) ⟨.local, induction⟩ (.number i)

section

variable {S : Type} {T : ShapeTable S} {proto : Nat → Option (PropFlags × JSValue)}
  {b : FunctionBytecode} {slots : Slot → JSValue} {st : List JSValue} {h : Heap S}

/-- The slots and the heap when the header of a loop over the array `a` is at index `i`. -/
structure AtElement (arraySlot : Slot) (induction : Nat) (slots : Slot → JSValue) (h : Heap S)
    (o : Nat) (a : FastArray) (i : Nat) : Prop where
  array : slots arraySlot = .object o
  heap : h o = some (.array a)
  induction : slots ⟨.local, induction⟩ = .number i

theorem AtElement.slots_ne {arraySlot : Slot} {induction o i : Nat} {a : FastArray}
    (hs : AtElement arraySlot induction slots h o a i) : arraySlot ≠ ⟨.local, induction⟩ := by
  intro he
  have := hs.array
  rw [he, hs.induction] at this
  cases this

variable (T proto) in
theorem lengthHeader_segment {branch : Nat → Option (Int × Nat)}
    (hbranch : ∀ p target q, branch p = some (target, q) →
      ∃ width, decode b.code p = some (.ifFalse target width, q))
    {target : Nat} {header : LengthHeader} (hh : parseLengthHeader branch b target = some header)
    (hr : 0 ≤ header.resume) :
    target < header.body ∧ ∀ {slots : Slot → JSValue} (st : List JSValue) {h : Heap S} {o i : Nat}
      {a : FastArray}, AtElement header.arraySlot header.induction slots h o a i →
      Segment (heapOps T proto) b target header.body ⟨target, st, slots, h⟩
        ⟨if i < a.length then header.body else header.resume.toNat, st, slots, h⟩ := by
  obtain ⟨⟨induction, p1⟩, h1, hh⟩ := Option.bind_eq_some_iff.mp hh
  obtain ⟨⟨arraySlot, p2⟩, h2, hh⟩ := Option.bind_eq_some_iff.mp hh
  obtain ⟨p3, h3, hh⟩ := Option.bind_eq_some_iff.mp hh
  obtain ⟨⟨resume, p4⟩, h4, hh⟩ := Option.bind_eq_some_iff.mp hh
  simp only [Option.some.injEq] at hh
  subst hh
  simp only at hr ⊢
  obtain ⟨form, h2⟩ := parseGetDenseSlot_spells h2
  obtain ⟨width, h4⟩ := hbranch _ _ _ h4
  have hspell := ((parseInduction_spells h1).append h2).append (expectAll_spells h3)
  have hle := hspell.le
  have hlt := decode_lt h4
  refine ⟨by omega, ?_⟩
  intro slots st h o i a hs
  have hstraight : Segment (heapOps T proto) b target p3 ⟨target, st, slots, h⟩
      ⟨p3, .bool (i < a.length) :: st, slots, h⟩ := by
    refine segment_execAll rfl hspell (n := 0) (m := 0) ?_
    simp [execAll, State.push, hs.induction, hs.array, heapOps_getLength hs.heap, numeric]
  have hjump : Segment (heapOps T proto) b p3 p4 ⟨p3, .bool (i < a.length) :: st, slots, h⟩
      ⟨if decide (i < a.length) then p4 else resume.toNat, st, slots, h⟩ :=
    segment_branchFalse hr rfl h4
  simp only [decide_eq_true_eq] at hjump
  exact hstraight.append hjump hle (Nat.le_of_lt hlt)

structure SumLoop (T : ShapeTable S) (proto : Nat → Option (PropFlags × JSValue))
    (b : FunctionBytecode) (p : ArrayProgram) (target source : Nat) : Prop where
  done : ∀ {slots : Slot → JSValue} (st : List JSValue) {h : Heap S} {o i : Nat} {a : FastArray},
    AtElement p.arraySlot p.induction slots h o a i → a.length ≤ i →
    Segment (heapOps T proto) b target (source + 1) ⟨target, st, slots, h⟩
      ⟨p.resume, st, slots, h⟩
  round : ∀ {slots : Slot → JSValue} (st : List JSValue) {h : Heap S} {o i : Nat} {a : FastArray}
    {x : JSValue}, AtElement p.arraySlot p.induction slots h o a i → i < a.length →
    p.accumulatorSlot ≠ ⟨.local, p.induction⟩ → isNumeric (slots p.accumulatorSlot) = true →
    p.next (slots p.accumulatorSlot) (a.get i) = some x →
    Segment (heapOps T proto) b target (source + 1) ⟨target, st, slots, h⟩
      ⟨target, st, afterRound slots p.accumulatorSlot p.induction x (i + 1), h⟩

theorem SumLoop.of_body {target source : Nat} {header : LengthHeader} {p : ArrayProgram}
    (hh : parseLengthHeader (parseIfFalse8 b) b target = some header) (hr : 0 ≤ header.resume)
    (ha : p.arraySlot = header.arraySlot) (hi : p.induction = header.induction)
    (hres : p.resume = header.resume.toNat) (hle : header.body ≤ source)
    (hbody : ∀ {slots : Slot → JSValue} (st : List JSValue) {h : Heap S} {o i : Nat}
      {a : FastArray} {x : JSValue}, AtElement p.arraySlot p.induction slots h o a i →
      p.accumulatorSlot ≠ ⟨.local, p.induction⟩ → isNumeric (slots p.accumulatorSlot) = true →
      p.next (slots p.accumulatorSlot) (a.get i) = some x →
      Segment (heapOps T proto) b header.body (source + 1) ⟨header.body, st, slots, h⟩
        ⟨target, st, afterRound slots p.accumulatorSlot p.induction x (i + 1), h⟩) :
    SumLoop T proto b p target source := by
  obtain ⟨hlt, hseg⟩ := lengthHeader_segment T proto
    (fun _ _ _ hd => ⟨_, parseIfFalse8_decode hd⟩) hh hr
  constructor
  · intro slots st h o i a hs hn
    rw [ha, hi] at hs
    have := hseg st hs
    rw [if_neg (Nat.not_lt.mpr hn), ← hres] at this
    exact this.widen (Nat.le_refl _) (by omega)
  · intro slots st h o i a x hs hn hne hacc hx
    have hs' := hs
    rw [ha, hi] at hs'
    have := hseg st hs'
    rw [if_pos hn] at this
    exact this.append (hbody st hs hne hacc hx) (Nat.le_of_lt hlt) (by omega)

theorem parseWrap_spells {q q' : Nat} {wrap : Bool} (h : parseWrap b q = (wrap, q')) :
    Spells b.code q (if wrap then [.pushShort 0, .plain .or] else []) q' := by
  unfold parseWrap at h
  split at h
  · rename_i hp
    cases h
    exact expectAll_spells hp
  · cases h
    rfl

theorem parseBackEdge8_decode {target source q : Nat}
    (h : parseBackEdge8 b target source q = some ()) :
    q = source ∧ ∃ next, decode b.code source = some (.goto target .w8, next) := by
  unfold parseBackEdge8 at h
  split at h
  · rename_i hq
    obtain ⟨next, hd, -⟩ := Option.bind_eq_some_iff.mp h
    exact ⟨hq, next, hq ▸ expect_decode hd⟩
  · cases h

theorem isNumeric_ne {v : JSValue} (h : isNumeric v = true) :
    v ≠ .uninitialized ∧ v ≠ .undefined ∧ ∀ o, v ≠ .object o := by
  cases v <;> simp_all [isNumeric]

section

variable {p q o i : Nat} {a : FastArray} {acc arraySlot : Slot} {induction : Nat}

theorem segment_addElement {form form' : Form} {v : JSValue}
    (hcode : Spells b.code p [.get acc form, .get arraySlot form',
      .get ⟨.local, induction⟩ .check, .plain .getArrayEl, .plain .add] q)
    (hs : AtElement arraySlot induction slots h o a i) (hacc : slots acc ≠ .uninitialized)
    (hv : binary .add (slots acc) (a.get i) = some v) :
    Segment (heapOps T proto) b p q ⟨p, st, slots, h⟩ ⟨q, v :: st, slots, h⟩ := by
  refine segment_execAll rfl hcode (n := 0) (m := 0) ?_
  simp [execAll, State.push, hs.induction, hs.array, heapOps_getArrayEl hs.heap, hacc, hv]

theorem segment_orZero {v x : JSValue} (hcode : Spells b.code p [.pushShort 0, .plain .or] q)
    (hx : binary .or v (.number 0) = some x) :
    Segment (heapOps T proto) b p q ⟨p, v :: st, slots, h⟩ ⟨q, x :: st, slots, h⟩ := by
  refine segment_execAll rfl hcode (n := 0) (m := 0) ?_
  simp [execAll, State.push, hx]

theorem segment_storeRound {r : Nat} {form : Form} {x : JSValue}
    (hstore : Spells b.code p [.plain .dup, .put acc form, .plain .drop] q)
    (hinc : Spells b.code q (increment induction) r) (hne : acc ≠ ⟨.local, induction⟩)
    (hacc : slots acc ≠ .uninitialized) (hi : slots ⟨.local, induction⟩ = .number i) :
    Segment (heapOps T proto) b p r ⟨p, x :: st, slots, h⟩
      ⟨r, st, afterRound slots acc induction x (i + 1), h⟩ := by
  have hi' : Function.update slots acc x ⟨.local, induction⟩ = .number i := by
    rw [Function.update_of_ne hne.symm, hi]
  have hput : Segment (heapOps T proto) b p q ⟨p, x :: st, slots, h⟩
      ⟨q, st, Function.update slots acc x, h⟩ := segment_store hstore hacc
  have := hput.append (segment_increment hinc hi') hstore.le hinc.le
  simpa [afterRound] using this

end

variable (T proto) in
theorem detectDenseArraySumLoop_loop {target source : Nat} {p : ArrayProgram}
    (hp : detectDenseArraySumLoop b target source = some p) :
    p.mode = .sum ∧ p.induction < b.varCount ∧ SumLoop T proto b p target source := by
  unfold detectDenseArraySumLoop at hp
  split at hp
  case isFalse => cases hp
  obtain ⟨header, hh, hp⟩ := Option.bind_eq_some_iff.mp hp
  obtain ⟨⟨acc, p1⟩, h1, hp⟩ := Option.bind_eq_some_iff.mp hp
  obtain ⟨p2, h2, hp⟩ := Option.bind_eq_some_iff.mp hp
  obtain ⟨p3, h3, hp⟩ := Option.bind_eq_some_iff.mp hp
  rcases hw : parseWrap b p3 with ⟨wrap, p4⟩
  simp only [hw] at hp
  obtain ⟨p5, h5, hp⟩ := Option.bind_eq_some_iff.mp hp
  obtain ⟨p6, h6, hp⟩ := Option.bind_eq_some_iff.mp hp
  obtain ⟨p7, h7, hp⟩ := Option.bind_eq_some_iff.mp hp
  obtain ⟨u, h8, hout⟩ := Option.bind_eq_some_iff.mp hp
  split at hout
  case isFalse => cases hout
  rename_i hvalid
  simp only [Option.some.injEq] at hout
  simp only [validLoop, decide_eq_true_eq] at hvalid
  obtain ⟨form1, h1⟩ := parseGetDenseSlot_spells h1
  obtain ⟨form2, h2⟩ := parseGetDenseSlotOf_spells h2
  obtain ⟨form6, h6⟩ := parsePutDenseSlot_spells h6
  obtain ⟨rfl, next, hgoto⟩ := parseBackEdge8_decode h8
  obtain ⟨q, hdrop, hinc⟩ := expectAll_spells h7
  have hread := (h1.append h2).append (expectAll_spells h3)
  have hwrap := parseWrap_spells hw
  have hstore := ((expectAll_spells h5).append h6).append (.single hdrop)
  have hle1 := hread.le
  have hle2 := hwrap.le
  have hle3 := hstore.le
  have hle4 := hinc.le
  subst hout
  refine ⟨rfl, hvalid.2.2, .of_body hh hvalid.1 rfl rfl rfl (by omega) ?_⟩
  intro slots st h o i a x hs hne hacc hx
  simp only at hs hne hacc hx ⊢
  obtain ⟨hinit, -⟩ := isNumeric_ne hacc
  have hvalue : Segment (heapOps T proto) b header.body p4 ⟨header.body, st, slots, h⟩
      ⟨p4, x :: st, slots, h⟩ := by
    simp only [ArrayProgram.next, reduceCtorEq, false_and, if_false] at hx
    cases wrap with
    | false =>
      cases hwrap
      exact segment_addElement hread hs hinit hx
    | true =>
      obtain ⟨v, hv, hx⟩ := Option.bind_eq_some_iff.mp hx
      exact (segment_addElement hread hs hinit hv).append (segment_orZero hwrap hx) hle1 hle2
  have hround := hvalue.append (segment_storeRound hstore hinc hne hinit hs.induction)
    (by omega) (by omega)
  exact hround.append (segment_backEdge hgoto) (by omega) (Nat.le_succ _)

theorem segment_isPresent {p q o i : Nat} {a : FastArray} {arraySlot : Slot} {induction : Nat}
    {form : Form}
    (hcode : Spells b.code p [.get arraySlot form, .get ⟨.local, induction⟩ .check,
      .plain .getArrayEl, .getVar atomUndefined, .plain .strictNeq] q)
    (hs : AtElement arraySlot induction slots h o a i) :
    Segment (heapOps T proto) b p q ⟨p, st, slots, h⟩
      ⟨q, .bool (a.get i ≠ .undefined) :: st, slots, h⟩ := by
  refine segment_execAll rfl hcode (n := 0) (m := 0) ?_
  have hpresent : binary .strictNeq (a.get i) .undefined =
      some (.bool !decide (a.get i = .undefined)) := by
    by_cases hv : a.get i = .undefined <;> simp [binary, hv]
  simp [execAll, State.push, hs.induction, hs.array, heapOps_getArrayEl hs.heap, heapOps_getVar,
    hpresent]

variable (T proto) in
theorem detectHoleyArraySumLoop_loop {target source : Nat} {p : ArrayProgram}
    (hp : detectHoleyArraySumLoop b target source = some p) :
    p.mode = .holeySum ∧ p.int32Wrap = true ∧ p.induction < b.varCount ∧
      SumLoop T proto b p target source := by
  unfold detectHoleyArraySumLoop at hp
  split at hp
  case isFalse => cases hp
  obtain ⟨header, hh, hp⟩ := Option.bind_eq_some_iff.mp hp
  obtain ⟨p1, h1, hp⟩ := Option.bind_eq_some_iff.mp hp
  obtain ⟨p2, h2, hp⟩ := Option.bind_eq_some_iff.mp hp
  obtain ⟨⟨skip, p3⟩, h3, hp⟩ := Option.bind_eq_some_iff.mp hp
  obtain ⟨⟨acc, p4⟩, h4, hp⟩ := Option.bind_eq_some_iff.mp hp
  obtain ⟨p5, h5, hp⟩ := Option.bind_eq_some_iff.mp hp
  obtain ⟨p6, h6, hp⟩ := Option.bind_eq_some_iff.mp hp
  obtain ⟨p7, h7, hp⟩ := Option.bind_eq_some_iff.mp hp
  obtain ⟨p8, h8, hp⟩ := Option.bind_eq_some_iff.mp hp
  split at hp
  case isFalse => cases hp
  rename_i hskip
  obtain ⟨p9, h9, hp⟩ := Option.bind_eq_some_iff.mp hp
  obtain ⟨u, h10, hout⟩ := Option.bind_eq_some_iff.mp hp
  split at hout
  case isFalse => cases hout
  rename_i hvalid
  simp only [Option.some.injEq] at hout
  simp only [validLoop, decide_eq_true_eq] at hvalid
  obtain ⟨form1, h1⟩ := parseGetDenseSlotOf_spells h1
  obtain ⟨form4, h4⟩ := parseGetDenseSlot_spells h4
  obtain ⟨form5, h5⟩ := parseGetDenseSlotOf_spells h5
  obtain ⟨form7, h7⟩ := parsePutDenseSlot_spells h7
  obtain ⟨rfl, next, hgoto⟩ := parseBackEdge8_decode h10
  -- The list up to the store falls into the sum, its wrap and the store.
  obtain ⟨q1, hd1, q2, hd2, q3, hadd, q4, hd4, q5, hor, hdup⟩ := expectAll_spells h6
  have hpresent := h1.append (expectAll_spells h2)
  have hread := ((h4.append h5).append (.single hd1)).append ((Spells.single hd2).append (.single hadd))
  have hwrap := (Spells.single hd4).append (.single hor)
  have hstore := (Spells.append hdup h7).append (expectAll_spells h8)
  have hinc := expectAll_spells h9
  have hbranch := parseIfFalse8_decode h3
  have hle1 := hpresent.le
  have hle2 := decode_lt hbranch
  have hle3 := hread.le
  have hle4 := hwrap.le
  have hle5 := hstore.le
  have hle6 := hinc.le
  subst hout
  refine ⟨rfl, rfl, hvalid.2.2, .of_body hh hvalid.1 rfl rfl rfl (by omega) ?_⟩
  intro slots st h o i a x hs hne hacc hx
  simp only at hs hne hacc hx ⊢
  obtain ⟨hinit, -⟩ := isNumeric_ne hacc
  have htest : Segment (heapOps T proto) b header.body p3 ⟨header.body, st, slots, h⟩
      ⟨if decide (a.get i ≠ .undefined) then p3 else skip.toNat, st, slots, h⟩ :=
    (segment_isPresent hpresent hs).append (segment_branchFalse (by omega) rfl hbranch)
      hle1 (Nat.le_of_lt hle2)
  have hround : Segment (heapOps T proto) b header.body p9 ⟨header.body, st, slots, h⟩
      ⟨p9, st, afterRound slots acc header.induction x (i + 1), h⟩ := by
    by_cases hv : a.get i = .undefined
    · simp only [ArrayProgram.next, hv, true_and, if_true, Option.some.injEq] at hx
      simp only [hv, ne_eq, not_true_eq_false, decide_false, Bool.false_eq_true, if_false,
        ← hskip, Int.toNat_natCast] at htest
      have hsame : Function.update slots acc x = slots := by
        rw [← hx, Function.update_eq_self]
      rw [afterRound, hsame]
      exact (htest.widen (Nat.le_refl _) (by omega)).append
        (segment_increment hinc hs.induction) (by omega) hle6
    · simp only [ArrayProgram.next, hv, and_false, if_false, if_true] at hx
      simp only [ne_eq, hv, not_false_eq_true, decide_true, if_true] at htest
      obtain ⟨v, hv, hx⟩ := Option.bind_eq_some_iff.mp hx
      have hsum : Segment (heapOps T proto) b p3 q3 ⟨p3, st, slots, h⟩ ⟨q3, v :: st, slots, h⟩ :=
        segment_addElement hread hs hinit hv
      have hvalue := hsum.append (segment_orZero hwrap hx) hle3 hle4
      exact (htest.append hvalue (by omega) (by omega)).append
        (segment_storeRound hstore hinc hne hinit hs.induction) (by omega) (by omega)
  exact hround.append (segment_backEdge hgoto) (by omega) (Nat.le_succ _)

theorem binary_add_isNumeric {x v y : JSValue} (h : binary .add x v = some y) :
    isNumeric y = true := by
  cases x <;> cases v <;> simp_all [binary, numeric, toNumber, numericNaN] <;> subst h <;> rfl

theorem binary_or_isNumeric {x v y : JSValue} (h : binary .or x v = some y) :
    isNumeric y = true := by
  cases x <;> cases v <;> simp_all [binary, numeric, toNumber, numericNaN] <;> subst h <;> rfl

theorem ArrayProgram.next_isNumeric {p : ArrayProgram} {x v y : JSValue}
    (hx : isNumeric x = true) (h : p.next x v = some y) : isNumeric y = true := by
  unfold ArrayProgram.next at h
  split at h
  · cases h
    exact hx
  · split at h
    · obtain ⟨s, -, hy⟩ := Option.bind_eq_some_iff.mp h
      exact binary_or_isNumeric hy
    · exact binary_add_isNumeric h

section

variable {acc arraySlot : Slot} {induction o i : Nat} {a : FastArray}

theorem afterRound_accumulator (hne : acc ≠ ⟨.local, induction⟩) (x : JSValue) (n : Nat) :
    afterRound slots acc induction x n acc = x := by
  rw [afterRound, Function.update_of_ne hne, Function.update_self]

theorem afterRound_afterRound (hne : acc ≠ ⟨.local, induction⟩) (x y : JSValue) (m n : Nat) :
    afterRound (afterRound slots acc induction x m) acc induction y n =
      afterRound slots acc induction y n := by
  simp only [afterRound]
  rw [Function.update_comm hne.symm, Function.update_idem, Function.update_idem]

theorem AtElement.afterRound (hs : AtElement arraySlot induction slots h o a i)
    (hacc : isNumeric (slots acc) = true) (x : JSValue) (n : Nat) :
    AtElement arraySlot induction (afterRound slots acc induction x n) h o a n where
  array := by
    have hne : arraySlot ≠ acc := by
      rintro rfl
      exact (isNumeric_ne hacc).2.2 o hs.array
    rw [OSR.afterRound, Function.update_of_ne hs.slots_ne, Function.update_of_ne hne, hs.array]
  heap := hs.heap
  induction := Function.update_self ..

end

theorem SumLoop.rounds {p : ArrayProgram} {target source o : Nat} {a : FastArray}
    (hl : SumLoop T proto b p target source) (hne : p.accumulatorSlot ≠ ⟨.local, p.induction⟩)
    {n i : Nat} {x : JSValue} (hs : AtElement p.arraySlot p.induction slots h o a i)
    (hn : i + n = a.length) (hacc : isNumeric (slots p.accumulatorSlot) = true)
    (hx : (readings a i n).foldlM p.next (slots p.accumulatorSlot) = some x) :
    Segment (heapOps T proto) b target (source + 1) ⟨target, st, slots, h⟩
      ⟨p.resume, st, afterRound slots p.accumulatorSlot p.induction x a.length, h⟩ := by
  induction n generalizing slots i with
  | zero =>
    simp only [readings, List.foldlM_nil, Option.pure_def, Option.some.injEq] at hx
    have hend : afterRound slots p.accumulatorSlot p.induction x a.length = slots := by
      rw [afterRound, ← hx, Function.update_eq_self, ← hn, Nat.add_zero, ← hs.induction,
        Function.update_eq_self]
    rw [hend]
    exact hl.done st hs (by omega)
  | succ n ih =>
    rw [readings, List.foldlM_cons] at hx
    obtain ⟨y, hy, hx⟩ := Option.bind_eq_some_iff.mp hx
    have hround := hl.round st hs (by omega) hne hacc hy
    have hrest := ih (hs.afterRound hacc y (i + 1)) (by omega)
      (by
        rw [afterRound_accumulator hne]
        exact ArrayProgram.next_isNumeric hacc hy)
      (by
        rw [afterRound_accumulator hne]
        exact hx)
    rw [afterRound_afterRound hne] at hrest
    exact hround.trans hrest

def limitValue (limit : Int) (limitSlot : Option Slot) (slots : Slot → JSValue) : JSValue :=
  match limitSlot with
  | none => .number limit
  | some slot => slots slot

structure InitLoop (T : ShapeTable S) (proto : Nat → Option (PropFlags × JSValue))
    (b : FunctionBytecode) (p : ArrayProgram) (target source : Nat) : Prop where
  done : ∀ {slots : Slot → JSValue} (st : List JSValue) {h : Heap S} {i : Nat} {limit : Int},
    slots ⟨.local, p.induction⟩ = .number i → limitValue p.limit p.limitSlot slots = .number limit →
    limit ≤ i →
    Segment (heapOps T proto) b target (source + 1) ⟨target, st, slots, h⟩
      ⟨p.resume, st, slots, h⟩
  round : ∀ {slots : Slot → JSValue} (st : List JSValue) {h : Heap S} {o i : Nat}
    {a a' : FastArray} {limit : Int}, AtElement p.arraySlot p.induction slots h o a i →
    limitValue p.limit p.limitSlot slots = .number limit → i < limit → a.put i (.number i) = some a' →
    Segment (heapOps T proto) b target (source + 1) ⟨target, st, slots, h⟩
      ⟨target, st, Function.update slots ⟨.local, p.induction⟩ (.number (i + 1 : Nat)),
        Function.update h o (some (.array a'))⟩

theorem parseInitLimit_spells {p q : Nat} {limit : Int} {limitSlot : Option Slot}
    (h : parseInitLimit b p = some (limit, limitSlot, q)) :
    ∃ i, Spells b.code p [i] q ∧ i.straight = true ∧
      ∀ (ops : HeapOps (Heap S)) (s : State (Heap S)) (n : Nat) (m : Int),
        limitValue limit limitSlot s.slots = .number m →
        exec ops b.cpool i s n = some (s.push (.number m) n) := by
  unfold parseInitLimit at h
  split at h
  · rename_i hd
    cases h
    refine ⟨_, .single hd, rfl, ?_⟩
    intro ops s n m hm
    simp only [limitValue] at hm
    simp [exec, hm]
  · obtain ⟨⟨slot, q'⟩, hg, h⟩ := Option.map_eq_some_iff.mp h
    cases h
    obtain ⟨form, hg⟩ := parseGetDenseSlot_spells hg
    refine ⟨_, hg, rfl, ?_⟩
    intro ops s n m hm
    simp only [limitValue] at hm
    simp [exec, hm]

theorem parseIfTrue8_decode {p q : Nat} (h : parseIfTrue8 b p = some q) :
    ∃ target, decode b.code p = some (.ifTrue target .w8, q) := by
  unfold parseIfTrue8 at h
  split at h
  · rename_i hd
    cases h
    exact ⟨_, hd⟩
  · cases h

variable (T proto) in
theorem detectDenseArrayInitLoop_loop {target source : Nat} {p : ArrayProgram}
    (hp : detectDenseArrayInitLoop b target source = some p) :
    p.mode = .initIndex ∧ p.induction < b.varCount ∧ InitLoop T proto b p target source := by
  unfold detectDenseArrayInitLoop at hp
  split at hp
  case isFalse => cases hp
  obtain ⟨⟨induction, p1⟩, h1, hp⟩ := Option.bind_eq_some_iff.mp hp
  obtain ⟨⟨limit, limitSlot, p2⟩, h2, hp⟩ := Option.bind_eq_some_iff.mp hp
  obtain ⟨p3, h3, hp⟩ := Option.bind_eq_some_iff.mp hp
  obtain ⟨⟨resume, p4⟩, h4, hp⟩ := Option.bind_eq_some_iff.mp hp
  obtain ⟨⟨arraySlot, p5⟩, h5, hp⟩ := Option.bind_eq_some_iff.mp hp
  obtain ⟨p6, h6, hp⟩ := Option.bind_eq_some_iff.mp hp
  obtain ⟨p7, h7, hp⟩ := Option.bind_eq_some_iff.mp hp
  obtain ⟨p8, h8, hp⟩ := Option.bind_eq_some_iff.mp hp
  obtain ⟨u, h9, hout⟩ := Option.bind_eq_some_iff.mp hp
  split at hout
  case isFalse => cases hout
  rename_i hvalid
  simp only [Option.some.injEq] at hout
  simp only [validLoop, decide_eq_true_eq] at hvalid
  obtain ⟨i2, h2, hstraight, hpush⟩ := parseInitLimit_spells (S := S) h2
  obtain ⟨form, h5⟩ := parseGetDenseSlot_spells h5
  obtain ⟨target7, h7⟩ := parseIfTrue8_decode h7
  obtain ⟨rfl, next, hgoto⟩ := parseBackEdge8_decode h9
  have hheader := ((parseInduction_spells h1).append h2).append (expectAll_spells h3)
  have hguard := h5.append (expectAll_spells h6)
  have hbody := expectAll_spells h8
  have hbranch := parseIfFalse8_decode h4
  have hle1 := hheader.le
  have hle2 := decode_lt hbranch
  have hle3 := hguard.le
  have hle4 := decode_lt h7
  have hle5 := hbody.le
  subst hout
  have hhead : ∀ {slots : Slot → JSValue} (st : List JSValue) {h : Heap S} {i : Nat} {m : Int},
      slots ⟨.local, induction⟩ = .number i →
      limitValue limit limitSlot slots = .number m →
      Segment (heapOps T proto) b target p4 ⟨target, st, slots, h⟩
        ⟨if decide ((i : Int) < m) then p4 else resume.toNat, st, slots, h⟩ := by
    intro slots st h i m hi hm
    have htest : Segment (heapOps T proto) b target p3 ⟨target, st, slots, h⟩
        ⟨p3, .bool ((i : Int) < m) :: st, slots, h⟩ := by
      have hall : List.all [.get ⟨.local, induction⟩ .check, i2, .plain .lt] Insn.straight = true := by
        simp only [List.all_cons, hstraight]
        rfl
      refine segment_execAll hall hheader (n := 0) (m := 0) ?_
      have hget : exec (heapOps T proto) b.cpool (.get ⟨.local, induction⟩ .check)
          ⟨0, st, slots, h⟩ 0 = some ⟨0, .number i :: st, slots, h⟩ := by
        simp [State.push, hi]
      have hlimit := hpush (heapOps T proto) ⟨0, .number i :: st, slots, h⟩ 0 m hm
      simp only [execAll, hget, hlimit, Option.bind_some, State.push]
      simp [numeric]
    exact htest.append (segment_branchFalse hvalid.1.1 rfl hbranch) hle1 (Nat.le_of_lt hle2)
  refine ⟨rfl, hvalid.1.2.2, ?_, ?_⟩
  · intro slots st h i m hi hm hle
    have := hhead st (h := h) hi hm
    simp only [decide_eq_true_eq, if_neg (Int.not_lt.mpr hle)] at this
    exact this.widen (Nat.le_refl _) (by omega)
  · intro slots st h o i a a' m hs hm hlt ha
    have hcond := hhead st (h := h) hs.induction hm
    simp only [decide_eq_true_eq, if_pos hlt] at hcond
    have hput : (heapOps T proto).putArrayEl h (.object o) (.number i) (.number i) =
        some (Function.update h o (some (.array a'))) := by
      simp [heapOps, hs.heap, ha]
    have hload : Segment (heapOps T proto) b p4 p6 ⟨p4, st, slots, h⟩
        ⟨p6, .bool false :: .object o :: .number i :: st, slots, h⟩ := by
      refine segment_execAll rfl hguard (n := 0) (m := 0) ?_
      simp [execAll, State.push, hs.induction, hs.array]
    have hskip : Segment (heapOps T proto) b p6 p7
        ⟨p6, .bool false :: .object o :: .number i :: st, slots, h⟩
        ⟨p7, .object o :: .number i :: st, slots, h⟩ := segment_branchTrue_not rfl h7
    have hstore : Segment (heapOps T proto) b p7 p8 ⟨p7, .object o :: .number i :: st, slots, h⟩
        ⟨p8, st, Function.update slots ⟨.local, induction⟩ (.number (i + 1 : Nat)),
          Function.update h o (some (.array a'))⟩ := by
      refine segment_execAll rfl hbody (n := 0) (m := 0) ?_
      simp [execAll, increment, State.push, hs.induction, hput]
    have hround := ((hcond.append hload (by omega) (by omega)).append hskip (by omega)
      (by omega)).append hstore (by omega) (by omega)
    exact hround.append (segment_backEdge hgoto) (by omega) (Nat.le_succ _)

/-- An array to which `n` rounds have appended their indices. -/
def appendIndices (a : FastArray) : Nat → FastArray
  | 0 => a
  | n + 1 => appendIndices (a.append (.number a.values.length) (by simp)) n

theorem FastArray.put_end {a : FastArray} (he : a.extensible = true)
    (hw : a.lengthWritable = true) :
    a.put a.values.length (.number a.values.length) =
      some (a.append (.number a.values.length) (by simp)) := by
  simp [FastArray.put, he, hw]

theorem InitLoop.rounds {p : ArrayProgram} {target source o : Nat} {a : FastArray}
    (hl : InitLoop T proto b p target source) {n limit : Nat}
    (hs : AtElement p.arraySlot p.induction slots h o a a.values.length)
    (hn : a.values.length + n = limit) (he : a.extensible = true) (hw : a.lengthWritable = true)
    (hlimit : limitValue p.limit p.limitSlot slots = .number limit) :
    Segment (heapOps T proto) b target (source + 1) ⟨target, st, slots, h⟩
      ⟨p.resume, st, Function.update slots ⟨.local, p.induction⟩ (.number limit),
        Function.update h o (some (.array (appendIndices a n)))⟩ := by
  induction n generalizing slots h a with
  | zero =>
    obtain rfl : a.values.length = limit := hn
    rw [appendIndices, ← hs.heap, Function.update_eq_self, ← hs.induction,
      Function.update_eq_self]
    exact hl.done st hs.induction hlimit (Int.le_refl _)
  | succ n ih =>
    have hround := hl.round st hs hlimit (by omega) (FastArray.put_end he hw)
    have hlimit' : limitValue p.limit p.limitSlot
        (Function.update slots ⟨.local, p.induction⟩ (.number (a.values.length + 1 : Nat))) =
        .number limit := by
      unfold limitValue at hlimit ⊢
      split at hlimit
      · exact hlimit
      · rename_i slot _
        -- The limit is above the index, so its slot is not that of the induction variable.
        have hne : slot ≠ ⟨.local, p.induction⟩ := by
          rintro rfl
          rw [hs.induction] at hlimit
          injection hlimit with hlimit
          omega
        simp only [Function.update_of_ne hne, hlimit]
    have hs' : AtElement p.arraySlot p.induction
        (Function.update slots ⟨.local, p.induction⟩ (.number (a.values.length + 1 : Nat)))
        (Function.update h o (some (.array (a.append (.number a.values.length) (by simp))))) o
        (a.append (.number a.values.length) (by simp))
        (a.append (.number a.values.length) (by simp)).values.length :=
      ⟨by rw [Function.update_of_ne hs.slots_ne, hs.array], by rw [Function.update_self],
        by simp [FastArray.append]⟩
    have hrest := ih hs' (by simp [FastArray.append]; omega) he hw hlimit'
    simp only [Function.update_idem] at hrest
    exact hround.trans hrest

end

end TurboJS.OSR
