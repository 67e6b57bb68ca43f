import TurboJS.OSR.ClosedForm
import Mathlib.Data.List.Nodup

namespace TurboJS.OSR
open Bytecode Foundation

/-! Recurrence loops: the interpreted body, the runner, and where they agree. -/

variable {H : Type} (ops : HeapOps H) {b : FunctionBytecode}

/-- The slot of the `k`-th accumulator. -/
def slotAt (items : List ScalarIntAccumulator) (k : Nat) : Slot :=
  match items[k]? with
  | some item => item.slot
  | none => ⟨.local, 0⟩

def updates (induction : Nat) (slotOf : Nat → Slot) (items : List ScalarIntAccumulator)
    (w : Slot → BitVec 32) : Slot → BitVec 32 :=
  items.foldl (fun w item => item.update induction slotOf w) w

theorem sourceIndex_slot {known : List ScalarIntAccumulator} {current slot : Slot} {k : Nat}
    (h : sourceIndex known current slot = some k) (item : ScalarIntAccumulator)
    (hi : item.slot = current) (rest : List ScalarIntAccumulator) :
    slotAt (known ++ item :: rest) k = slot := by
  unfold sourceIndex at h
  split at h
  · rename_i j hj
    simp only [Option.some.injEq] at h
    subst h
    obtain ⟨hlt, hslot, -⟩ := List.findIdx?_eq_some_iff_getElem.mp hj
    simp only [decide_eq_true_eq] at hslot
    simp [slotAt, List.getElem?_append_left hlt, List.getElem?_eq_getElem hlt, hslot]
  · split at h
    · rename_i hs
      simp only [Option.some.injEq] at h
      subst h
      simp [slotAt, hs, hi]
    · cases h

theorem parseTerm_segment {induction p q : Nat} {known : List ScalarIntAccumulator}
    {current : Slot} {term : Term} (hp : parseTerm b induction known current p = some (term, q)) :
    p < q ∧ ∀ (item : ScalarIntAccumulator) (rest : List ScalarIntAccumulator)
      (st : List JSValue) (w : Slot → BitVec 32) (h : H), item.slot = current →
      ∃ n, toBits n = term.value induction (slotAt (known ++ item :: rest)) w ∧
        Segment ops b p q (onFrame p st w h) (onFrame q (.number n :: st) w h) := by
  unfold parseTerm at hp
  split at hp
  · rename_i r hr
    simp only [Option.some.injEq] at hp
    subst hp
    obtain ⟨hlt, hs⟩ := parseBranchTerm_segment ops hr
    exact ⟨hlt, fun item rest st w h _ => hs _ st w h⟩
  · simp only [Option.bind_eq_bind, Option.bind_eq_some_iff] at hp
    obtain ⟨⟨slot, q'⟩, hg, k, hk, he⟩ := hp
    simp only [Option.some.injEq, Prod.mk.injEq] at he
    obtain ⟨rfl, rfl⟩ := he
    obtain ⟨form, hd⟩ := parseGetScalarSlot_decode hg
    refine ⟨decode_lt hd, ?_⟩
    intro item rest st w h hi
    refine ⟨(w slot).toInt, ?_, segment_get hd⟩
    simp [Term.value, sourceIndex_slot hk item hi rest, toBits_toInt]

theorem parseRecurrence_segment {induction p q : Nat} {known : List ScalarIntAccumulator}
    {current : Slot} {item : ScalarIntAccumulator}
    (hp : parseRecurrence b induction known current p = some (item, q)) :
    p < q ∧ ∀ (rest : List ScalarIntAccumulator) (st : List JSValue) (w : Slot → BitVec 32)
      (h : H), Segment ops b p q (onFrame p (ofBits (w current) :: st) w h)
        (onFrame q st (item.update induction (slotAt (known ++ item :: rest)) w) h) := by
  simp only [parseRecurrence, Option.bind_eq_bind, Option.bind_eq_some_iff] at hp
  obtain ⟨⟨term, p1⟩, ht, hu⟩ := hp
  obtain ⟨h1, hs1⟩ := parseTerm_segment ops ht
  obtain ⟨h2, hslot, hs2⟩ := parseUpdate_segment ops hu
  refine ⟨by omega, ?_⟩
  intro rest st w h
  obtain ⟨n, hn, hsn⟩ := hs1 item rest (ofBits (w current) :: st) w h hslot
  exact hsn.append (hs2 n induction _ st w h hn) (by omega) (by omega)

/-- The recurrences run in order; the value that was pushed for one that does not parse
stays on the stack. -/
theorem parseRecurrences_segment {induction : Nat} {fuel : Nat}
    {known items : List ScalarIntAccumulator} {current : Slot} {p q : Nat}
    (hp : parseRecurrences b induction fuel known current p = (items, q)) :
    p ≤ q ∧ ∃ new, items = known ++ new ∧
      ∀ (st : List JSValue) (w : Slot → BitVec 32) (h : H), ∃ st',
        Segment ops b p q (onFrame p (ofBits (w current) :: st) w h)
          (onFrame q st' (updates induction (slotAt items) new w) h) := by
  induction fuel generalizing known current p with
  | zero =>
    simp only [parseRecurrences, Prod.mk.injEq] at hp
    obtain ⟨rfl, rfl⟩ := hp
    exact ⟨Nat.le_refl _, [], by simp, fun st w h => ⟨_, .refl _⟩⟩
  | succ fuel ih =>
    unfold parseRecurrences at hp
    split at hp
    · simp only [Prod.mk.injEq] at hp
      obtain ⟨rfl, rfl⟩ := hp
      exact ⟨Nat.le_refl _, [], by simp, fun st w h => ⟨_, .refl _⟩⟩
    · rename_i item q1 hr
      obtain ⟨h1, hs1⟩ := parseRecurrence_segment ops hr
      -- The body ends behind this record when no further slot is pushed.
      have hstop : (known ++ [item], q1) = (items, q) → p ≤ q ∧ ∃ new, items = known ++ new ∧
          ∀ (st : List JSValue) (w : Slot → BitVec 32) (h : H), ∃ st',
            Segment ops b p q (onFrame p (ofBits (w current) :: st) w h)
              (onFrame q st' (updates induction (slotAt items) new w) h) := by
        intro he
        simp only [Prod.mk.injEq] at he
        obtain ⟨rfl, rfl⟩ := he
        exact ⟨by omega, [item], rfl, fun st w h => ⟨st, hs1 [] st w h⟩⟩
      split at hp
      · exact hstop hp
      · rename_i next peek hg
        split at hp
        · exact hstop hp
        · obtain ⟨form, hd⟩ := parseGetScalarSlot_decode hg
          have h2 := decode_lt hd
          obtain ⟨h3, new, hnew, hs3⟩ := ih hp
          have hitems : items = known ++ item :: new := by simp [hnew]
          refine ⟨by omega, item :: new, hitems, ?_⟩
          intro st w h
          have hfirst := hs1 new st w h
          rw [← hitems] at hfirst
          obtain ⟨st', hrest⟩ := hs3 st (item.update induction (slotAt items) w) h
          have hget : Segment ops b q1 peek
              (onFrame q1 st (item.update induction (slotAt items) w) h) _ := segment_get hd
          refine ⟨st', ?_⟩
          exact (hfirst.append hget (by omega) (by omega)).append hrest (by omega) (by omega)

theorem recurrenceBody_implements {induction p : Nat} {body : ScalarBody}
    (hp : recurrenceBody b induction p = some body) :
    Implements ops b p body.next
      (updates induction (slotAt body.intAccumulators) body.intAccumulators) := by
  simp only [recurrenceBody, Option.bind_eq_bind, Option.bind_eq_some_iff] at hp
  obtain ⟨⟨slot, p1⟩, hg, hif⟩ := hp
  rcases hrec : parseRecurrences b induction scalarMaxAccumulators [] slot p1 with ⟨items, q⟩
  simp only [hrec] at hif
  split at hif
  · cases hif
  · simp only [Option.some.injEq] at hif
    subst hif
    obtain ⟨form, hd⟩ := parseGetScalarSlot_decode hg
    have h1 := decode_lt hd
    obtain ⟨h2, new, hnew, hs⟩ := parseRecurrences_segment ops hrec
    simp only [List.nil_append] at hnew
    subst hnew
    refine ⟨Nat.le_trans (Nat.le_of_lt h1) h2, ?_⟩
    intro st w h
    obtain ⟨st', hrest⟩ := hs st w h
    exact ⟨st', (segment_get hd).append hrest (Nat.le_of_lt h1) h2⟩

theorem updates_other {induction : Nat} {slotOf : Nat → Slot} {items : List ScalarIntAccumulator}
    {slot : Slot} (h : slot ∉ items.map (·.slot)) (w : Slot → BitVec 32) :
    updates induction slotOf items w slot = w slot := by
  induction items generalizing w with
  | nil => rfl
  | cons item items ih =>
    simp only [List.map_cons, List.mem_cons, not_or] at h
    have hrest := ih h.2 (item.update induction slotOf w)
    simp only [updates, List.foldl_cons] at hrest ⊢
    rw [hrest, ScalarIntAccumulator.update, Function.update_of_ne h.1]

theorem updates_independent {induction : Nat} {slotOf : Nat → Slot}
    {items : List ScalarIntAccumulator} (hnd : (items.map (·.slot)).Nodup)
    (hi : ⟨.local, induction⟩ ∉ items.map (·.slot))
    (hd : ∀ item ∈ items, item.term.isAccumulator = false) {item : ScalarIntAccumulator}
    (hm : item ∈ items) (w : Slot → BitVec 32) :
    updates induction slotOf items w item.slot =
      w item.slot + item.once (w ⟨.local, induction⟩).toInt := by
  induction items generalizing w with
  | nil => cases hm
  | cons a items ih =>
    simp only [List.map_cons, List.nodup_cons] at hnd
    simp only [List.map_cons, List.mem_cons, not_or] at hi
    have hstep : updates induction slotOf (a :: items) w =
        updates induction slotOf items (a.update induction slotOf w) := rfl
    rw [hstep]
    rcases List.mem_cons.mp hm with rfl | hmem
    · rw [updates_other hnd.1, ScalarIntAccumulator.update, Function.update_self,
        apply_once (hd _ (by simp))]
    · have hne : item.slot ≠ a.slot := by
        intro he
        exact hnd.1 (he ▸ List.mem_map_of_mem hmem)
      rw [ih hnd.2 hi.2 (fun x hx => hd x (List.mem_cons_of_mem a hx)) hmem]
      simp only [ScalarIntAccumulator.update, Function.update_of_ne hne, Function.update_of_ne hi.1]

section

variable {items : List ScalarIntAccumulator} {induction : Nat}

theorem iterations_independent {limitSlot : Option Slot} {limit : Int} {slotOf : Nat → Slot}
    (hf : KeepsControl induction limitSlot (updates induction slotOf items))
    (hnd : (items.map (·.slot)).Nodup) (hi : ⟨.local, induction⟩ ∉ items.map (·.slot))
    (hd : ∀ item ∈ items, item.term.isAccumulator = false) {item : ScalarIntAccumulator}
    (hm : item ∈ items) (w : Slot → BitVec 32) (hne : ⟨.local, induction⟩ ∉ limitSlot)
    (hmax : frameLimit limit limitSlot w ≤ int32Max) (n : Nat)
    (hn : (w ⟨.local, induction⟩).toInt + n ≤ frameLimit limit limitSlot w) :
    (iteration induction (updates induction slotOf items))^[n] w item.slot =
      w item.slot + item.total n (rangeSum (w ⟨.local, induction⟩).toInt n) := by
  induction n with
  | zero =>
    simp only [Function.iterate_zero, id_eq, ScalarIntAccumulator.total, rangeSum]
    cases item.term with
    | induction => cases item.subtract <;> simp [toBits]
    | constant c => simp [toBits]
    | accumulator k => simp
  | succ n ih =>
    have hlt : (w ⟨.local, induction⟩).toInt + n ≤ frameLimit limit limitSlot w := by
      push_cast at hn
      omega
    have hw := (iterations_control hf w hne hmax n hlt).1
    have hs : item.slot ≠ ⟨.local, induction⟩ := by
      intro he
      exact hi (he ▸ List.mem_map_of_mem hm)
    rw [Function.iterate_succ_apply', iteration, bump, Function.update_of_ne hs,
      updates_independent hnd hi hd hm, ih hlt, hw, rangeSum, Nat.cast_succ, total_succ,
      BitVec.add_assoc]

theorem iterations_other {slotOf : Nat → Slot} {slot : Slot} (h : slot ∉ items.map (·.slot))
    (hi : slot ≠ ⟨.local, induction⟩) (w : Slot → BitVec 32) (n : Nat) :
    (iteration induction (updates induction slotOf items))^[n] w slot = w slot := by
  induction n with
  | zero => rfl
  | succ n ih =>
    rw [Function.iterate_succ_apply', iteration, bump, Function.update_of_ne hi, updates_other h,
      ih]

theorem dependentRecord_tracks (hnd : (items.map (·.slot)).Nodup) {k : Nat}
    {item : ScalarIntAccumulator} (hk : items[k]? = some item) {w : Slot → BitVec 32} {i : Int}
    (hi : toBits i = w ⟨.local, induction⟩) {values : List (BitVec 32)}
    (h : dependentRecord i (items.map fun a => w a.slot) k item = some values) :
    values = items.map fun a => item.update induction (slotAt items) w a.slot := by
  simp only [dependentRecord, Option.bind_eq_bind, Option.bind_eq_some_iff,
    Option.some.injEq] at h
  obtain ⟨operand, ho, x, hx, rfl⟩ := h
  have hoperand : operand = item.term.value induction (slotAt items) w := by
    cases ht : item.term with
    | induction => simpa [ht, Term.operand, Term.value, hi] using ho.symm
    | constant c => simpa [ht, Term.operand, Term.value] using ho.symm
    | accumulator j =>
      simp only [ht, Term.operand, List.getElem?_map, Option.map_eq_some_iff] at ho
      obtain ⟨a, ha, hv⟩ := ho
      simp [Term.value, slotAt, ha, hv]
  have hxv : x = w item.slot := by simpa [hk] using hx.symm
  subst hoperand hxv
  obtain ⟨hlt, hget⟩ := List.getElem?_eq_some_iff.mp hk
  apply List.ext_getElem
  · simp
  · intro j hj hj'
    simp only [List.length_map] at hj'
    rw [List.getElem_set, List.getElem_map, List.getElem_map]
    split
    · rename_i he
      subst he
      simp [hget, ScalarIntAccumulator.update]
    · rename_i he
      -- Another record has another slot.
      have hne : items[j].slot ≠ item.slot := by
        intro hs
        have hkj : (items.map (·.slot))[k]? = (items.map (·.slot))[j]? := by
          simp [hk, List.getElem?_eq_getElem hj', hs]
        exact he ((List.getElem?_inj (by simpa using hlt) hnd).mp hkj)
      simp only [ScalarIntAccumulator.update, Function.update_of_ne hne]

theorem dependentIteration_tracks (hnd : (items.map (·.slot)).Nodup)
    (hni : ⟨.local, induction⟩ ∉ items.map (·.slot)) {w : Slot → BitVec 32} {i : Int}
    (hi : toBits i = w ⟨.local, induction⟩) {values : List (BitVec 32)}
    (h : dependentIteration items i (items.map fun a => w a.slot) = some values) :
    values = items.map fun a => updates induction (slotAt items) items w a.slot := by
  have htake := forUpM_induction
    (P := fun k values => values = items.map fun a =>
      updates induction (slotAt items) (items.take k) w a.slot) rfl ?_ h
  · simpa using htake
  · intro k values values' hk hv hb
    obtain ⟨item, hitem, hrec⟩ := Option.bind_eq_some_iff.mp hb
    rw [hv] at hrec
    have hprev : toBits i =
        updates induction (slotAt items) (items.take k) w ⟨.local, induction⟩ := by
      rw [hi, updates_other]
      intro hmem
      exact hni (List.map_subset _ (List.take_subset k items) hmem)
    have hnext := dependentRecord_tracks hnd hitem hprev hrec
    rw [hnext, List.take_add_one, hitem]
    simp [updates]

theorem dependentLoop_tracks {limitSlot : Option Slot} {limit : Int}
    (hf : KeepsControl induction limitSlot (updates induction (slotAt items) items))
    (hnd : (items.map (·.slot)).Nodup) (hni : ⟨.local, induction⟩ ∉ items.map (·.slot))
    {w : Slot → BitVec 32} (hne : ⟨.local, induction⟩ ∉ limitSlot)
    (hmax : frameLimit limit limitSlot w ≤ int32Max)
    (hle : (w ⟨.local, induction⟩).toInt ≤ frameLimit limit limitSlot w)
    {values : List (BitVec 32)}
    (h : dependentLoop (w ⟨.local, induction⟩).toInt (frameLimit limit limitSlot w) items
      (items.map fun a => w a.slot) = some values) :
    values = items.map fun a =>
      (iteration induction (updates induction (slotAt items) items))^[
        (frameLimit limit limitSlot w - (w ⟨.local, induction⟩).toInt).toNat] w a.slot := by
  refine forUpM_induction
    (P := fun m values => values = items.map fun a =>
      (iteration induction (updates induction (slotAt items) items))^[m] w a.slot) rfl ?_ h
  intro m values values' hm hv hb
  rw [hv] at hb
  have hw := (iterations_control hf w hne hmax m (by omega)).1
  have hi : toBits ((w ⟨.local, induction⟩).toInt + m) =
      (iteration induction (updates induction (slotAt items) items))^[m] w
        ⟨.local, induction⟩ := by
    rw [← hw, toBits_toInt]
  rw [dependentIteration_tracks hnd hni hi hb]
  apply List.map_congr_left
  intro a ha
  have hs : a.slot ≠ ⟨.local, induction⟩ := by
    intro he
    exact hni (he ▸ List.mem_map_of_mem ha)
  rw [Function.iterate_succ_apply', iteration, bump, Function.update_of_ne hs]

end

theorem independentLoop_map (i limit : Int) (items : List ScalarIntAccumulator)
    (w : Slot → BitVec 32) :
    independentLoop i limit items ((items.map (·.slot)).map w) =
      items.map fun a => w a.slot + recurrenceDelta i limit a := by
  simp only [independentLoop, List.map_map]
  induction items with
  | nil => rfl
  | cons a items ih => simpa using ih

theorem assign_other {slots : List Slot} {xs : List (BitVec 32)} {slot : Slot}
    (h : slot ∉ slots) (w : Slot → BitVec 32) : assign w slots xs slot = w slot := by
  induction slots generalizing xs w with
  | nil => rfl
  | cons s slots ih =>
    simp only [List.mem_cons, not_or] at h
    cases xs with
    | nil => rfl
    | cons x xs => rw [assign, ih h.2, Function.update_of_ne h.1]

theorem assign_item {items : List ScalarIntAccumulator} (hnd : (items.map (·.slot)).Nodup)
    (g : ScalarIntAccumulator → BitVec 32) {item : ScalarIntAccumulator} (hm : item ∈ items)
    (w : Slot → BitVec 32) : assign w (items.map (·.slot)) (items.map g) item.slot = g item := by
  induction items generalizing w with
  | nil => cases hm
  | cons a items ih =>
    simp only [List.map_cons, List.nodup_cons] at hnd
    simp only [List.map_cons, assign]
    rcases List.mem_cons.mp hm with rfl | hmem
    · rw [assign_other hnd.1, Function.update_self]
    · exact ih hnd.2 hmem _

def Agrees (b : FunctionBytecode) (target source : Nat) (s : State H) (out : OSRExit) : Prop :=
  ∃ t, Segment ops b target (source + 1) s t ∧ t.pc = out.resume ∧ t.slots = out.slots

def SlotsApart (p : ScalarLoopProgram) : Prop :=
  (p.intAccumulators.map (·.slot)).Nodup ∧
    ⟨.local, p.induction⟩ ∉ p.intAccumulators.map (·.slot) ∧
    ∀ slot ∈ p.limitSlot, slot ∉ p.intAccumulators.map (·.slot)

/-- The independent modes add what an update subtracts. That is the same when twice the sum
of the induction variable is a multiple of `2 ^ 32`. -/
def SignsKept (p : ScalarLoopProgram) (i limit : Int) : Prop :=
  p.mode = .dependentInt32 ∨ ∀ item ∈ p.intAccumulators, item.term = .induction →
    item.subtract = true → (limit - i) * (i + limit - 1) % 2 ^ 32 = 0

def RecurrenceMode (p : ScalarLoopProgram) : Prop :=
  p.mode = .int32AddOr ∨ p.mode = .multiInt32 ∨ p.mode = .dependentInt32

/-- When the runner is faithful on a frame: the 16-bit frame indices are exact, and either no
iteration is left or the slots are apart and no sign is lost. -/
def RecurrenceFaithful (b : FunctionBytecode) (p : ScalarLoopProgram) (w : Slot → BitVec 32) :
    Prop :=
  FramesIndexed b p ∧ (p.start w = p.stop w ∨
    SlotsApart p ∧ SignsKept p (p.start w) (p.stop w))

theorem toBits_eq_zero (n : Int) : toBits n = 0 ↔ n % 2 ^ 32 = 0 := by
  rw [toBits, ← BitVec.toNat_inj, BitVec.toNat_ofInt]
  simp
  omega

theorem total_eq_recurrenceDelta_iff (item : ScalarIntAccumulator) (i : Int) (n : Nat)
    (hd : item.term.isAccumulator = false) :
    item.total n (rangeSum i n) = recurrenceDelta i (i + n) item ↔
      (item.term = .induction → item.subtract = true →
        (i + n - i) * (i + (i + n) - 1) % 2 ^ 32 = 0) := by
  have hn : i + n - i = (n : Int) := by omega
  unfold ScalarIntAccumulator.total recurrenceDelta
  rw [hn]
  cases ht : item.term with
  | induction =>
    cases hs : item.subtract with
    | false => simp [seriesSum_eq]
    | true =>
      simp only [seriesSum_eq, if_true, forall_const]
      rw [← two_mul_rangeSum, ← toBits_eq_zero, Int.two_mul, toBits_add]
      constructor
      · intro h
        bv_omega
      · intro h
        bv_omega
  | constant c => simp
  | accumulator k =>
    rw [ht] at hd
    simp [Term.isAccumulator] at hd

theorem conditionalBody_mode {c : ConditionalProgram} {next : Nat} {body : ScalarBody}
    (h : conditionalBody c next = some body) :
    body.mode = .conditionalInt32 ∨ body.mode = .conditionalProgramInt32 := by
  unfold conditionalBody at h
  split at h
  · simp only [Option.some.injEq] at h
    subst h
    simp only
    split <;> simp
  · simp only [Option.some.injEq] at h
    subst h
    simp
  · cases h

theorem detectScalarLoop_recurrence {target source : Nat} {p : ScalarLoopProgram}
    (hp : detectScalarLoop b target source = some p) (hm : RecurrenceMode p) :
    ∃ header next, parseHeader b target = some header ∧ 0 ≤ header.resume ∧
      Implements ops b header.body next
        (updates p.induction (slotAt p.intAccumulators) p.intAccumulators) ∧
      parseTail b p.induction target source next = some () ∧ p.induction < b.varCount ∧
      p.induction = header.induction ∧ p.limit = header.limit ∧
      p.limitSlot = header.limitSlot ∧ p.resume = header.resume.toNat ∧
      p.mode = recurrenceMode p.intAccumulators := by
  obtain ⟨header, body, hh, hb, ht, hr, hv, rfl⟩ := detectScalarLoop_parts hp
  have hrec : recurrenceBody b header.induction header.body = some body := by
    rcases hc : parseConditionalSteps b header.induction scalarMaxConditionalSteps ⟨[], []⟩
      header.body with ⟨c, q⟩
    simp only [parseBody, hc] at hb
    split at hb
    · rename_i body' hbody
      simp only [Option.some.injEq] at hb
      subst hb
      have hmode := conditionalBody_mode hbody
      simp only [RecurrenceMode] at hm
      rcases hmode with he | he <;> simp [he] at hm
    · exact hb
  have himp := recurrenceBody_implements ops hrec
  refine ⟨header, body.next, hh, hr, himp, ht, hv, rfl, rfl, rfl, rfl, ?_⟩
  simp only [recurrenceBody, Option.bind_eq_bind, Option.bind_eq_some_iff] at hrec
  obtain ⟨r, -, hif⟩ := hrec
  split at hif
  · cases hif
  · simp only [Option.some.injEq] at hif
    subst hif
    rfl

theorem SlotsApart.keepsControl {p : ScalarLoopProgram} (h : SlotsApart p) :
    KeepsControl p.induction p.limitSlot
      (updates p.induction (slotAt p.intAccumulators) p.intAccumulators) where
  induction := updates_other h.2.1
  limit := fun slot hs => updates_other (h.2.2 slot hs)

theorem scalarLoopValues_recurrence {p : ScalarLoopProgram} (hm : RecurrenceMode p)
    {w : Slot → BitVec 32} {i limit : Int} {targets : List Slot} {values : List (BitVec 32)}
    (h : scalarLoopValues p (int32Frame w) i limit = some (targets, values)) :
    targets = p.intAccumulators.map (·.slot) ∧
      ((p.mode = .dependentInt32 ∧ dependentLoop i limit p.intAccumulators
          (p.intAccumulators.map fun a => w a.slot) = some values) ∨
        (p.mode ≠ .dependentInt32 ∧
          values = p.intAccumulators.map fun a => w a.slot + recurrenceDelta i limit a)) := by
  have hmap : (p.intAccumulators.map (·.slot)).map w = p.intAccumulators.map fun a => w a.slot := by
    simp [Function.comp_def]
  simp only [scalarLoopValues, readAccumulators_int32Frame] at h
  rcases hm with hm | hm | hm
  · rw [hm] at h
    simp only at h
    split at h
    · cases h
    · simp only [Option.bind_eq_bind, Option.bind_some, Option.some.injEq, Prod.mk.injEq,
        independentLoop_map] at h
      exact ⟨h.1.symm, .inr ⟨by simp [hm], h.2.symm⟩⟩
  · rw [hm] at h
    simp only at h
    split at h
    · cases h
    · simp only [Option.bind_eq_bind, Option.bind_some, Option.some.injEq, Prod.mk.injEq,
        independentLoop_map] at h
      exact ⟨h.1.symm, .inr ⟨by simp [hm], h.2.symm⟩⟩
  · rw [hm] at h
    simp only at h
    split at h
    · cases h
    · simp only [Option.bind_eq_bind, Option.bind_some, Option.bind_eq_some_iff, Option.some.injEq,
        Prod.mk.injEq] at h
      obtain ⟨values', hv, ht, rfl⟩ := h
      rw [hmap] at hv
      exact ⟨ht.symm, .inl ⟨hm, hv⟩⟩

section

variable {p : ScalarLoopProgram} {w : Slot → BitVec 32} {targets : List Slot}
  {values : List (BitVec 32)}

def ScalarLoopProgram.iterated (p : ScalarLoopProgram) (w : Slot → BitVec 32) :
    Slot → BitVec 32 :=
  (iteration p.induction (updates p.induction (slotAt p.intAccumulators) p.intAccumulators))^[
    (p.stop w - p.start w).toNat] w

theorem stores_at_limit (hm : RecurrenceMode p) (he : p.start w = p.stop w)
    (hv : scalarLoopValues p (int32Frame w) (p.start w) (p.stop w) = some (targets, values)) :
    Function.update (assign w targets values) ⟨.local, p.induction⟩ (toBits (p.stop w)) = w := by
  obtain ⟨ht, hcase⟩ := scalarLoopValues_recurrence hm hv
  subst ht
  have hvalues : values = (p.intAccumulators.map (·.slot)).map w := by
    rw [he] at hcase
    rcases hcase with ⟨-, hv⟩ | ⟨-, rfl⟩
    · simp only [dependentLoop, Int.sub_self, Int.toNat_zero] at hv
      simpa [forUpM, Function.comp_def] using hv.symm
    · rw [List.map_map]
      apply List.map_congr_left
      intro a _
      cases ht : a.term <;> simp [recurrenceDelta, ht, seriesSum, toBits]
  subst hvalues
  funext slot
  have hi : toBits (p.stop w) = w ⟨.local, p.induction⟩ := by
    rw [← he, ScalarLoopProgram.start, toBits_toInt]
  by_cases hs : slot = ⟨.local, p.induction⟩
  · subst hs
    rw [Function.update_self, hi]
  · rw [Function.update_of_ne hs, assign_map]
    split <;> rfl

theorem stores_apart_iff (hm : RecurrenceMode p) (hmode : p.mode = recurrenceMode p.intAccumulators)
    (ha : SlotsApart p) (hl : p.limit ≤ int32Max) (hlt : p.start w < p.stop w)
    (hv : scalarLoopValues p (int32Frame w) (p.start w) (p.stop w) = some (targets, values)) :
    Function.update (assign w targets values) ⟨.local, p.induction⟩ (toBits (p.stop w)) =
      p.iterated w ↔ SignsKept p (p.start w) (p.stop w) := by
  have hf := ha.keepsControl
  have hmax := frameLimit_le hl p.limitSlot w
  have hne : ⟨.local, p.induction⟩ ∉ p.limitSlot := by
    intro he
    simp only [ScalarLoopProgram.start, ScalarLoopProgram.stop, Option.mem_def.mp he,
      frameLimit] at hlt
    omega
  obtain ⟨n, hn⟩ : ∃ n : Nat, p.stop w = p.start w + n := ⟨(p.stop w - p.start w).toNat, by omega⟩
  have hcount : (p.stop w - p.start w).toNat = n := by omega
  obtain ⟨ht, hcase⟩ := scalarLoopValues_recurrence hm hv
  subst ht
  have hind : p.iterated w ⟨.local, p.induction⟩ = toBits (p.stop w) := by
    have hw := (iterations_control hf w hne hmax n (Int.le_of_eq hn.symm)).1
    rw [hn, ScalarLoopProgram.start, ← hw, toBits_toInt, ScalarLoopProgram.iterated, hcount]
  have hother : ∀ slot, slot ∉ p.intAccumulators.map (·.slot) → slot ≠ ⟨.local, p.induction⟩ →
      p.iterated w slot = w slot := fun slot hs hi => iterations_other hs hi w _
  -- Only the accumulators are left to compare.
  have hreduce : ∀ g : ScalarIntAccumulator → BitVec 32, values = p.intAccumulators.map g →
      (Function.update (assign w (p.intAccumulators.map (·.slot)) values)
          ⟨.local, p.induction⟩ (toBits (p.stop w)) = p.iterated w ↔
        ∀ item ∈ p.intAccumulators, g item = p.iterated w item.slot) := by
    rintro g rfl
    have hsep : ∀ item ∈ p.intAccumulators, item.slot ≠ ⟨.local, p.induction⟩ := by
      intro item hitem he
      exact ha.2.1 (he ▸ List.mem_map_of_mem hitem)
    constructor
    · intro heq item hitem
      have := congrFun heq item.slot
      rwa [Function.update_of_ne (hsep item hitem), assign_item ha.1 g hitem] at this
    · intro hg
      funext slot
      by_cases hs : slot = ⟨.local, p.induction⟩
      · subst hs
        rw [Function.update_self, hind]
      · rw [Function.update_of_ne hs]
        by_cases hmem : slot ∈ p.intAccumulators.map (·.slot)
        · obtain ⟨item, hitem, rfl⟩ := List.mem_map.mp hmem
          rw [assign_item ha.1 g hitem, hg item hitem]
        · rw [assign_other hmem, hother slot hmem hs]
  rcases hcase with ⟨hdep, hv⟩ | ⟨hdep, hv⟩
  · have htrack := dependentLoop_tracks hf ha.1 ha.2.1 hne hmax (Int.le_of_lt hlt) hv
    rw [hreduce _ htrack]
    exact ⟨fun _ => .inl hdep, fun _ _ _ => rfl⟩
  · rw [hreduce _ hv]
    have hind : ∀ item ∈ p.intAccumulators, item.term.isAccumulator = false := by
      intro item hitem
      rw [hmode, recurrenceMode] at hdep
      split at hdep
      · exact absurd rfl hdep
      · rename_i hany
        simp only [List.any_eq_true, not_exists, not_and, Bool.not_eq_true] at hany
        exact hany item hitem
    have hstep : ∀ item ∈ p.intAccumulators,
        (w item.slot + recurrenceDelta (p.start w) (p.stop w) item = p.iterated w item.slot ↔
          (item.term = .induction → item.subtract = true →
            (p.stop w - p.start w) * (p.start w + p.stop w - 1) % 2 ^ 32 = 0)) := by
      intro item hitem
      have hit := iterations_independent hf ha.1 ha.2.1 hind hitem w hne hmax n
        (Int.le_of_eq hn.symm)
      rw [ScalarLoopProgram.iterated, hcount, hit, BitVec.add_right_inj, eq_comm, hn]
      exact total_eq_recurrenceDelta_iff item (p.start w) n (hind item hitem)
    simp only [SignsKept, hdep, false_or]
    exact forall₂_congr hstep

end

/-- Recurrence loops: a completed run agrees with the interpreted loop when the runner is
faithful on the frame, and on slots that are apart only then. -/
theorem recurrence_loop_agrees_iff {target source : Nat} {p : ScalarLoopProgram}
    (hp : detectScalarLoop b target source = some p) (hm : RecurrenceMode p)
    (w : Slot → BitVec 32) (st : List JSValue) (h : H) {out : OSRExit}
    (hrun : runScalarLoop b p (int32Frame w) = some out) :
    (RecurrenceFaithful b p w → Agrees ops b target source (onFrame target st w h) out) ∧
      (FramesIndexed b p → SlotsApart p → (p.resume < target ∨ source < p.resume) →
        Agrees ops b target source (onFrame target st w h) out → RecurrenceFaithful b p w) := by
  obtain ⟨header, next, hh, hr, hbody, ht, hv, hi, hlim, hls, hres, hmode⟩ :=
    detectScalarLoop_recurrence ops hp hm
  have hl : p.limit ≤ int32Max := hlim ▸ (parseHeader_segment ops hh hr).2.1
  rw [hi] at ht
  have hdone : p.start w = p.stop w → Segment ops b target (source + 1)
      (onFrame target st w h) (onFrame p.resume st w h) := by
    intro he
    rw [hres]
    refine loop_segment_done ops hh hr hbody ht w st h ?_
    rw [← hi, ← hlim, ← hls]
    exact he
  have hloop : SlotsApart p → p.start w ≤ p.stop w → ∃ st', Segment ops b target (source + 1)
      (onFrame target st w h) (onFrame p.resume st' (p.iterated w) h) := by
    intro ha hle
    have hf := ha.keepsControl
    rw [hi] at hbody
    rw [hls] at hf
    rw [hi] at hf
    obtain ⟨st', hs⟩ := loop_segment ops hh hr hbody ht hf w st h
      (p.stop w - p.start w).toNat (by
        rw [← hlim, ← hls, ← hi]
        simp only [ScalarLoopProgram.start, ScalarLoopProgram.stop] at hle ⊢
        omega)
    refine ⟨st', ?_⟩
    rw [ScalarLoopProgram.iterated, hres, hi]
    exact hs
  constructor
  · rintro ⟨hfi, hcase⟩
    obtain ⟨-, hle, hresume, targets, values, hvals, hout⟩ := runScalarLoop_outcome hfi hv hl hrun
    have htargets := (scalarLoopValues_recurrence hm hvals).1
    have hout := hout (by
      rw [htargets]
      intro slot hs
      obtain ⟨item, hitem, rfl⟩ := List.mem_map.mp hs
      exact hfi.2.2 item hitem)
    by_cases he : p.start w = p.stop w
    · refine ⟨_, hdone he, hresume.symm, ?_⟩
      rw [hout, stores_at_limit hm he hvals]
      rfl
    · rcases hcase with hcase | ⟨ha, hsigns⟩
      · exact absurd hcase he
      · obtain ⟨st', hs⟩ := hloop ha hle
        refine ⟨_, hs, hresume.symm, ?_⟩
        rw [hout, (stores_apart_iff hm hmode ha hl (by omega) hvals).mpr hsigns]
        rfl
  · intro hfi ha houtside hagree
    refine ⟨hfi, ?_⟩
    by_cases he : p.start w = p.stop w
    · exact .inl he
    · refine .inr ⟨ha, ?_⟩
      obtain ⟨-, hle, hresume, targets, values, hvals, hout⟩ :=
        runScalarLoop_outcome hfi hv hl hrun
      have htargets := (scalarLoopValues_recurrence hm hvals).1
      have hout := hout (by
        rw [htargets]
        intro slot hs
        obtain ⟨item, hitem, rfl⟩ := List.mem_map.mp hs
        exact hfi.2.2 item hitem)
      obtain ⟨st', hs⟩ := hloop ha hle
      obtain ⟨t, hst, hpc, hslots⟩ := hagree
      have hexit := Runs.exit_unique hst hs (by simp only [hpc, hresume]; omega)
        (by simp only [onFrame_pc]; omega)
      subst hexit
      rw [hout] at hslots
      refine (stores_apart_iff hm hmode ha hl (by omega) hvals).mp ?_
      funext slot
      have := congrFun hslots slot
      exact (ofBits_injective this).symm

/-- `for (; i < 3; i++) acc = (acc op i) | 0`, with the opcode of `op` as a parameter. -/
def accumulateLoop (op : UInt8) : FunctionBytecode where
  code := [97, 0, 0, 190, 166, 241, 21, 205, 97, 0, 0, op, 187, 164, 17, 209, 14,
    97, 0, 0, 144, 98, 0, 0, 14, 243, 230]
  cpool := []
  argCount := 0
  varCount := 2

def accumulateProgram (subtract : Bool) : ScalarLoopProgram :=
  ⟨0, 3, none, .int32AddOr, ⟨.local, 1⟩, [⟨⟨.local, 1⟩, .induction, subtract⟩], [], 0, 27⟩

theorem added_induction_agrees :
    detectScalarLoop (accumulateLoop 157) 0 25 = some (accumulateProgram false) ∧
      ∃ out, runScalarLoop (accumulateLoop 157) (accumulateProgram false)
          (int32Frame fun _ => 0) = some out ∧
        RecurrenceFaithful (accumulateLoop 157) (accumulateProgram false) (fun _ => 0) ∧
        Agrees noHeap (accumulateLoop 157) 0 25 (onFrame 0 [] (fun _ => 0) ()) out := by
  have hp : detectScalarLoop (accumulateLoop 157) 0 25 = some (accumulateProgram false) := by
    decide +kernel
  have hfaithful :
      RecurrenceFaithful (accumulateLoop 157) (accumulateProgram false) (fun _ => 0) := by
    refine ⟨by decide, .inr ⟨⟨by decide, by decide, ?_⟩, .inr ?_⟩⟩
    · intro slot hs
      cases hs
    · intro item hitem _ hsub
      simp only [accumulateProgram, List.mem_singleton] at hitem
      subst hitem
      cases hsub
  refine ⟨hp, _, rfl, hfaithful, ?_⟩
  exact (recurrence_loop_agrees_iff noHeap hp (.inl rfl) (fun _ => 0) [] () rfl).1 hfaithful

/-- The closed form adds the induction variable where the loop subtracts it: with `acc` and
`i` zero the runner leaves 3 and the interpreter -3. -/
theorem subtracted_induction_is_added :
    ¬ ∀ (b : FunctionBytecode) (target source : Nat) (p : ScalarLoopProgram)
      (w : Slot → BitVec 32) (out : OSRExit), detectScalarLoop b target source = some p →
      RecurrenceMode p → runScalarLoop b p (int32Frame w) = some out →
      Agrees noHeap b target source (onFrame target [] w ()) out := by
  intro hall
  have hp : detectScalarLoop (accumulateLoop 158) 0 25 = some (accumulateProgram true) := by
    decide +kernel
  obtain ⟨out, hrun⟩ : ∃ out, runScalarLoop (accumulateLoop 158) (accumulateProgram true)
      (int32Frame fun _ => 0) = some out := ⟨_, rfl⟩
  obtain ⟨t, hst, hpc, hslots⟩ := hall _ _ _ _ _ _ hp (.inl rfl) hrun
  have hvalue : (runScalarLoop (accumulateLoop 158) (accumulateProgram true)
      (int32Frame fun _ => 0)).map (fun out => (out.resume, out.slots ⟨.local, 1⟩)) =
      some (27, .number 3) := by
    decide +kernel
  simp only [hrun, Option.map_some, Option.some.injEq, Prod.mk.injEq] at hvalue
  have hadvance := advance_runs (step noHeap (accumulateLoop 158))
    (fun s => decide (0 ≤ s.pc ∧ s.pc < 26)) 60 (onFrame 0 [] (fun _ => 0) ())
  simp only [decide_eq_true_eq] at hadvance
  have hend : ((advance (step noHeap (accumulateLoop 158))
      (fun s => decide (0 ≤ s.pc ∧ s.pc < 26)) 60 (onFrame 0 [] (fun _ => 0) ())).pc = 27) ∧
      (advance (step noHeap (accumulateLoop 158))
        (fun s => decide (0 ≤ s.pc ∧ s.pc < 26)) 60
        (onFrame 0 [] (fun _ => 0) ())).slots ⟨.local, 1⟩ = .number (-3) := by
    decide +kernel
  have hsame := Runs.exit_unique hst hadvance (by rw [hpc, hvalue.1]; decide)
    (by rw [hend.1]; decide)
  rw [← hsame, hslots, hvalue.2] at hend
  exact absurd hend.2 (by decide)

end TurboJS.OSR
