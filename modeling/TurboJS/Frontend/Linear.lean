import TurboJS.Frontend.ControlFlow
import TurboJS.Foundation.Cuts

namespace TurboJS.Frontend

open IR (Status Diagnostic)
open Foundation

inductive Linear (code : List UInt8) : Instruction → Prop where
  | first {i : Instruction} (h : decodeAt code 0 = some i) : Linear code i
  | next {i j : Instruction} (hi : Linear code i) (h : decodeAt code i.next = some j) :
      Linear code j

structure Decoded (code : List UInt8) (i : Instruction) : Prop where
  opcode : (code[i.offset]?).map UInt8.toNat = some i.opcode
  known : i.opcode < opCount
  valid : i.opcode ≠ Op.invalid
  size : i.size = i.info.size
  inside : i.next ≤ code.length

theorem opcode_sizes : ∀ info ∈ opcodeInfo, 0 < info.size := by decide +kernel

theorem Decoded.size_pos {code : List UInt8} {i : Instruction} (h : Decoded code i) :
    0 < i.size := by
  have hmem : i.info ∈ opcodeInfo := by
    have hk : i.opcode < opcodeInfo.length := h.known
    simp [Instruction.info, List.getD_eq_getElem?_getD, hk]
  rw [h.size]
  exact opcode_sizes _ hmem

theorem Decoded.offset_lt {code : List UInt8} {i : Instruction} (h : Decoded code i) :
    i.offset < code.length := by
  have hi := h.inside
  have hp := h.size_pos
  unfold Instruction.next at hi
  omega

theorem decodeAt_eq_some {code : List UInt8} {pc : Nat} {i : Instruction} :
    decodeAt code pc = some i ↔ i.offset = pc ∧ Decoded code i := by
  unfold decodeAt
  constructor
  · intro h
    simp only [Option.bind_eq_bind, Option.bind_eq_some_iff] at h
    obtain ⟨op, hop, info, hinfo, h⟩ := h
    split at h
    · cases h
    · rename_i hvalid
      cases h
      have hk : op.toNat < opcodeInfo.length := (List.getElem?_eq_some_iff.mp hinfo).1
      have hrow : opcodeInfo.getD op.toNat ⟨0, 0, 0, .none⟩ = info := by
        rw [List.getD_eq_getElem?_getD, hinfo, Option.getD_some]
      refine ⟨rfl, ?_, hk, fun h => hvalid (.inl h), ?_, ?_⟩
      · simp [hop]
      · simp only [Instruction.info, hrow]
      · simp only [Instruction.next]
        omega
  · rintro ⟨rfl, h⟩
    obtain ⟨op, hop, hnum⟩ := Option.map_eq_some_iff.mp h.opcode
    have hk : i.opcode < opcodeInfo.length := h.known
    have hrow : opcodeInfo[i.opcode]? = some i.info := by
      rw [Instruction.info, List.getD_eq_getElem?_getD, List.getElem?_eq_getElem hk,
        Option.getD_some]
    have hfine : ¬ (i.opcode = Op.invalid ∨ code.length < i.offset + i.size) := by
      have hin := h.inside
      rw [Instruction.next] at hin
      rintro (hz | hlt)
      · exact h.valid hz
      · omega
    simp only [hop, Option.bind_eq_bind, Option.bind_some, hnum, hrow, ← h.size, if_neg hfine]

theorem scanInstruction_ok {code : List UInt8} {pc : Nat} {i : Instruction} (hpc : pc < code.length)
    (h : scanInstruction code pc = .ok i) : decodeAt code pc = some i := by
  unfold scanInstruction at h
  simp only at h
  split at h
  · cases h
  · rename_i hvalid
    split at h
    · cases h
    · rename_i hin
      cases h
      refine decodeAt_eq_some.mpr ⟨rfl, ?_, ?_, ?_, rfl, ?_⟩
      · simp [List.getElem?_eq_getElem hpc, List.getD_eq_getElem?_getD]
      · simp only
        omega
      · exact fun h => hvalid (.inr h)
      · omega

/-- The offset of instruction `k` of a list that ends at `pc`. -/
def offsetIn (l : List Instruction) (pc k : Nat) : Nat := (l[k]?.map (·.offset)).getD pc

/-- What the first pass has established when it stands at `pc`. -/
structure Scanned (code : List UInt8) (s : Scan) (pc : Nat) : Prop where
  inside : pc ≤ code.length
  first : offsetIn s.instructions pc 0 = 0
  next : ∀ k i, s.instructions[k]? = some i → i.next = offsetIn s.instructions pc (k + 1)
  decoded : ∀ i ∈ s.instructions, Decoded code i
  inRange : ∀ i ∈ s.instructions, targetInRange code i = true
  starts : ∀ q, q ∈ s.starts ↔ q = 0 ∨ ∃ i ∈ s.instructions, q ∈ marks code i

theorem Scanned.start (code : List UInt8) : Scanned code ⟨[0], []⟩ 0 where
  inside := Nat.zero_le _
  first := rfl
  next := by simp
  decoded := by simp
  inRange := by simp
  starts := by simp

theorem offsetIn_append {l : List Instruction} {i : Instruction} {k pc : Nat} (hk : k ≤ l.length) :
    offsetIn (l ++ [i]) pc k = offsetIn l i.offset k := by
  unfold offsetIn
  rcases Nat.lt_or_eq_of_le hk with hlt | rfl
  · rw [List.getElem?_append_left hlt]
    simp [hlt]
  · simp

theorem Scanned.step {code : List UInt8} {s : Scan} {pc : Nat} (h : Scanned code s pc)
    {i : Instruction} (hi : decodeAt code pc = some i) (hr : targetInRange code i = true) :
    Scanned code ⟨s.starts ++ marks code i, s.instructions ++ [i]⟩ i.next := by
  obtain ⟨hpc, hd⟩ := decodeAt_eq_some.mp hi
  subst hpc
  refine ⟨hd.inside, ?_, ?_, ?_, ?_, ?_⟩
  · rw [offsetIn_append (Nat.zero_le _)]
    exact h.first
  · intro k j hj
    rcases Nat.lt_or_ge k s.instructions.length with hk | hk
    · rw [List.getElem?_append_left hk] at hj
      rw [offsetIn_append (by omega)]
      exact h.next k j hj
    · have hlen := (List.getElem?_eq_some_iff.mp hj).1
      rw [List.length_append, List.length_singleton] at hlen
      obtain rfl : k = s.instructions.length := by omega
      rw [List.getElem?_concat_length, Option.some.injEq] at hj
      subst hj
      simp [offsetIn]
  · intro j hj
    rcases List.mem_append.mp hj with hj | hj
    · exact h.decoded j hj
    · rw [List.mem_singleton.mp hj]
      exact hd
  · intro j hj
    rcases List.mem_append.mp hj with hj | hj
    · exact h.inRange j hj
    · rw [List.mem_singleton.mp hj]
      exact hr
  · intro q
    simp only [List.mem_append, h.starts q, List.mem_singleton]
    constructor
    · rintro ((hz | ⟨j, hj, hq⟩) | hq)
      · exact .inl hz
      · exact .inr ⟨j, .inl hj, hq⟩
      · exact .inr ⟨i, .inr rfl, hq⟩
    · rintro (hz | ⟨j, hj | rfl, hq⟩)
      · exact .inl (.inl hz)
      · exact .inl (.inr ⟨j, hj, hq⟩)
      · exact .inr hq

theorem scan_scanned {code : List UInt8} {fuel pc : Nat} {s t : Scan} (h : Scanned code s pc)
    (hfuel : code.length ≤ pc + fuel) (hrun : scan code fuel pc s = .ok t) :
    Scanned code t code.length := by
  induction fuel generalizing pc s with
  | zero =>
    cases hrun
    have hpc := h.inside
    obtain rfl : pc = code.length := by omega
    exact h
  | succ fuel ih =>
    unfold scan at hrun
    split at hrun
    · rename_i hpc
      cases hi : scanInstruction code pc with
      | error e => simp [hi, bind, Except.bind] at hrun
      | ok i =>
        have hd := scanInstruction_ok hpc hi
        obtain ⟨hoff, hdec⟩ := decodeAt_eq_some.mp hd
        simp only [hi, bind, Except.bind] at hrun
        split at hrun
        · cases hrun
        · rename_i hr
          refine ih (h.step hd (by simpa using hr)) ?_ hrun
          have hpos := hdec.size_pos
          unfold Instruction.next
          omega
    · cases hrun
      have hpc := h.inside
      obtain rfl : pc = code.length := by omega
      exact h

namespace Scanned

variable {code : List UInt8} {s : Scan} (h : Scanned code s code.length)

include h

theorem offset_lt_offset {k m : Nat} (hkm : k < m) (hm : m ≤ s.instructions.length) :
    s.offsetOf code k < s.offsetOf code m := by
  induction m with
  | zero => omega
  | succ m ih =>
    have hlt : m < s.instructions.length := hm
    have hstep : s.offsetOf code m < s.offsetOf code (m + 1) := by
      have hnext := h.next m s.instructions[m] (List.getElem?_eq_getElem hlt)
      have hpos := (h.decoded _ (List.getElem_mem hlt)).size_pos
      have hoff : s.offsetOf code m = s.instructions[m].offset := by
        simp [Scan.offsetOf, List.getElem?_eq_getElem hlt]
      rw [hoff]
      refine Nat.lt_of_lt_of_eq ?_ hnext
      unfold Instruction.next
      omega
    rcases Nat.lt_or_eq_of_le (Nat.le_of_lt_succ hkm) with hlt' | rfl
    · exact Nat.lt_trans (ih hlt' (by omega)) hstep
    · exact hstep

theorem offset_le_offset {k m : Nat} (hkm : k ≤ m) (hm : m ≤ s.instructions.length) :
    s.offsetOf code k ≤ s.offsetOf code m := by
  rcases Nat.lt_or_eq_of_le hkm with hlt | rfl
  · exact Nat.le_of_lt (h.offset_lt_offset hlt hm)
  · exact Nat.le_refl _

omit h in
theorem offsetOf_eq (code : List UInt8) {k : Nat} {i : Instruction} (hi : s.instructions[k]? = some i) :
    s.offsetOf code k = i.offset := by
  simp [Scan.offsetOf, hi]

omit h in
theorem offsetOf_length : s.offsetOf code s.instructions.length = code.length := by
  simp [Scan.offsetOf]

theorem next_eq {k : Nat} {i : Instruction} (hi : s.instructions[k]? = some i) :
    i.next = s.offsetOf code (k + 1) := h.next k i hi

theorem index_inj {k m : Nat} (hk : k ≤ s.instructions.length) (hm : m ≤ s.instructions.length)
    (he : s.offsetOf code k = s.offsetOf code m) : k = m := by
  rcases Nat.lt_trichotomy k m with hlt | heq | hgt
  · have := h.offset_lt_offset hlt hm
    omega
  · exact heq
  · have := h.offset_lt_offset hgt hk
    omega

theorem offset_lt_iff {k m : Nat} (hk : k ≤ s.instructions.length)
    (hm : m ≤ s.instructions.length) : s.offsetOf code k < s.offsetOf code m ↔ k < m := by
  constructor
  · intro hlt
    by_contra hge
    have := h.offset_le_offset (Nat.le_of_not_lt hge) hk
    omega
  · exact fun hlt => h.offset_lt_offset hlt hm

theorem mem_iff (hcode : code ≠ []) (i : Instruction) :
    i ∈ s.instructions ↔ Linear code i := by
  have hlen : 0 < code.length := List.length_pos_of_ne_nil hcode
  constructor
  · intro hi
    obtain ⟨k, hk⟩ := List.mem_iff_getElem?.mp hi
    induction k generalizing i with
    | zero =>
      have hfirst : i.offset = 0 := (offsetOf_eq code hk).symm.trans h.first
      exact .first (decodeAt_eq_some.mpr ⟨hfirst, h.decoded i hi⟩)
    | succ k ih =>
      have hlt := (List.getElem?_eq_some_iff.mp hk).1
      have hj := List.getElem?_eq_getElem (show k < s.instructions.length by omega)
      have hnext := (h.next_eq hj).trans (offsetOf_eq code hk)
      refine .next (ih _ (List.mem_of_getElem? hj) hj) ?_
      exact decodeAt_eq_some.mpr ⟨hnext.symm, h.decoded i hi⟩
  · intro hi
    -- An instruction at an offset that the list holds is the one in the list.
    have hsame : ∀ k j, k < s.instructions.length →
        decodeAt code (s.offsetOf code k) = some j → j ∈ s.instructions := by
      intro k j hk hj
      have hget := List.getElem?_eq_getElem hk
      have hmem := List.getElem_mem hk
      rw [offsetOf_eq _ hget, decodeAt_eq_some.mpr ⟨rfl, h.decoded _ hmem⟩] at hj
      cases hj
      exact hmem
    have hinside : ∀ k j, k ≤ s.instructions.length →
        decodeAt code (s.offsetOf code k) = some j → k < s.instructions.length := by
      intro k j hk hj
      rcases Nat.lt_or_eq_of_le hk with hlt | rfl
      · exact hlt
      · obtain ⟨hoff, hdec⟩ := decodeAt_eq_some.mp hj
        have := hdec.offset_lt
        rw [hoff, offsetOf_length] at this
        omega
    induction hi with
    | first hd =>
      have hzero : s.offsetOf code 0 = 0 := h.first
      rw [← hzero] at hd
      exact hsame 0 _ (hinside 0 _ (Nat.zero_le _) hd) hd
    | next _ hd ih =>
      obtain ⟨k, hk⟩ := List.mem_iff_getElem?.mp ih
      rw [h.next_eq hk] at hd
      have hlt := (List.getElem?_eq_some_iff.mp hk).1
      exact hsame (k + 1) _ (hinside (k + 1) _ hlt hd) hd

theorem instructions_pos (hcode : code ≠ []) : 0 < s.instructions.length := by
  by_contra hz
  have hnil : s.instructions = [] := List.eq_nil_of_length_eq_zero (by omega)
  have hfirst : s.offsetOf code 0 = 0 := h.first
  rw [Scan.offsetOf, hnil] at hfirst
  exact hcode (List.eq_nil_of_length_eq_zero hfirst)

omit h in
theorem mem_leaders {k : Nat} :
    k ∈ s.leaders ↔ ∃ i, s.instructions[k]? = some i ∧ i.offset ∈ s.starts := by
  unfold Scan.leaders
  rw [List.mem_filter, List.mem_range]
  constructor
  · rintro ⟨hk, hs⟩
    rw [List.getElem?_eq_getElem hk] at hs ⊢
    exact ⟨_, rfl, by simpa using hs⟩
  · rintro ⟨i, hi, hs⟩
    exact ⟨(List.getElem?_eq_some_iff.mp hi).1, by simpa [hi] using hs⟩

def cuts : Cuts s.instructions.length where
  points := s.leaders
  sorted := List.Pairwise.filter _ List.pairwise_lt_range
  bounded := by
    intro p hp
    exact List.mem_range.mp (List.mem_filter.mp hp).1
  first := by
    intro hpos
    have hget := List.getElem?_eq_getElem hpos
    refine mem_leaders.mpr ⟨_, hget, ?_⟩
    rw [← offsetOf_eq code hget]
    exact (h.starts _).mpr (.inl h.first)

theorem offsetToInstruction_eq {offset k : Nat} :
    s.offsetToInstruction offset = some k ↔
      ∃ i, s.instructions[k]? = some i ∧ i.offset = offset := by
  unfold Scan.offsetToInstruction
  rw [List.findIdx?_eq_some_iff_getElem]
  constructor
  · rintro ⟨hk, he, -⟩
    exact ⟨_, List.getElem?_eq_getElem hk, by simpa using he⟩
  · rintro ⟨i, hi, rfl⟩
    obtain ⟨hk, rfl⟩ := List.getElem?_eq_some_iff.mp hi
    refine ⟨hk, by simp, ?_⟩
    intro m hm
    have hlt := h.offset_lt_offset hm (Nat.le_of_lt hk)
    rw [offsetOf_eq _ (List.getElem?_eq_getElem hk),
      offsetOf_eq _ (List.getElem?_eq_getElem (Nat.lt_trans hm hk))] at hlt
    simp only [decide_eq_true_eq]
    omega

theorem offsetToBlock_eq {k : Nat} {i : Instruction} (hi : s.instructions[k]? = some i) :
    s.offsetToBlock i.offset = some (h.cuts.segment k) := by
  unfold Scan.offsetToBlock
  rw [h.offsetToInstruction_eq.mpr ⟨i, hi, rfl⟩]
  rfl

theorem offsetToBlock_some {offset b : Nat} (hb : s.offsetToBlock offset = some b) :
    ∃ k i, s.instructions[k]? = some i ∧ i.offset = offset ∧ b = h.cuts.segment k := by
  obtain ⟨k, hk, rfl⟩ := Option.map_eq_some_iff.mp hb
  obtain ⟨i, hi, ho⟩ := h.offsetToInstruction_eq.mp hk
  exact ⟨k, i, hi, ho, rfl⟩

theorem blockInstructions_getLast {b : Nat} (hb : b < s.leaders.length) :
    (s.blockInstructions b).getLast? = s.instructions[h.cuts.start (b + 1) - 1]? := by
  have hlt := h.cuts.start_lt_start (Nat.lt_add_one b) hb
  have hle := h.cuts.start_le (b + 1)
  have hfirst : s.firstInstruction b = h.cuts.start b := rfl
  have hnext : s.firstInstruction (b + 1) = h.cuts.start (b + 1) := rfl
  have hlen : (s.blockInstructions b).length = h.cuts.start (b + 1) - h.cuts.start b := by
    simp only [Scan.blockInstructions, List.length_take, List.length_drop, hfirst, hnext]
    omega
  rw [List.getLast?_eq_getElem?, hlen, Scan.blockInstructions, hfirst, hnext,
    List.getElem?_take_of_lt (by omega), List.getElem?_drop]
  congr 1
  omega

end Scanned

end TurboJS.Frontend
