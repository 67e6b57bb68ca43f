import Mathlib.Data.List.Sort

namespace TurboJS.Foundation

/-- An increasing list of positions below `n` that cuts `0, …, n - 1` into segments. -/
structure Cuts (n : Nat) where
  points : List Nat
  sorted : points.Pairwise (· < ·)
  bounded : ∀ p ∈ points, p < n
  first : 0 < n → 0 ∈ points

namespace Cuts

variable {n : Nat} (c : Cuts n)

/-- The first position of segment `b`, and `n` behind the last segment. -/
def start (b : Nat) : Nat := c.points.getD b n

/-- The segment that holds position `k`. -/
def segment (k : Nat) : Nat := (c.points.countP fun p => p ≤ k) - 1

theorem lt_countP_iff {l : List Nat} (hl : l.Pairwise (· < ·)) {i k : Nat} (hi : i < l.length) :
    i < (l.countP fun p => p ≤ k) ↔ l[i] ≤ k := by
  induction l generalizing i with
  | nil => simp at hi
  | cons a l ih =>
    obtain ⟨ha, hl⟩ := List.pairwise_cons.mp hl
    by_cases hk : a ≤ k
    · rw [List.countP_cons_of_pos (by simpa using hk)]
      cases i with
      | zero => simpa using hk
      | succ i => simpa using ih hl (by simpa using hi)
    · have hzero : (l.countP fun p => decide (p ≤ k)) = 0 := by
        rw [List.countP_eq_zero]
        intro p hp
        have := ha p hp
        simp only [decide_eq_true_eq, not_le]
        omega
      rw [List.countP_cons_of_neg (by simpa using hk), hzero]
      cases i with
      | zero => simpa using hk
      | succ i =>
        have hi : i < l.length := by simpa using hi
        have := ha l[i] (List.getElem_mem hi)
        simp only [List.getElem_cons_succ, Nat.not_lt_zero, false_iff]
        omega

theorem start_eq {b : Nat} (hb : b < c.points.length) : c.start b = c.points[b] := by
  simp [start, hb]

theorem start_mem {b : Nat} (hb : b < c.points.length) : c.start b ∈ c.points := by
  rw [c.start_eq hb]
  exact List.getElem_mem hb

theorem start_of_le {b : Nat} (hb : c.points.length ≤ b) : c.start b = n := by
  simp [start, hb]

theorem start_lt {b : Nat} (hb : b < c.points.length) : c.start b < n :=
  c.bounded _ (c.start_mem hb)

theorem start_le (b : Nat) : c.start b ≤ n := by
  rcases Nat.lt_or_ge b c.points.length with hb | hb
  · exact Nat.le_of_lt (c.start_lt hb)
  · exact Nat.le_of_eq (c.start_of_le hb)

theorem start_lt_start {a b : Nat} (hab : a < b) (ha : a < c.points.length) :
    c.start a < c.start b := by
  rcases Nat.lt_or_ge b c.points.length with hb | hb
  · rw [c.start_eq ha, c.start_eq hb]
    exact List.pairwise_iff_getElem.mp c.sorted a b ha hb hab
  · rw [c.start_of_le hb]
    exact c.start_lt ha

theorem start_mono {a b : Nat} (hab : a ≤ b) : c.start a ≤ c.start b := by
  rcases Nat.eq_or_lt_of_le hab with rfl | hlt
  · exact Nat.le_refl _
  · rcases Nat.lt_or_ge a c.points.length with ha | ha
    · exact Nat.le_of_lt (c.start_lt_start hlt ha)
    · rw [c.start_of_le ha, c.start_of_le (by omega)]

variable {c}

theorem segment_spec {k : Nat} (hk : k < n) :
    c.segment k < c.points.length ∧ c.start (c.segment k) ≤ k ∧ k < c.start (c.segment k + 1) := by
  have hpos : 0 < c.points.countP fun p => decide (p ≤ k) :=
    List.countP_pos_iff.mpr ⟨0, c.first (by omega), by simp⟩
  have hle : (c.points.countP fun p => decide (p ≤ k)) ≤ c.points.length := List.countP_le_length
  have hlt : c.segment k < c.points.length := by
    unfold segment
    omega
  refine ⟨hlt, ?_, ?_⟩
  · rw [c.start_eq hlt]
    exact (lt_countP_iff c.sorted hlt).mp (by unfold segment; omega)
  · rcases Nat.lt_or_ge (c.segment k + 1) c.points.length with hb | hb
    · rw [c.start_eq hb]
      have hnot := mt (lt_countP_iff c.sorted (k := k) hb).mpr (by unfold segment; omega)
      omega
    · rw [c.start_of_le hb]
      exact hk

theorem segment_unique {b k : Nat} (hl : c.start b ≤ k) (hr : k < c.start (b + 1)) :
    b = c.segment k := by
  have hk : k < n := Nat.lt_of_lt_of_le hr (c.start_le _)
  obtain ⟨hs, hsl, hsr⟩ := segment_spec (c := c) hk
  by_contra hne
  rcases Nat.lt_or_ge b (c.segment k) with h | h
  · have := c.start_mono (show b + 1 ≤ c.segment k from h)
    omega
  · have := c.start_mono (show c.segment k + 1 ≤ b by omega)
    omega

theorem start_segment {k : Nat} (hk : k ∈ c.points) : c.start (c.segment k) = k := by
  obtain ⟨b, hb, rfl⟩ := List.mem_iff_getElem.mp hk
  have hstart := c.start_eq hb
  have hnext := c.start_lt_start (Nat.lt_succ_self b) hb
  rw [← hstart, ← segment_unique (Nat.le_refl _) hnext]

theorem start_zero (hn : 0 < n) : c.start 0 = 0 := by
  obtain ⟨b, hb, hz⟩ := List.mem_iff_getElem.mp (c.first hn)
  have hmono := c.start_mono (Nat.zero_le b)
  rw [c.start_eq hb, hz] at hmono
  omega

end Cuts

end TurboJS.Foundation
