import Mathlib.Order.Interval.Finset.Nat
import Mathlib.Algebra.Order.BigOperators.Group.List
import Mathlib.Algebra.Order.Ring.Int

namespace TurboJS.Foundation

/-! Intervals of numbers that do not overlap. -/

variable {α : Type*}

/-- Two intervals, each with a start and a length. -/
def Apart (start len : α → Nat) (x y : α) : Prop :=
  start x + len x ≤ start y ∨ start y + len y ≤ start x

section

variable {start len : α → Nat} {x y : α} {l : List α}

theorem Apart.symm (h : Apart start len x y) : Apart start len y x := Or.symm h

instance : Std.Symm (Apart start len) where
  symm := fun _ _ h => h.symm

theorem Apart.not_both (h : Apart start len x y) {a : Nat} (hx : start x ≤ a)
    (hx' : a < start x + len x) (hy : start y ≤ a) (hy' : a < start y + len y) : False := by
  rcases h with h | h <;> omega

theorem exists_cover (h : l.Pairwise (Apart start len)) :
    ∃ s : Finset Nat, s.card = (l.map len).sum ∧
      ∀ a ∈ s, ∃ x ∈ l, start x ≤ a ∧ a < start x + len x := by
  induction l with
  | nil => exact ⟨∅, rfl, by simp⟩
  | cons x l ih =>
    obtain ⟨hx, hl⟩ := List.pairwise_cons.mp h
    obtain ⟨s, hcard, hs⟩ := ih hl
    have hdisj : Disjoint (Finset.Ico (start x) (start x + len x)) s := by
      rw [Finset.disjoint_left]
      intro a ha has
      obtain ⟨y, hy, hlo, hhi⟩ := hs a has
      obtain ⟨hlo', hhi'⟩ := Finset.mem_Ico.mp ha
      exact (hx y hy).not_both hlo' hhi' hlo hhi
    refine ⟨Finset.Ico (start x) (start x + len x) ∪ s, ?_, ?_⟩
    · rw [Finset.card_union_of_disjoint hdisj, Nat.card_Ico, hcard, List.map_cons, List.sum_cons,
        Nat.add_sub_cancel_left]
    · intro a ha
      rcases Finset.mem_union.mp ha with hax | has
      · obtain ⟨hlo, hhi⟩ := Finset.mem_Ico.mp hax
        exact ⟨x, List.mem_cons_self, hlo, hhi⟩
      · obtain ⟨y, hy, hlo, hhi⟩ := hs a has
        exact ⟨y, List.mem_cons_of_mem x hy, hlo, hhi⟩

theorem sum_length_le {lo hi : Nat} (h : l.Pairwise (Apart start len))
    (hin : ∀ x ∈ l, lo ≤ start x ∧ start x + len x ≤ hi) : (l.map len).sum ≤ hi - lo := by
  obtain ⟨s, hcard, hs⟩ := exists_cover h
  have hsub : s ⊆ Finset.Ico lo hi := by
    intro a ha
    obtain ⟨x, hx, hlo, hhi⟩ := hs a ha
    obtain ⟨hlo', hhi'⟩ := hin x hx
    exact Finset.mem_Ico.mpr ⟨by omega, by omega⟩
  have hle := Finset.card_le_card hsub
  rwa [hcard, Nat.card_Ico] at hle

end

end TurboJS.Foundation
