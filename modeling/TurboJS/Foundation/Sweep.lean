import Mathlib.Tactic.Common

namespace TurboJS.Foundation

/-! Backward sweeps over a table of values, one for each node, until a sweep changes nothing. -/

variable {β : Type*} [DecidableEq β]

/-- The nodes below `n`, from the last to the first; the flag records whether a value changed. -/
def sweep (new : (Nat → β) → Nat → β) : Nat → (Nat → β) × Bool → (Nat → β) × Bool
  | 0, s => s
  | k + 1, (t, changed) =>
    sweep new k (if new t k = t k then (t, changed) else (Function.update t k (new t k), true))

/-- At most `fuel` sweeps; `none` if the last one still changed a value. -/
def settle (new : (Nat → β) → Nat → β) (n : Nat) : Nat → (Nat → β) → Option (Nat → β)
  | 0, _ => none
  | fuel + 1, t =>
    match sweep new n (t, false) with
    | (t', true) => settle new n fuel t'
    | (t', false) => some t'

section

variable {new : (Nat → β) → Nat → β} {n fuel : Nat} {t t' : Nat → β} {changed : Bool}

theorem sweep_changed (n : Nat) (t : Nat → β) : (sweep new n (t, true)).2 = true := by
  induction n generalizing t with
  | zero => rfl
  | succ k ih =>
    simp only [sweep]
    split
    · exact ih t
    · exact ih _

theorem sweep_stable (h : sweep new n (t, false) = (t', false)) :
    t' = t ∧ ∀ k, k < n → new t k = t k := by
  induction n with
  | zero =>
    cases h
    exact ⟨rfl, fun k hk => absurd hk (Nat.not_lt_zero k)⟩
  | succ m ih =>
    simp only [sweep] at h
    split at h
    · rename_i hsame
      obtain ⟨ht, hall⟩ := ih h
      refine ⟨ht, ?_⟩
      intro k hk
      rcases Nat.lt_succ_iff_lt_or_eq.mp hk with hlt | rfl
      · exact hall k hlt
      · exact hsame
    · have hchanged : (sweep new m (Function.update t m (new t m), true)).2 = true :=
        sweep_changed m _
      rw [h] at hchanged
      cases hchanged

theorem sweep_keeps {P : Nat → β → Prop} (hnew : ∀ t, (∀ j, P j (t j)) → ∀ k, P k (new t k))
    (ht : ∀ j, P j (t j)) : ∀ j, P j ((sweep new n (t, changed)).1 j) := by
  induction n generalizing t changed with
  | zero => exact ht
  | succ k ih =>
    simp only [sweep]
    split
    · exact ih ht
    · apply ih
      intro j
      by_cases hj : j = k
      · subst hj
        rw [Function.update_self]
        exact hnew t ht j
      · rw [Function.update_of_ne hj]
        exact ht j

theorem settle_stable (h : settle new n fuel t = some t') : ∀ k, k < n → new t' k = t' k := by
  induction fuel generalizing t with
  | zero => cases h
  | succ fuel ih =>
    simp only [settle] at h
    split at h
    · exact ih h
    · rename_i t₁ hsweep
      cases h
      obtain ⟨rfl, hall⟩ := sweep_stable hsweep
      exact hall

theorem settle_keeps {P : Nat → β → Prop} (hnew : ∀ t, (∀ j, P j (t j)) → ∀ k, P k (new t k))
    (ht : ∀ j, P j (t j)) (h : settle new n fuel t = some t') : ∀ j, P j (t' j) := by
  induction fuel generalizing t with
  | zero => cases h
  | succ fuel ih =>
    have hkeeps : ∀ j, P j ((sweep new n (t, false)).1 j) := sweep_keeps hnew ht
    simp only [settle] at h
    split at h
    · rename_i t₁ hsweep
      rw [hsweep] at hkeeps
      exact ih hkeeps h
    · rename_i t₁ hsweep
      rw [hsweep] at hkeeps
      cases h
      exact hkeeps

end

end TurboJS.Foundation
