import Mathlib.Tactic.Common

namespace TurboJS.Foundation

/-! Computations that may stop with an error. -/

universe u v

variable {ε : Type u} {σ α β : Type v}

theorem bind_eq_ok {x : Except ε α} {f : α → Except ε β} {b : β} :
    x >>= f = .ok b ↔ ∃ a, x = .ok a ∧ f a = .ok b := by
  cases x with
  | error e => simp [bind, Except.bind]
  | ok a => simp [bind, Except.bind]

theorem ok_of_toOption {x : Except ε α} {a : α} (h : x.toOption = some a) : x = .ok a := by
  cases x with
  | error e => cases h
  | ok b =>
    cases h
    rfl

theorem foldlM_cons_eq_ok {step : σ → α → Except ε σ} {a : α} {l : List α} {s t : σ} :
    (a :: l).foldlM step s = .ok t ↔ ∃ u, step s a = .ok u ∧ l.foldlM step u = .ok t := by
  rw [List.foldlM_cons, bind_eq_ok]

theorem foldlM_invariant {P : σ → Prop} {step : σ → α → Except ε σ}
    (hstep : ∀ s a t, P s → step s a = .ok t → P t) {l : List α} {s t : σ} (hs : P s)
    (h : l.foldlM step s = .ok t) : P t := by
  induction l generalizing s with
  | nil =>
    cases h
    exact hs
  | cons a l ih =>
    obtain ⟨u, hu, hrest⟩ := foldlM_cons_eq_ok.mp h
    exact ih (hstep s a u hs hu) hrest

theorem mapM_ok {f : α → Except ε β} {l : List α} {r : List β} (h : l.mapM f = .ok r) :
    r.length = l.length ∧
      ∀ (k : Nat) (a : α), l[k]? = some a → ∃ b, r[k]? = some b ∧ f a = .ok b := by
  induction l generalizing r with
  | nil =>
    rw [List.mapM_nil] at h
    cases h
    simp
  | cons a l ih =>
    rw [List.mapM_cons] at h
    obtain ⟨b, hb, h⟩ := bind_eq_ok.mp h
    obtain ⟨bs, hbs, h⟩ := bind_eq_ok.mp h
    cases h
    obtain ⟨hlen, hget⟩ := ih hbs
    refine ⟨by simp [hlen], ?_⟩
    intro k c hk
    cases k with
    | zero =>
      simp only [List.getElem?_cons_zero, Option.some.injEq] at hk ⊢
      subst hk
      exact ⟨b, rfl, hb⟩
    | succ k =>
      simp only [List.getElem?_cons_succ] at hk ⊢
      exact hget k c hk

end TurboJS.Foundation
