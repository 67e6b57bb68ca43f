import Mathlib.Tactic.Common
import Mathlib.Logic.Function.Iterate

namespace TurboJS.Foundation

variable {σ : Type*}

/-- `for (i = 0; i < n; i++) body`, where a body may stop the whole run. -/
def forUpM (n : Nat) (body : Nat → σ → Option σ) (s : σ) : Option σ :=
  (List.range n).foldlM (fun s i => body i s) s

/-- `for (i = 0; i < n; i++) body`. -/
def forUp (n : Nat) (body : Nat → σ → σ) (s : σ) : σ :=
  (List.range n).foldl (fun s i => body i s) s

/-- The first `i < n` in increasing order at which `p` answers. -/
def searchUp {α : Type*} (n : Nat) (p : Nat → Option α) : Option α :=
  (List.range n).findSome? p

@[simp] theorem forUp_zero (body : Nat → σ → σ) (s : σ) : forUp 0 body s = s := rfl

theorem forUp_succ (n : Nat) (body : Nat → σ → σ) (s : σ) :
    forUp (n + 1) body s = body n (forUp n body s) := by
  simp [forUp, List.range_succ, List.foldl_append]

theorem forUpM_succ (n : Nat) (body : Nat → σ → Option σ) (s : σ) :
    forUpM (n + 1) body s = (forUpM n body s).bind (body n) := by
  simp [forUpM, List.range_succ, List.foldlM_append]

theorem forUp_induction {P : Nat → σ → Prop} {n : Nat} {body : Nat → σ → σ} {s : σ}
    (h0 : P 0 s) (hs : ∀ i s, i < n → P i s → P (i + 1) (body i s)) : P n (forUp n body s) := by
  induction n with
  | zero => exact h0
  | succ n ih =>
    rw [forUp_succ]
    refine hs n _ (Nat.lt_succ_self n) (ih ?_)
    intro i s hi hp
    exact hs i s (Nat.lt_succ_of_lt hi) hp

theorem forUp_invariant {P : σ → Prop} {n : Nat} {body : Nat → σ → σ} {s : σ}
    (h0 : P s) (hs : ∀ i s, i < n → P s → P (body i s)) : P (forUp n body s) :=
  forUp_induction (P := fun _ => P) h0 hs

theorem forUp_id {n : Nat} {body : Nat → σ → σ} {s : σ} (h : ∀ i, i < n → body i s = s) :
    forUp n body s = s := by
  refine forUp_invariant (P := fun t => t = s) rfl ?_
  intro i t hi ht
  rw [ht, h i hi]

theorem forUpM_induction {P : Nat → σ → Prop} {n : Nat} {body : Nat → σ → Option σ} {s t : σ}
    (h0 : P 0 s) (hs : ∀ i s s', i < n → P i s → body i s = some s' → P (i + 1) s')
    (h : forUpM n body s = some t) : P n t := by
  induction n generalizing t with
  | zero =>
    simp only [forUpM, List.range_zero, List.foldlM_nil, Option.pure_def, Option.some.injEq] at h
    subst h
    exact h0
  | succ n ih =>
    rw [forUpM_succ] at h
    obtain ⟨u, hu, ht⟩ := Option.bind_eq_some_iff.mp h
    refine hs n u t (Nat.lt_succ_self n) (ih ?_ hu) ht
    intro i s s' hi hp hb
    exact hs i s s' (Nat.lt_succ_of_lt hi) hp hb

theorem forUpM_invariant {P : σ → Prop} {n : Nat} {body : Nat → σ → Option σ} {s t : σ}
    (h0 : P s) (hs : ∀ i s s', i < n → P s → body i s = some s' → P s')
    (h : forUpM n body s = some t) : P t :=
  forUpM_induction (P := fun _ => P) h0 hs h

theorem forUpM_reached {P : σ → Prop} {n : Nat} {body : Nat → σ → Option σ} {s t : σ}
    (h0 : P s)
    (hs : ∀ i u u', i < n → P u → forUpM i body s = some u → body i u = some u' → P u')
    (h : forUpM n body s = some t) : P t := by
  induction n generalizing t with
  | zero =>
    cases h
    exact h0
  | succ n ih =>
    rw [forUpM_succ] at h
    obtain ⟨u, hu, ht⟩ := Option.bind_eq_some_iff.mp h
    refine hs n u t (Nat.lt_succ_self n) (ih ?_ hu) hu ht
    intro i u u' hi
    exact hs i u u' (Nat.lt_succ_of_lt hi)

theorem forUpM_rest {P : σ → Prop} {n i : Nat} {body : Nat → σ → Option σ} {s t u : σ}
    (hi : i ≤ n) (hu : forUpM i body s = some u) (h0 : P u)
    (hs : ∀ j v v', P v → body j v = some v' → P v') (h : forUpM n body s = some t) : P t := by
  obtain ⟨d, rfl⟩ := Nat.exists_eq_add_of_le hi
  clear hi
  induction d generalizing t with
  | zero =>
    rw [Nat.add_zero, hu] at h
    cases h
    exact h0
  | succ d ih =>
    rw [← Nat.add_assoc, forUpM_succ] at h
    obtain ⟨v, hv, ht⟩ := Option.bind_eq_some_iff.mp h
    exact hs (i + d) v t (ih hv) ht

theorem forUpM_id {n : Nat} {body : Nat → σ → Option σ} {s : σ}
    (h : ∀ i, i < n → body i s = some s) : forUpM n body s = some s := by
  induction n with
  | zero => rfl
  | succ n ih =>
    rw [forUpM_succ, ih fun i hi => h i (Nat.lt_succ_of_lt hi)]
    exact h n (Nat.lt_succ_self n)

theorem searchUp_some {α : Type*} {n : Nat} {p : Nat → Option α} {a : α}
    (h : searchUp n p = some a) : ∃ i, i < n ∧ p i = some a := by
  obtain ⟨i, hi, hp⟩ := List.exists_of_findSome?_eq_some h
  exact ⟨i, List.mem_range.mp hi, hp⟩

section

variable [DecidableEq σ] {step : σ → σ} {s t : σ} {fuel k : Nat}

/-- A step repeated until it changes nothing; `none` when `fuel` rounds are not enough. -/
def untilFixed (step : σ → σ) : Nat → σ → Option σ
  | 0, _ => none
  | fuel + 1, s => if step s = s then some s else untilFixed step fuel (step s)

/-- The repetition ends. -/
def Settles (step : σ → σ) (s : σ) : Prop :=
  ∃ k t, ∀ fuel, k ≤ fuel → untilFixed step fuel s = some t

theorem untilFixed_some (h : untilFixed step fuel s = some t) :
    ∃ k, t = step^[k] s ∧ step t = t := by
  induction fuel generalizing s with
  | zero => cases h
  | succ fuel ih =>
    unfold untilFixed at h
    split at h
    · rename_i hfix
      cases h
      exact ⟨0, rfl, hfix⟩
    · obtain ⟨k, ht, hfix⟩ := ih h
      exact ⟨k + 1, ht, hfix⟩

theorem untilFixed_invariant {P : σ → Prop} (hs : P s) (hstep : ∀ s, P s → P (step s))
    (h : untilFixed step fuel s = some t) : P t := by
  induction fuel generalizing s with
  | zero => cases h
  | succ fuel ih =>
    unfold untilFixed at h
    split at h
    · cases h
      exact hs
    · exact ih (hstep s hs) h

theorem untilFixed_mono {more : Nat} (h : untilFixed step fuel s = some t) (hle : fuel ≤ more) :
    untilFixed step more s = some t := by
  induction fuel generalizing s more with
  | zero => cases h
  | succ fuel ih =>
    obtain ⟨more, rfl⟩ := Nat.exists_eq_add_of_le' hle
    unfold untilFixed at h ⊢
    split
    · rename_i hfix
      rwa [if_pos hfix] at h
    · rename_i hfix
      rw [if_neg hfix] at h
      exact ih h (Nat.le_add_left fuel more)

theorem untilFixed_of_fixed (hk : step (step^[k] s) = step^[k] s) :
    ∃ t, ∀ fuel, k + 1 ≤ fuel → untilFixed step fuel s = some t := by
  induction k generalizing s with
  | zero =>
    refine ⟨s, ?_⟩
    intro fuel hf
    obtain ⟨fuel, rfl⟩ := Nat.exists_eq_add_of_le' hf
    exact if_pos hk
  | succ k ih =>
    by_cases hfix : step s = s
    · refine ⟨s, ?_⟩
      intro fuel hf
      obtain ⟨fuel, rfl⟩ := Nat.exists_eq_add_of_le' (Nat.le_trans (Nat.le_add_left 1 _) hf)
      exact if_pos hfix
    · obtain ⟨t, ht⟩ := ih (s := step s) hk
      refine ⟨t, ?_⟩
      intro fuel hf
      obtain ⟨fuel, rfl⟩ := Nat.exists_eq_add_of_le' (Nat.le_trans (Nat.le_add_left 1 _) hf)
      rw [untilFixed, if_neg hfix]
      exact ht fuel (by omega)

theorem settles_iff : Settles step s ↔ ∃ k, step (step^[k] s) = step^[k] s := by
  constructor
  · rintro ⟨k, t, h⟩
    obtain ⟨n, ht, hfix⟩ := untilFixed_some (h k (Nat.le_refl k))
    exact ⟨n, ht ▸ hfix⟩
  · rintro ⟨k, hk⟩
    obtain ⟨t, ht⟩ := untilFixed_of_fixed hk
    exact ⟨k + 1, t, ht⟩

omit [DecidableEq σ] in
theorem iterate_of_fixed (hk : step (step^[k] s) = step^[k] s) {n : Nat} (hn : k ≤ n) :
    step^[n] s = step^[k] s := by
  obtain ⟨d, rfl⟩ := Nat.exists_eq_add_of_le hn
  clear hn
  induction d with
  | zero => rfl
  | succ d ih => rw [← Nat.add_assoc, Function.iterate_succ_apply', ih, hk]

theorem settles_of_measure (μ : σ → Nat) (k : Nat)
    (h : ∀ n, k ≤ n → step (step^[n] s) = step^[n] s ∨ μ (step (step^[n] s)) < μ (step^[n] s)) :
    Settles step s := by
  rw [settles_iff]
  induction hm : μ (step^[k] s) using Nat.strongRecOn generalizing k with
  | _ m ih =>
    rcases h k (Nat.le_refl k) with hfix | hless
    · exact ⟨k, hfix⟩
    · refine ih (μ (step^[k + 1] s)) ?_ (k + 1) (fun n hn => h n (by omega)) rfl
      rw [Function.iterate_succ_apply', ← hm]
      exact hless

theorem not_settles_of_swap (hst : step s = t) (hts : step t = s) (hne : s ≠ t) :
    untilFixed step fuel s = none := by
  induction fuel generalizing s t with
  | zero => rfl
  | succ fuel ih =>
    rw [untilFixed, hst, if_neg (Ne.symm hne)]
    exact ih hts hst (Ne.symm hne)

end

end TurboJS.Foundation
