import Mathlib.Data.List.Induction

namespace TurboJS.Foundation

variable {σ : Type*}

/-- A run of a partial step function that leaves only states inside a region. The last
state may lie outside it. -/
inductive Runs (step : σ → Option σ) (inside : σ → Prop) : σ → σ → Prop where
  | refl (s : σ) : Runs step inside s s
  | head {s t u : σ} (hi : inside s) (hs : step s = some t) (rest : Runs step inside t u) :
      Runs step inside s u

section

variable {step : σ → Option σ} {inside inside' : σ → Prop} {s t u : σ}

theorem Runs.one (hi : inside s) (hs : step s = some t) : Runs step inside s t :=
  .head hi hs (.refl t)

theorem Runs.trans (h : Runs step inside s t) (h' : Runs step inside t u) :
    Runs step inside s u := by
  induction h with
  | refl s => exact h'
  | head hi hs _ ih => exact .head hi hs (ih h')

theorem Runs.first (h : Runs step inside s u) : u = s ∨ ∃ t, step s = some t ∧ Runs step inside t u := by
  cases h with
  | refl => exact .inl rfl
  | head _ hs rest => exact .inr ⟨_, hs, rest⟩

theorem Runs.keeps {P : σ → Prop} (hstep : ∀ s t, P s → step s = some t → P t)
    (h : Runs step inside s t) (hs : P s) : P t := by
  induction h with
  | refl s => exact hs
  | head _ hstep' _ ih => exact ih (hstep _ _ hs hstep')

theorem Runs.mono (hsub : ∀ s, inside s → inside' s) (h : Runs step inside s t) :
    Runs step inside' s t := by
  induction h with
  | refl s => exact .refl s
  | head hi hs _ ih => exact .head (hsub _ hi) hs ih

theorem Runs.moving (h : Runs step inside s t) : Runs step (fun u => step u ≠ none) s t := by
  induction h with
  | refl s => exact .refl s
  | head _ hs _ ih => exact .head (by rw [hs]; nofun) hs ih

theorem Runs.iterate (f : Nat → σ) (n : Nat)
    (h : ∀ k, k < n → Runs step inside (f k) (f (k + 1))) : Runs step inside (f 0) (f n) := by
  induction n with
  | zero => exact .refl _
  | succ n ih =>
    have hfirst := ih (fun k hk => h k (Nat.lt_succ_of_lt hk))
    exact hfirst.trans (h n (Nat.lt_succ_self n))

theorem Runs.exit_unique (h : Runs step inside s t) (h' : Runs step inside s u)
    (ht : ¬ inside t) (hu : ¬ inside u) : t = u := by
  induction h with
  | refl s =>
    cases h' with
    | refl => rfl
    | head hi _ _ => exact absurd hi ht
  | head hi hs _ ih =>
    cases h' with
    | refl => exact absurd hi hu
    | head hi' hs' rest =>
      rw [hs] at hs'
      cases hs'
      exact ih rest ht

theorem Runs.rest_of_exit (h : Runs step inside s t) (h' : Runs step inside s u)
    (hu : ¬ inside u) : Runs step inside t u := by
  induction h with
  | refl s => exact h'
  | head hi hs _ ih =>
    cases h' with
    | refl => exact absurd hi hu
    | head _ hs' rest =>
      rw [hs] at hs'
      cases hs'
      exact ih rest

end

/-- A run with its number of steps. -/
inductive RunsFor (step : σ → Option σ) (inside : σ → Prop) : Nat → σ → σ → Prop where
  | refl (s : σ) : RunsFor step inside 0 s s
  | head {n : Nat} {s t u : σ} (hi : inside s) (hs : step s = some t)
      (rest : RunsFor step inside n t u) : RunsFor step inside (n + 1) s u

section

variable {step : σ → Option σ} {inside : σ → Prop} {s t u : σ} {n : Nat}

theorem Runs.counted (h : Runs step inside s t) : ∃ n, RunsFor step inside n s t := by
  induction h with
  | refl s => exact ⟨0, .refl s⟩
  | head hi hs _ ih =>
    obtain ⟨n, hn⟩ := ih
    exact ⟨n + 1, .head hi hs hn⟩

theorem RunsFor.runs (h : RunsFor step inside n s t) : Runs step inside s t := by
  induction h with
  | refl s => exact .refl s
  | head hi hs _ ih => exact .head hi hs ih

theorem RunsFor.rest (h : RunsFor step inside n s u) (hu : ¬ inside u)
    (h' : Runs step inside s t) : ∃ m, m ≤ n ∧ RunsFor step inside m t u ∧ (m = n → t = s) := by
  induction h' generalizing n with
  | refl s => exact ⟨n, Nat.le_refl n, h, fun _ => rfl⟩
  | head hi hs _ ih =>
    cases h with
    | refl => exact absurd hi hu
    | head _ hs' rest =>
      rw [hs] at hs'
      cases hs'
      obtain ⟨m, hle, hm, -⟩ := ih rest
      exact ⟨m, by omega, hm, by omega⟩

theorem Runs.ends {P Q : σ → Prop}
    (hstep : ∀ s, P s → (∃ t, Runs step inside s t ∧ t ≠ s ∧ P t) ∨
      ∃ t, Runs step inside s t ∧ ¬ inside t ∧ Q t)
    (h : Runs step inside s u) (hu : ¬ inside u) (hs : P s) : Q u := by
  obtain ⟨n, hn⟩ := h.counted
  induction n using Nat.strongRecOn generalizing s with
  | ind n ih =>
    rcases hstep s hs with ⟨t, hrun, hne, ht⟩ | ⟨t, hrun, hout, hq⟩
    · obtain ⟨m, hle, hm, heq⟩ := hn.rest hu hrun
      have hlt : m < n := by
        rcases Nat.lt_or_eq_of_le hle with hlt | he
        · exact hlt
        · exact absurd (heq he) hne
      exact ih m hlt (hm.runs) ht hm
    · rw [h.exit_unique hrun hu hout]
      exact hq

end

/-- The run as a function: at most `fuel` steps, as long as the state is inside. -/
def advance (step : σ → Option σ) (inside : σ → Bool) : Nat → σ → σ
  | 0, s => s
  | fuel + 1, s =>
    if inside s then
      match step s with
      | some t => advance step inside fuel t
      | none => s
    else s

theorem advance_runs (step : σ → Option σ) (inside : σ → Bool) (fuel : Nat) (s : σ) :
    Runs step (fun s => inside s = true) s (advance step inside fuel s) := by
  induction fuel generalizing s with
  | zero => exact .refl s
  | succ fuel ih =>
    unfold advance
    split
    · rename_i hi
      split
      · rename_i t ht
        exact .head hi ht (ih t)
      · exact .refl s
    · exact .refl s

/-- The states that a labelled step function reaches from `init` by steps that are all `ok`
in the state they start from. -/
inductive Reach {α : Type*} (step : σ → α → Option σ) (ok : σ → α → Prop) (init : σ) :
    σ → Prop where
  | init : Reach step ok init init
  | step {s t : σ} {a : α} (hr : Reach step ok init s) (hok : ok s a) (hs : step s a = some t) :
      Reach step ok init t

theorem Reach.invariant {α : Type*} {step : σ → α → Option σ} {ok : σ → α → Prop} {init : σ}
    {P : σ → Prop} (h0 : P init)
    (hstep : ∀ s a t, P s → ok s a → step s a = some t → P t) {s : σ}
    (h : Reach step ok init s) : P s := by
  induction h with
  | init => exact h0
  | step _ hok hs ih => exact hstep _ _ _ ih hok hs

theorem Reach.of_foldlM {α : Type*} {step : σ → α → Option σ} {init s : σ} {l : List α}
    (h : l.foldlM step init = some s) : Reach step (fun _ _ => True) init s := by
  induction l using List.reverseRecOn generalizing s with
  | nil =>
    simp only [List.foldlM_nil, Option.pure_def, Option.some.injEq] at h
    subst h
    exact .init
  | append_singleton l a ih =>
    rw [List.foldlM_append] at h
    obtain ⟨t, ht, hs⟩ := Option.bind_eq_some_iff.mp h
    rw [List.foldlM_cons] at hs
    obtain ⟨u, hu, hn⟩ := Option.bind_eq_some_iff.mp hs
    cases hn
    exact .step (ih ht) trivial hu

theorem Reach.of_guarded {α : Type*} {step : σ → α → Option σ} {ok : σ → α → Prop}
    [∀ s a, Decidable (ok s a)] {init s : σ} {l : List α}
    (h : l.foldlM (fun s a => if ok s a then step s a else none) init = some s) :
    Reach step ok init s := by
  refine Reach.invariant (P := Reach step ok init) .init ?_ (Reach.of_foldlM h)
  intro s a t hr _ hs
  split at hs
  · rename_i hok
    exact .step hr hok hs
  · cases hs

/-- A list of inputs to a machine, each of which has the property `P` in the state that it
finds. -/
def Along {α : Type*} (step : σ → α → σ) (P : σ → α → Prop) : σ → List α → Prop
  | _, [] => True
  | s, a :: rest => P s a ∧ Along step P (step s a) rest

theorem along_iff_of_kept {α : Type*} {step : σ → α → σ} {P Q : σ → α → Prop} {I : σ → Prop}
    {K : α → Prop} (hkeep : ∀ s a, I s → K a → Q s a → I (step s a))
    (hiff : ∀ s a, I s → K a → (P s a ↔ Q s a)) {s : σ} (hs : I s) {l : List α}
    (hl : ∀ a ∈ l, K a) : Along step P s l ↔ Along step Q s l := by
  induction l generalizing s with
  | nil => exact Iff.rfl
  | cons a rest ih =>
    have ha := hl a List.mem_cons_self
    have hrest : Q s a → (Along step P (step s a) rest ↔ Along step Q (step s a) rest) := fun hq =>
      ih (hkeep s a hs ha hq) fun b hb => hl b (List.mem_cons_of_mem a hb)
    constructor
    · rintro ⟨hp, hr⟩
      have hq := (hiff s a hs ha).mp hp
      exact ⟨hq, (hrest hq).mp hr⟩
    · rintro ⟨hq, hr⟩
      exact ⟨(hiff s a hs ha).mpr hq, (hrest hq).mpr hr⟩

theorem along_iff {α : Type*} {step : σ → α → σ} {P Q : σ → α → Prop} {I : σ → Prop}
    {K : α → Prop} (hkeep : ∀ s a, I s → K a → I (step s a))
    (hiff : ∀ s a, I s → K a → (P s a ↔ Q s a)) {s : σ} (hs : I s) {l : List α}
    (hl : ∀ a ∈ l, K a) : Along step P s l ↔ Along step Q s l :=
  along_iff_of_kept (fun s a hi hk _ => hkeep s a hi hk) hiff hs hl

theorem along_of_invariant {α : Type*} {step : σ → α → σ} {P : σ → α → Prop} {I : σ → Prop}
    {K : α → Prop} (hkeep : ∀ s a, I s → K a → I (step s a)) (hP : ∀ s a, I s → K a → P s a)
    {s : σ} (hs : I s) {l : List α} (hl : ∀ a ∈ l, K a) : Along step P s l := by
  induction l generalizing s with
  | nil => trivial
  | cons a rest ih =>
    have ha := hl a List.mem_cons_self
    exact ⟨hP s a hs ha, ih (hkeep s a hs ha) fun b hb => hl b (List.mem_cons_of_mem a hb)⟩

end TurboJS.Foundation
