import Mathlib.Data.List.Basic

namespace TurboJS.Foundation

/-! Loops that walk a linked list with a cursor while their bodies change the list. -/

universe u v

variable {α : Type u} {σ : Type v}

section

variable [DecidableEq α]

/-- The element behind `p`. -/
def nextIn (l : List α) (p : α) : Option α := (l.drop (l.idxOf p + 1)).head?

/-- A loop that looks up the next element before its body runs; `none` is the list's head. -/
def forEachSafe (list : σ → List α) (body : σ → α → Option σ) : Nat → Option α → σ → Option σ
  | _, none, s => some s
  | 0, some _, _ => none
  | fuel + 1, some p, s =>
    (body s p).bind fun s' => forEachSafe list body fuel (nextIn (list s) p) s'

/-- A loop that looks up the next element after its body has run. -/
def forEach (list : σ → List α) (body : σ → α → Option σ) : Nat → Option α → σ → Option σ
  | _, none, s => some s
  | 0, some _, _ => none
  | fuel + 1, some p, s =>
    (body s p).bind fun s' => forEach list body fuel (nextIn (list s') p) s'

variable {list : σ → List α} {body : σ → α → Option σ} {I : List α → List α → σ → Prop}
  {done todo pre post : List α} {p : α} {s : σ} {fuel bound : Nat}

theorem nextIn_append (hp : p ∉ pre) : nextIn (pre ++ p :: post) p = post.head? := by
  rw [nextIn, List.idxOf_append_of_notMem hp, List.idxOf_cons_self, Nat.add_zero,
    List.drop_append, List.drop_of_length_le (Nat.le_succ _)]
  simp

theorem forEachSafe_rule
    (hnext : ∀ done p todo s, I done (p :: todo) s → nextIn (list s) p = todo.head?)
    (hbody : ∀ done p todo s, I done (p :: todo) s →
      ∃ s', body s p = some s' ∧ I (done ++ [p]) todo s')
    (h : I done todo s) (hfuel : todo.length ≤ fuel) :
    ∃ s', forEachSafe list body fuel todo.head? s = some s' ∧ I (done ++ todo) [] s' := by
  induction todo generalizing done s fuel with
  | nil => exact ⟨s, by cases fuel <;> rfl, by simpa using h⟩
  | cons p todo ih =>
    cases fuel with
    | zero => simp at hfuel
    | succ fuel =>
      obtain ⟨s', hs', hi⟩ := hbody done p todo s h
      obtain ⟨t, ht, hend⟩ := ih hi (by simpa using hfuel)
      refine ⟨t, ?_, by simpa using hend⟩
      rw [List.head?_cons, forEachSafe, hs', Option.bind_some, hnext done p todo s h]
      exact ht

theorem forEach_rule
    (hbound : ∀ done todo s, I done todo s → done.length + todo.length ≤ bound)
    (hbody : ∀ done p todo s, I done (p :: todo) s → ∃ s' added, body s p = some s' ∧
      nextIn (list s') p = (todo ++ added).head? ∧ I (done ++ [p]) (todo ++ added) s')
    (h : I done todo s) (hfuel : bound ≤ done.length + fuel) :
    ∃ s' all, forEach list body fuel todo.head? s = some s' ∧ I all [] s' := by
  induction fuel generalizing done todo s with
  | zero =>
    have hle := hbound done todo s h
    have hnil : todo = [] := List.eq_nil_of_length_eq_zero (by omega)
    subst hnil
    exact ⟨s, done, rfl, h⟩
  | succ fuel ih =>
    cases todo with
    | nil => exact ⟨s, done, rfl, h⟩
    | cons p todo =>
      obtain ⟨s', added, hs', hnext, hi⟩ := hbody done p todo s h
      obtain ⟨t, all, ht, hend⟩ := ih hi (by simp; omega)
      refine ⟨t, all, ?_, hend⟩
      rw [List.head?_cons, forEach, hs', Option.bind_some, hnext]
      exact ht

end

theorem foldlM_rule {f : σ → α → Option σ} {J : List α → σ → Prop} {l : List α}
    {s : σ} (hstep : ∀ front c back s, l = front ++ c :: back → J front s →
      ∃ s', f s c = some s' ∧ J (front ++ [c]) s')
    (h : J [] s) : ∃ s', l.foldlM f s = some s' ∧ J l s' := by
  have hgo : ∀ back front s, l = front ++ back → J front s →
      ∃ s', back.foldlM f s = some s' ∧ J l s' := by
    intro back
    induction back with
    | nil =>
      intro front s hl hj
      rw [List.append_nil] at hl
      exact ⟨s, rfl, hl ▸ hj⟩
    | cons c back ih =>
      intro front s hl hj
      obtain ⟨s', hs', hj'⟩ := hstep front c back s hl hj
      obtain ⟨t, ht, hend⟩ := ih (front ++ [c]) s' (by simp [hl]) hj'
      exact ⟨t, by simp [List.foldlM_cons, hs', ht], hend⟩
  exact hgo l [] s rfl h

end TurboJS.Foundation
