import Mathlib.Data.List.Nodup
import Mathlib.Data.List.Range
import Mathlib.Data.List.Perm.Subperm

namespace TurboJS.Foundation

/-! Singly linked chains: a head and a link behind each element. -/

universe u

variable {α : Type u}

/-- The chain from a head has exactly these elements. -/
inductive Chain (next : α → Option α) : Option α → List α → Prop where
  | nil : Chain next none []
  | cons {a : α} {l : List α} (rest : Chain next (next a) l) : Chain next (some a) (a :: l)

section

variable {next next' : α → Option α} {head : Option α} {l : List α} {a : α}

theorem Chain.head_eq (h : Chain next head l) : head = l.head? := by
  cases h with
  | nil => rfl
  | cons => rfl

theorem Chain.congr (h : Chain next head l) (hsame : ∀ x ∈ l, next' x = next x) :
    Chain next' head l := by
  induction h with
  | nil => exact .nil
  | cons _ ih =>
    rename_i a l _
    have hrest := ih fun x hx => hsame x (List.mem_cons_of_mem a hx)
    rw [← hsame a List.mem_cons_self] at hrest
    exact .cons hrest

theorem Chain.tail (h : Chain next head (a :: l)) : Chain next (next a) l := by
  cases h with
  | cons rest => exact rest

end

/-! Slots that hold their own index while they are in use, and the index of the next free slot
while they are free. -/

/-- A link with a number that stands for none. -/
def linked (nil v : Nat) : Option Nat := if v = nil then none else some v

/-- Of the slots below `n`, the ones on the chain from `first` are free. -/
structure FreeSlots (n nil first : Nat) (u : Nat → Nat) (free : List Nat) : Prop where
  chain : Chain (fun k => linked nil (u k)) (linked nil first) free
  nodup : free.Nodup
  bound : ∀ k ∈ free, k < n
  own : ∀ k < n, k ∉ free → u k = k

section

variable {n nil first : Nat} {u u' : Nat → Nat} {free : List Nat} {k : Nat}

theorem FreeSlots.congr (h : FreeSlots n nil first u free) (hsame : ∀ k < n, u' k = u k) :
    FreeSlots n nil first u' free := by
  refine ⟨h.chain.congr fun x hx => ?_, h.nodup, h.bound, fun k hk hf => ?_⟩
  · rw [hsame x (h.bound x hx)]
  · rw [hsame k hk]
    exact h.own k hk hf

theorem FreeSlots.length_le (h : FreeSlots n nil first u free) : free.length ≤ n := by
  have hsub : free ⊆ List.range n := fun k hk => List.mem_range.mpr (h.bound k hk)
  have hlen := (h.nodup.subperm hsub).length_le
  rwa [List.length_range] at hlen

theorem FreeSlots.used_count (h : FreeSlots n nil first u free) :
    ((List.range n).filter fun k => !decide (k ∈ free)).length + free.length = n := by
  have hperm : List.Perm ((List.range n).filter fun k => decide (k ∈ free)) free := by
    rw [List.perm_ext_iff_of_nodup (List.nodup_range.filter _) h.nodup]
    intro k
    simp only [List.mem_filter, List.mem_range, decide_eq_true_eq]
    exact ⟨And.right, fun hk => ⟨h.bound k hk, hk⟩⟩
  have hsplit := List.length_eq_length_filter_add (l := List.range n) fun k => decide (k ∈ free)
  rw [List.length_range, hperm.length_eq] at hsplit
  omega

theorem FreeSlots.own_ne (h : FreeSlots n nil first u free) (hn : n ≤ nil) (hk : k < n)
    (hf : k ∉ free) : u k ≠ nil := by
  rw [h.own k hk hf]
  omega

theorem FreeSlots.take (h : FreeSlots n nil first u (k :: free)) :
    first = k ∧ k < n ∧ FreeSlots n nil (u k) (Function.update u k k) free := by
  have hhead := h.chain.head_eq
  have hfirst : first = k := by
    simp only [linked, List.head?_cons] at hhead
    split at hhead
    · cases hhead
    · exact Option.some.inj hhead
  obtain ⟨hk, hnodup⟩ := List.nodup_cons.mp h.nodup
  have hother : ∀ x ∈ free, Function.update u k k x = u x := by
    intro x hx
    have hne : x ≠ k := by
      rintro rfl
      exact hk hx
    exact Function.update_of_ne hne _ _
  refine ⟨hfirst, h.bound k List.mem_cons_self, ?_, hnodup,
    fun x hx => h.bound x (List.mem_cons_of_mem k hx), fun x hx hf => ?_⟩
  · apply h.chain.tail.congr
    intro x hx
    rw [hother x hx]
  · by_cases hxk : x = k
    · subst hxk
      rw [Function.update_self]
    · rw [Function.update_of_ne hxk]
      exact h.own x hx (by simpa [hxk] using hf)

theorem FreeSlots.release (h : FreeSlots n nil first u free) (hn : n ≤ nil) (hk : k < n)
    (hf : k ∉ free) : FreeSlots n nil k (Function.update u k first) (k :: free) := by
  have hother : ∀ x, x ≠ k → Function.update u k first x = u x :=
    fun x hne => Function.update_of_ne hne _ _
  refine ⟨?_, List.nodup_cons.mpr ⟨hf, h.nodup⟩, ?_, fun x hx hfree => ?_⟩
  · have hhead : linked nil k = some k := if_neg (by omega)
    rw [hhead]
    apply Chain.cons
    rw [Function.update_self]
    apply h.chain.congr
    intro x hx
    have hne : x ≠ k := by
      rintro rfl
      exact hf hx
    rw [hother x hne]
  · intro x hx
    rcases List.mem_cons.mp hx with rfl | hx
    · exact hk
    · exact h.bound x hx
  · rw [List.mem_cons, not_or] at hfree
    rw [hother x hfree.1]
    exact h.own x hx hfree.2

theorem freeSlots_range_chain (hn : n ≤ nil)
    (hu : ∀ k < n, u k = if k = n - 1 then nil else k + 1) (m : Nat) :
    ∀ start, start + m = n → Chain (fun k => linked nil (u k))
      (if m = 0 then none else some start) (List.range' start m) := by
  induction m with
  | zero =>
    intro start _
    exact .nil
  | succ m ih =>
    intro start hs
    rw [if_neg (Nat.succ_ne_zero m), List.range'_succ]
    apply Chain.cons
    have hnext := ih (start + 1) (by omega)
    have hlink : linked nil (u start) = if m = 0 then none else some (start + 1) := by
      rw [hu start (by omega)]
      by_cases hm : m = 0
      · rw [if_pos (by omega), if_pos hm, linked, if_pos rfl]
      · rw [if_neg (by omega), if_neg hm, linked, if_neg (by omega)]
    rw [hlink]
    exact hnext

theorem FreeSlots.fresh (hpos : 0 < n) (hn : n ≤ nil)
    (hu : ∀ k < n, u k = if k = n - 1 then nil else k + 1) :
    FreeSlots n nil 0 u (List.range n) := by
  refine ⟨?_, List.nodup_range, fun k hk => List.mem_range.mp hk,
    fun k hk hf => absurd (List.mem_range.mpr hk) hf⟩
  have hchain := freeSlots_range_chain hn hu n 0 (by omega)
  rw [if_neg (by omega)] at hchain
  have hhead : linked nil 0 = some 0 := if_neg (by omega)
  rw [hhead, List.range_eq_range']
  exact hchain

end

end TurboJS.Foundation
