import Mathlib.Algebra.BigOperators.Group.Finset.Piecewise
import Mathlib.Algebra.Order.BigOperators.Group.Finset

namespace TurboJS.Foundation

/-! Linear probing in a table of `size` slots, and sums over the slots of a table. -/

/-- The slot that the probe number `d` looks at. -/
def probe (size start d : Nat) : Nat := (start + d) % size

theorem probe_lt {size start d : Nat} (h : 0 < size) : probe size start d < size :=
  Nat.mod_lt _ h

theorem probe_succ (size start d : Nat) :
    (probe size start d + 1) % size = probe size start (d + 1) := by
  simp [probe, Nat.add_assoc]

/-- A slot is found by probing from `start` when no slot before it is free. -/
def Probed (occupied : Nat → Prop) (size start slot : Nat) : Prop :=
  ∃ d, d < size ∧ probe size start d = slot ∧ ∀ j, j < d → occupied (probe size start j)

theorem Probed.mono {occupied occupied' : Nat → Prop} {size start slot : Nat}
    (hsub : ∀ i, occupied i → occupied' i) (h : Probed occupied size start slot) :
    Probed occupied' size start slot := by
  obtain ⟨d, hd, hp, hbefore⟩ := h
  exact ⟨d, hd, hp, fun j hj => hsub _ (hbefore j hj)⟩

/-! ## Tables with tombstones

A table maps keys to values by linear probing. Slots may also be held by guests, which are not
found by probing; a removed entry leaves a tombstone. -/

inductive Cell (κ ν γ : Type*) where
  | empty
  | tombstone
  | item (key : κ) (value : ν)
  | guest (g : γ)

section

variable {κ ν γ : Type*} {size slot : Nat} {start : κ → Nat} {cells : Nat → Cell κ ν γ}

def Occupied (cells : Nat → Cell κ ν γ) (i : Nat) : Prop := cells i ≠ .empty

/-- The table is searched by probing, and no key and no guest is in two slots. -/
structure Searchable (size : Nat) (start : κ → Nat) (cells : Nat → Cell κ ν γ) : Prop where
  probed : ∀ {i k v}, i < size → cells i = .item k v →
    Probed (Occupied cells) size (start k) i
  unique : ∀ {i j k v v'}, i < size → j < size → cells i = .item k v → cells j = .item k v' →
    i = j
  guest_unique : ∀ {i j g}, i < size → j < size → cells i = .guest g → cells j = .guest g → i = j

/-- The map that the table stands for. -/
def Represents (size : Nat) (cells : Nat → Cell κ ν γ) (m : κ → Option ν) : Prop :=
  ∀ k v, m k = some v ↔ ∃ i, i < size ∧ cells i = .item k v

theorem Represents.none_iff {m : κ → Option ν} (h : Represents size cells m) {k : κ} :
    m k = none ↔ ∀ i v, i < size → cells i ≠ .item k v := by
  constructor
  · intro hk i v hi hc
    have := (h k v).mpr ⟨i, hi, hc⟩
    rw [hk] at this
    cases this
  · intro hnone
    cases hk : m k with
    | none => rfl
    | some v =>
      obtain ⟨i, hi, hc⟩ := (h k v).mp hk
      exact absurd hc (hnone i v hi)

theorem searchable_empty : Searchable size start (fun _ => (.empty : Cell κ ν γ)) where
  probed := by
    intro i k v _ hc
    cases hc
  unique := by
    intro i j k v v' _ _ hc
    cases hc
  guest_unique := by
    intro i j g _ _ hc
    cases hc

theorem represents_empty :
    Represents size (fun _ => (.empty : Cell κ ν γ)) (fun _ => none) := by
  intro k v
  simp

theorem update_eq_iff {α : Type*} {f : Nat → α} {a i : Nat} {x y : α} :
    Function.update f a x i = y ↔ (i = a ∧ x = y) ∨ (i ≠ a ∧ f i = y) := by
  by_cases h : i = a
  · subst h
    simp
  · simp [h]

theorem Probed.write {start slot' : Nat} {x : Cell κ ν γ} (hx : x ≠ .empty)
    (h : Probed (Occupied cells) size start slot') :
    Probed (Occupied (Function.update cells slot x)) size start slot' := by
  refine h.mono ?_
  intro i hi hc
  rcases update_eq_iff.mp hc with ⟨-, hc⟩ | ⟨-, hc⟩
  · exact hx hc
  · exact hi hc

theorem Searchable.write {x : Cell κ ν γ} (h : Searchable size start cells) (hx : x ≠ .empty)
    (hitem : ∀ k v, x = .item k v → Probed (Occupied cells) size (start k) slot ∧
      ∀ i w, i < size → cells i ≠ .item k w)
    (hguest : ∀ g, x = .guest g → ∀ i, i < size → cells i ≠ .guest g) :
    Searchable size start (Function.update cells slot x) where
  probed := by
    intro i k v hi hc
    rcases update_eq_iff.mp hc with ⟨rfl, hnew⟩ | ⟨-, hold⟩
    · exact (hitem k v hnew).1.write hx
    · exact (h.probed hi hold).write hx
  unique := by
    intro i j k v v' hi hj hc hc'
    rcases update_eq_iff.mp hc with ⟨rfl, hnew⟩ | ⟨-, hold⟩
    · rcases update_eq_iff.mp hc' with ⟨rfl, -⟩ | ⟨-, hc'⟩
      · rfl
      · exact absurd hc' ((hitem k v hnew).2 j v' hj)
    · rcases update_eq_iff.mp hc' with ⟨rfl, hnew⟩ | ⟨-, hc'⟩
      · exact absurd hold ((hitem k v' hnew).2 i v hi)
      · exact h.unique hi hj hold hc'
  guest_unique := by
    intro i j g hi hj hc hc'
    rcases update_eq_iff.mp hc with ⟨rfl, hnew⟩ | ⟨-, hold⟩
    · rcases update_eq_iff.mp hc' with ⟨rfl, -⟩ | ⟨-, hc'⟩
      · rfl
      · exact absurd hc' (hguest g hnew j hj)
    · rcases update_eq_iff.mp hc' with ⟨rfl, hnew⟩ | ⟨-, hc'⟩
      · exact absurd hold (hguest g hnew i hi)
      · exact h.guest_unique hi hj hold hc'

theorem Searchable.remove (h : Searchable size start cells) :
    Searchable size start (Function.update cells slot .tombstone) :=
  h.write (by simp) (by simp) (by simp)

theorem Searchable.insert_item {k : κ} {v : ν} (h : Searchable size start cells)
    (hnone : ∀ i w, i < size → cells i ≠ .item k w)
    (hp : Probed (Occupied cells) size (start k) slot) :
    Searchable size start (Function.update cells slot (.item k v)) := by
  refine h.write (by simp) ?_ (by simp)
  intro k' v' he
  simp only [Cell.item.injEq] at he
  rw [← he.1]
  exact ⟨hp, hnone⟩

theorem Searchable.insert_guest {g : γ} (h : Searchable size start cells)
    (hnone : ∀ i, i < size → cells i ≠ .guest g) :
    Searchable size start (Function.update cells slot (.guest g)) := by
  refine h.write (by simp) (by simp) ?_
  intro g' he
  simp only [Cell.guest.injEq] at he
  rw [← he]
  exact hnone

theorem Represents.remove_item [DecidableEq κ] {m : κ → Option ν} {k : κ} {v : ν}
    (h : Represents size cells m) (hs : Searchable size start cells) (hslot : slot < size)
    (hc : cells slot = .item k v) :
    Represents size (Function.update cells slot .tombstone) (Function.update m k none) := by
  intro k' v'
  by_cases hk : k' = k
  · subst hk
    simp only [Function.update_self, reduceCtorEq, false_iff, not_exists, not_and]
    intro i hi hi'
    rcases update_eq_iff.mp hi' with ⟨-, hi'⟩ | ⟨hne, hi'⟩
    · cases hi'
    · exact hne (hs.unique hi hslot hi' hc)
  · rw [Function.update_of_ne hk, h k' v']
    refine exists_congr fun i => and_congr_right fun _ => ?_
    rw [update_eq_iff]
    constructor
    · intro hi'
      refine .inr ⟨?_, hi'⟩
      rintro rfl
      rw [hc] at hi'
      cases hi'
      exact hk rfl
    · rintro (⟨-, hi'⟩ | ⟨-, hi'⟩)
      · cases hi'
      · exact hi'

theorem Represents.other {m : κ → Option ν} {x : Cell κ ν γ} (h : Represents size cells m)
    (hold : ∀ k v, cells slot ≠ .item k v) (hnew : ∀ k v, x ≠ .item k v) :
    Represents size (Function.update cells slot x) m := by
  intro k v
  rw [h k v]
  refine exists_congr fun i => and_congr_right fun _ => ?_
  rw [update_eq_iff]
  constructor
  · intro hc
    refine .inr ⟨?_, hc⟩
    rintro rfl
    exact hold k v hc
  · rintro (⟨-, hc⟩ | ⟨-, hc⟩)
    · exact absurd hc (hnew k v)
    · exact hc

theorem Represents.insert_item [DecidableEq κ] {m : κ → Option ν} {k : κ} {v : ν}
    (h : Represents size cells m) (hslot : slot < size)
    (hnone : ∀ i w, i < size → cells i ≠ .item k w) (hold : ∀ k v, cells slot ≠ .item k v) :
    Represents size (Function.update cells slot (.item k v)) (Function.update m k (some v)) := by
  intro k' v'
  by_cases hk : k' = k
  · subst hk
    simp only [Function.update_self, Option.some.injEq]
    constructor
    · rintro rfl
      exact ⟨slot, hslot, by simp⟩
    · rintro ⟨i, hi, hc⟩
      rcases update_eq_iff.mp hc with ⟨-, hc⟩ | ⟨-, hc⟩
      · simpa using hc
      · exact absurd hc (hnone i _ hi)
  · rw [Function.update_of_ne hk, h k' v']
    refine exists_congr fun i => and_congr_right fun _ => ?_
    rw [update_eq_iff]
    constructor
    · intro hc
      refine .inr ⟨?_, hc⟩
      rintro rfl
      exact hold k' v' hc
    · rintro (⟨-, hc⟩ | ⟨-, hc⟩)
      · simp only [Cell.item.injEq] at hc
        exact absurd hc.1.symm hk
      · exact hc

end

theorem sum_range_update {α : Type*} (f : α → Nat) (table : Nat → α) {size slot : Nat}
    (h : slot < size) (x : α) :
    ∑ i ∈ Finset.range size, f (Function.update table slot x i) + f (table slot) =
      ∑ i ∈ Finset.range size, f (table i) + f x := by
  have hmem : slot ∈ Finset.range size := Finset.mem_range.mpr h
  have hrest : ∑ i ∈ (Finset.range size).erase slot, f (Function.update table slot x i) =
      ∑ i ∈ (Finset.range size).erase slot, f (table i) := by
    refine Finset.sum_congr rfl ?_
    intro i hi
    rw [Function.update_of_ne (Finset.ne_of_mem_erase hi)]
  have hnew := Finset.add_sum_erase (Finset.range size)
    (fun i => f (Function.update table slot x i)) hmem
  have hold := Finset.add_sum_erase (Finset.range size) (fun i => f (table i)) hmem
  simp only [Function.update_self] at hnew
  omega

end TurboJS.Foundation
