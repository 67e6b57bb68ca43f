import Mathlib.Data.List.Count
import Mathlib.Data.List.Nodup
import Mathlib.Data.List.Perm.Subperm
import TurboJS.Foundation.Fallible

namespace TurboJS.Foundation

/-! Reference counts: every block holds references to blocks, and its own count is the number of
the references to it, those from outside the heap included. -/

universe u v

variable {α : Type u} {ν : Type v} [DecidableEq α]

/-- Counted blocks, the list that they are linked in, and the references that are held from
outside. -/
structure CountedHeap (α : Type u) (ν : Type v) where
  node : α → Option ν
  refCount : α → Nat
  blocks : List α
  outside : List α

namespace CountedHeap

/-- The references that a block holds. -/
def heldAt (held : ν → List α) (h : CountedHeap α ν) (a : α) : List α :=
  (h.node a).elim [] held

/-- The references that all blocks hold. -/
def edges (held : ν → List α) (h : CountedHeap α ν) : List α :=
  h.blocks.flatMap (h.heldAt held)

/-- The heap without blocks. -/
def empty : CountedHeap α ν where
  node := fun _ => none
  refCount := fun _ => 0
  blocks := []
  outside := []

/-- Another reference from outside to a block. -/
def dup (a : α) (h : CountedHeap α ν) : Option (CountedHeap α ν) :=
  if (h.node a).isSome then
    some { h with
      refCount := Function.update h.refCount a (h.refCount a + 1)
      outside := a :: h.outside }
  else none

/-- A new block takes the references it holds from outside, and gets one from there. -/
def create (held : ν → List α) (a : α) (n : ν) (h : CountedHeap α ν) :
    Option (CountedHeap α ν) :=
  if h.node a = none ∧ (held n).Subperm h.outside then
    some
      { node := Function.update h.node a (some n)
        refCount := Function.update h.refCount a 1
        blocks := h.blocks ++ [a]
        outside := a :: h.outside.diff (held n) }
  else none

def rewrite (held : ν → List α) (a : α) (n : ν) (h : CountedHeap α ν) :
    Option (CountedHeap α ν) :=
  (h.node a).bind fun old =>
    if (held n).Subperm (held old ++ h.outside) then
      some { h with
        node := Function.update h.node a (some n)
        outside := (held old ++ h.outside).diff (held n) }
    else none

/-- A block is linked again, at the end of the list. -/
def relink (a : α) (h : CountedHeap α ν) : CountedHeap α ν :=
  { h with blocks := if a ∈ h.blocks then h.blocks.erase a ++ [a] else h.blocks }

/-- One reference less to a block; the block is freed with its last reference, and the references
it held are to be given back. -/
def giveBack (held : ν → List α) (h : CountedHeap α ν) (a : α) : CountedHeap α ν × List α :=
  let h' := { h with refCount := Function.update h.refCount a (h.refCount a - 1) }
  if h'.refCount a = 0 then
    ({ h' with
        node := Function.update h.node a none
        blocks := h.blocks.erase a }, h.heldAt held a)
  else (h', [])

/-- The references of a list are given back, and those of the blocks that this frees. -/
def giveBackAll (held : ν → List α) : Nat → List α → CountedHeap α ν → Option (CountedHeap α ν)
  | _, [], h => some h
  | 0, _ :: _, _ => none
  | fuel + 1, a :: todo, h =>
    giveBackAll held fuel ((h.giveBack held a).2 ++ todo) (h.giveBack held a).1

/-- References from outside are given back. -/
def release (held : ν → List α) (as : List α) (h : CountedHeap α ν) : Option (CountedHeap α ν) :=
  if as.Subperm h.outside then
    giveBackAll held ((h.edges held).length + as.length) as
      { h with outside := h.outside.diff as }
  else none

/-- Every count is the number of the references to its block, while those of `pending` are being
given back. -/
structure Balanced (held : ν → List α) (pending : List α) (h : CountedHeap α ν) : Prop where
  nodup : h.blocks.Nodup
  listed : ∀ a, a ∈ h.blocks ↔ (h.node a).isSome
  counted : ∀ a, h.refCount a = (h.edges held).count a + h.outside.count a + pending.count a
  live : ∀ a, a ∈ h.blocks ↔ 0 < h.refCount a

section

variable {held : ν → List α} {pending todo : List α} {h h' : CountedHeap α ν} {a b : α} {n old : ν}

theorem empty_balanced : (empty : CountedHeap α ν).Balanced held [] := by
  refine ⟨.nil, ?_, ?_, ?_⟩
  · intro a
    simp [empty]
  · intro a
    simp [empty, edges]
  · intro a
    simp [empty]

theorem Balanced.mem_blocks (hb : h.Balanced held pending) (ha : h.node a = some n) :
    a ∈ h.blocks :=
  (hb.listed a).mpr (by rw [ha]; rfl)

theorem Balanced.referenced (hb : h.Balanced held pending) (ha : 0 < h.refCount a) :
    ∃ n, h.node a = some n :=
  Option.isSome_iff_exists.mp ((hb.listed a).mp ((hb.live a).mpr ha))

theorem Balanced.held_mem (hb : h.Balanced held pending) (ha : h.node a = some n)
    (hc : b ∈ held n) : b ∈ h.edges held :=
  List.mem_flatMap.mpr ⟨a, hb.mem_blocks ha, by rw [heldAt, ha]; exact hc⟩

theorem Balanced.held_live (hb : h.Balanced held pending) (ha : h.node a = some n)
    (hc : b ∈ held n) : ∃ n, h.node b = some n := by
  apply hb.referenced
  have hcount := hb.counted b
  have hpos := List.count_pos_iff.mpr (hb.held_mem ha hc)
  omega

theorem edges_perm (ha : a ∈ h.blocks) :
    (h.edges held).Perm (h.heldAt held a ++ (h.blocks.erase a).flatMap (h.heldAt held)) :=
  (List.perm_cons_erase ha).flatMap_right (h.heldAt held)

theorem count_edges (held : ν → List α) (ha : a ∈ h.blocks) (b : α) :
    (h.edges held).count b =
      (h.heldAt held a).count b + ((h.blocks.erase a).flatMap (h.heldAt held)).count b := by
  rw [(edges_perm ha).count_eq, List.count_append]

omit [DecidableEq α] in
theorem heldAt_others (held : ν → List α) (h h' : CountedHeap α ν)
    (hn : ∀ b, b ≠ a → h'.node b = h.node b) {l : List α} (ha : a ∉ l) :
    l.flatMap (h'.heldAt held) = l.flatMap (h.heldAt held) := by
  apply List.flatMap_congr
  intro b hb
  rw [heldAt, heldAt, hn b fun he => ha (he ▸ hb)]

theorem count_diff_of_subperm {l l' : List α} (h : l.Subperm l') (b : α) :
    (l'.diff l).count b + l.count b = l'.count b := by
  rw [List.count_diff]
  have hle := h.count_le b
  omega

theorem Balanced.dup (hb : h.Balanced held pending) (hd : h.dup a = some h') :
    h'.Balanced held pending := by
  rw [CountedHeap.dup] at hd
  split at hd
  · rename_i hnode
    cases hd
    have ha : a ∈ h.blocks := (hb.listed a).mpr hnode
    refine ⟨hb.nodup, hb.listed, ?_, ?_⟩
    · intro b
      have hcount := hb.counted b
      change Function.update h.refCount a (h.refCount a + 1) b =
        (h.edges held).count b + (a :: h.outside).count b + pending.count b
      rw [List.count_cons]
      by_cases hba : b = a
      · subst hba
        rw [Function.update_self, beq_self_eq_true, if_pos rfl]
        omega
      · rw [Function.update_of_ne hba, if_neg (by simpa using fun he => hba he.symm)]
        omega
    · intro b
      change b ∈ h.blocks ↔ 0 < Function.update h.refCount a (h.refCount a + 1) b
      by_cases hba : b = a
      · subst hba
        rw [Function.update_self]
        exact ⟨fun _ => Nat.succ_pos _, fun _ => ha⟩
      · rw [Function.update_of_ne hba]
        exact hb.live b
  · cases hd

theorem Balanced.create (hb : h.Balanced held pending) (hc : h.create held a n = some h') :
    h'.Balanced held pending := by
  rw [CountedHeap.create] at hc
  split at hc
  · rename_i hfresh
    obtain ⟨hnone, hsub⟩ := hfresh
    cases hc
    have ha : a ∉ h.blocks := by
      intro hmem
      have hsome := (hb.listed a).mp hmem
      rw [hnone] at hsome
      cases hsome
    have hzero : h.refCount a = 0 := by
      have hlive := hb.live a
      by_contra hpos
      exact ha (hlive.mpr (Nat.pos_of_ne_zero hpos))
    refine ⟨?_, ?_, ?_, ?_⟩
    · exact List.nodup_append.mpr ⟨hb.nodup, List.nodup_singleton a, by
        intro x hx y hy
        rw [List.mem_singleton.mp hy]
        exact fun he => ha (he ▸ hx)⟩
    · intro b
      change b ∈ h.blocks ++ [a] ↔ (Function.update h.node a (some n) b).isSome
      rw [List.mem_append, List.mem_singleton]
      by_cases hba : b = a
      · subst hba
        simp
      · rw [Function.update_of_ne hba, hb.listed b]
        simp [hba]
    · intro b
      have hcount := hb.counted b
      have hdiff := count_diff_of_subperm hsub b
      have hedges : (h.blocks ++ [a]).flatMap
          (heldAt held { h with node := Function.update h.node a (some n) }) =
            h.edges held ++ held n := by
        rw [List.flatMap_append,
          heldAt_others held h _ (fun b hba => Function.update_of_ne hba _ _) ha]
        simp [edges, heldAt]
      change Function.update h.refCount a 1 b =
        ((h.blocks ++ [a]).flatMap
          (heldAt held { h with node := Function.update h.node a (some n) })).count b +
          (a :: h.outside.diff (held n)).count b + pending.count b
      rw [hedges, List.count_append, List.count_cons]
      by_cases hba : b = a
      · subst hba
        rw [Function.update_self, beq_self_eq_true, if_pos rfl]
        omega
      · rw [Function.update_of_ne hba, if_neg (by simpa using fun he => hba he.symm)]
        omega
    · intro b
      change b ∈ h.blocks ++ [a] ↔ 0 < Function.update h.refCount a 1 b
      rw [List.mem_append, List.mem_singleton]
      by_cases hba : b = a
      · subst hba
        simp
      · rw [Function.update_of_ne hba, hb.live b]
        simp [hba]
  · cases hc

theorem Balanced.rewrite (hb : h.Balanced held pending) (hr : h.rewrite held a n = some h') :
    h'.Balanced held pending := by
  rw [CountedHeap.rewrite] at hr
  obtain ⟨old, hold, hr⟩ := Option.bind_eq_some_iff.mp hr
  split at hr
  · rename_i hsub
    cases hr
    have ha := hb.mem_blocks hold
    refine ⟨hb.nodup, ?_, ?_, hb.live⟩
    · intro b
      by_cases hba : b = a
      · subst hba
        simpa using ha
      · simpa [Function.update_of_ne hba] using hb.listed b
    · intro b
      have hcount := hb.counted b
      have hdiff := count_diff_of_subperm hsub b
      have hrest := heldAt_others held h
        { h with node := Function.update h.node a (some n) }
        (fun b hba => Function.update_of_ne hba _ _) (hb.nodup.not_mem_erase (a := a))
      have hbefore := count_edges held ha b
      have hafter := count_edges held
        (h := { h with node := Function.update h.node a (some n) }) ha b
      have hself : heldAt held { h with node := Function.update h.node a (some n) } a = held n := by
        simp [heldAt]
      have hselfOld : heldAt held h a = held old := by
        simp [heldAt, hold]
      rw [hrest, hself] at hafter
      rw [hselfOld] at hbefore
      rw [List.count_append] at hdiff
      change h.refCount b = (edges held { h with node := Function.update h.node a (some n) }).count b
        + ((held old ++ h.outside).diff (held n)).count b + pending.count b
      omega
  · cases hr

theorem Balanced.relink (hb : h.Balanced held pending) : (h.relink a).Balanced held pending := by
  by_cases ha : a ∈ h.blocks
  · have hperm : (h.blocks.erase a ++ [a]).Perm h.blocks :=
      (List.perm_append_comm.trans (List.perm_cons_erase ha).symm)
    rw [CountedHeap.relink, if_pos ha]
    refine ⟨hperm.nodup_iff.mpr hb.nodup, ?_, ?_, ?_⟩
    · intro b
      rw [← hb.listed b]
      exact hperm.mem_iff
    · intro b
      rw [hb.counted b]
      congr 2
      exact ((hperm.flatMap_right (h.heldAt held)).count_eq b).symm
    · intro b
      rw [← hb.live b]
      exact hperm.mem_iff
  · rw [CountedHeap.relink, if_neg ha]
    exact hb

theorem giveBack_last (hlast : h.refCount a = 1) :
    h.giveBack held a =
      ({ h with
          refCount := Function.update h.refCount a 0
          node := Function.update h.node a none
          blocks := h.blocks.erase a }, h.heldAt held a) := by
  simp [giveBack, hlast]

theorem giveBack_shared (hshared : 1 < h.refCount a) :
    h.giveBack held a =
      ({ h with refCount := Function.update h.refCount a (h.refCount a - 1) }, []) := by
  have hne : h.refCount a - 1 ≠ 0 := by omega
  simp [giveBack, hne]

theorem Balanced.pending_pos (hb : h.Balanced held (a :: todo)) : 0 < h.refCount a := by
  have hcount := hb.counted a
  rw [List.count_cons_self] at hcount
  omega

theorem Balanced.giveBack (hb : h.Balanced held (a :: todo)) :
    (h.giveBack held a).1.Balanced held ((h.giveBack held a).2 ++ todo) := by
  have hpos := hb.pending_pos
  have ha : a ∈ h.blocks := (hb.live a).mpr hpos
  have hother : ∀ b, b ≠ a → (a :: todo).count b = todo.count b := fun b hba =>
    List.count_cons_of_ne (fun he => hba he.symm)
  have hself := hb.counted a
  rw [List.count_cons_self] at hself
  by_cases hlast : h.refCount a = 1
  · rw [giveBack_last hlast]
    have herase : ∀ b, b ≠ a → (b ∈ h.blocks.erase a ↔ b ∈ h.blocks) := fun b hba =>
      List.mem_erase_of_ne hba
    refine ⟨hb.nodup.erase a, ?_, ?_, ?_⟩
    · intro b
      change b ∈ h.blocks.erase a ↔ (Function.update h.node a none b).isSome
      by_cases hba : b = a
      · subst hba
        rw [Function.update_self]
        simpa using hb.nodup.not_mem_erase
      · rw [Function.update_of_ne hba, herase b hba]
        exact hb.listed b
    · intro b
      have hcount := hb.counted b
      have hsplit := count_edges held ha b
      have hrest := heldAt_others held h
        { h with
          refCount := Function.update h.refCount a 0
          node := Function.update h.node a none
          blocks := h.blocks.erase a }
        (fun b hba => Function.update_of_ne hba _ _) (hb.nodup.not_mem_erase (a := a))
      change Function.update h.refCount a 0 b = ((h.blocks.erase a).flatMap _).count b +
        h.outside.count b + (h.heldAt held a ++ todo).count b
      rw [hrest, List.count_append]
      by_cases hba : b = a
      · subst hba
        rw [Function.update_self]
        omega
      · rw [Function.update_of_ne hba]
        have hsame := hother b hba
        omega
    · intro b
      change b ∈ h.blocks.erase a ↔ 0 < Function.update h.refCount a 0 b
      by_cases hba : b = a
      · subst hba
        rw [Function.update_self]
        simpa using hb.nodup.not_mem_erase
      · rw [Function.update_of_ne hba, herase b hba]
        exact hb.live b
  · have hshared : 1 < h.refCount a := by omega
    rw [giveBack_shared hshared]
    refine ⟨hb.nodup, hb.listed, ?_, ?_⟩
    · intro b
      have hcount := hb.counted b
      change Function.update h.refCount a (h.refCount a - 1) b =
        (h.edges held).count b + h.outside.count b + todo.count b
      by_cases hba : b = a
      · subst hba
        rw [Function.update_self]
        omega
      · rw [Function.update_of_ne hba]
        have hsame := hother b hba
        omega
    · intro b
      change b ∈ h.blocks ↔ 0 < Function.update h.refCount a (h.refCount a - 1) b
      by_cases hba : b = a
      · subst hba
        rw [Function.update_self]
        exact ⟨fun _ => by omega, fun _ => ha⟩
      · rw [Function.update_of_ne hba]
        exact hb.live b

theorem Balanced.giveBack_length (hb : h.Balanced held (a :: todo)) :
    ((h.giveBack held a).1.edges held).length + (h.giveBack held a).2.length =
      (h.edges held).length := by
  have hpos := hb.pending_pos
  have ha : a ∈ h.blocks := (hb.live a).mpr hpos
  by_cases hlast : h.refCount a = 1
  · rw [giveBack_last hlast, (edges_perm ha).length_eq, List.length_append, Nat.add_comm]
    congr 2
    exact heldAt_others held h _ (fun b hba => Function.update_of_ne hba _ _) hb.nodup.not_mem_erase
  · rw [giveBack_shared (by omega)]
    rfl

theorem Balanced.giveBackAll {fuel : Nat} (hb : h.Balanced held todo)
    (hfuel : (h.edges held).length + todo.length ≤ fuel) :
    ∃ h', giveBackAll held fuel todo h = some h' ∧ h'.Balanced held [] ∧
      h'.outside = h.outside := by
  induction fuel generalizing todo h with
  | zero =>
    have hnil : todo = [] := List.length_eq_zero_iff.mp (by omega)
    subst hnil
    exact ⟨h, rfl, hb, rfl⟩
  | succ fuel ih =>
    cases todo with
    | nil => exact ⟨h, rfl, hb, rfl⟩
    | cons a todo =>
      have hlength := hb.giveBack_length
      have houtside : (h.giveBack held a).1.outside = h.outside := by
        rw [CountedHeap.giveBack]
        split <;> rfl
      obtain ⟨h', hrun, hb', hout⟩ := ih hb.giveBack (by
        rw [List.length_append]
        rw [List.length_cons] at hfuel
        omega)
      exact ⟨h', hrun, hb', hout.trans houtside⟩

theorem Balanced.release {as : List α} (hb : h.Balanced held []) (hsub : as.Subperm h.outside) :
    ∃ h', h.release held as = some h' ∧ h'.Balanced held [] ∧
      h'.outside = h.outside.diff as := by
  have hpending : { h with outside := h.outside.diff as }.Balanced held as := by
    refine ⟨hb.nodup, hb.listed, ?_, hb.live⟩
    intro b
    have hcount := hb.counted b
    have hdiff := count_diff_of_subperm hsub b
    rw [List.count_nil] at hcount
    change h.refCount b = (h.edges held).count b + (h.outside.diff as).count b + as.count b
    omega
  obtain ⟨h', hrun, hb', hout⟩ := hpending.giveBackAll (Nat.le_refl _)
  refine ⟨h', ?_, hb', hout⟩
  rw [CountedHeap.release, if_pos hsub]
  exact hrun

theorem release_some {as : List α} (hr : h.release held as = some h') : as.Subperm h.outside := by
  rw [CountedHeap.release] at hr
  split at hr
  · assumption
  · cases hr

theorem giveBack_node (hn : (h.giveBack held a).1.node b = some n) : h.node b = some n := by
  rw [CountedHeap.giveBack] at hn
  split at hn
  · change Function.update h.node a none b = some n at hn
    by_cases hba : b = a
    · subst hba
      rw [Function.update_self] at hn
      cases hn
    · rwa [Function.update_of_ne hba] at hn
  · exact hn

theorem giveBackAll_node {fuel : Nat} (hrun : giveBackAll held fuel todo h = some h')
    (hn : h'.node b = some n) : h.node b = some n := by
  induction fuel generalizing todo h with
  | zero =>
    cases todo with
    | nil =>
      cases hrun
      exact hn
    | cons a todo => cases hrun
  | succ fuel ih =>
    cases todo with
    | nil =>
      cases hrun
      exact hn
    | cons a todo => exact giveBack_node (ih hrun)

theorem release_node {as : List α} (hr : h.release held as = some h')
    (hn : h'.node b = some n) : h.node b = some n := by
  rw [CountedHeap.release, if_pos (release_some hr)] at hr
  exact giveBackAll_node (h := { h with outside := h.outside.diff as }) hr hn

theorem dup_node (hd : h.dup a = some h') : h'.node = h.node := by
  rw [CountedHeap.dup] at hd
  split at hd
  · cases hd
    rfl
  · cases hd

theorem create_node (hc : h.create held a n = some h') :
    h.node a = none ∧ h'.node = Function.update h.node a (some n) := by
  rw [CountedHeap.create] at hc
  split at hc
  · rename_i hfresh
    cases hc
    exact ⟨hfresh.1, rfl⟩
  · cases hc

theorem rewrite_node (hr : h.rewrite held a n = some h') :
    (∃ old, h.node a = some old) ∧ h'.node = Function.update h.node a (some n) := by
  obtain ⟨old, hold, hr⟩ := Option.bind_eq_some_iff.mp hr
  split at hr
  · cases hr
    exact ⟨⟨old, hold⟩, rfl⟩
  · cases hr

end

end CountedHeap

end TurboJS.Foundation
