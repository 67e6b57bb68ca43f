import TurboJS.Memory.Arenas

namespace TurboJS.Memory

open Foundation

/-! Blocks of arenas are taken and given back. -/

section

variable {h h' : Heap} {live : List (Nat × Nat)} {made : Option Nat} {ptrs : List Nat}
  {i j a a' b k l p n : Nat} {r r' : Region} {free rest : List Nat}

theorem Inv.class_eq (hi : Inv h live made) (ha : a ∈ h.arenaList i) (ha' : a ∈ h.arenaList j) :
    i = j := by
  obtain ⟨f, hok, -⟩ := hi.arenas i a ha
  obtain ⟨f', hok', -⟩ := hi.arenas j a ha'
  exact hok.blockSizeIdx.symm.trans hok'.blockSizeIdx

/-- The heap after the block `k` of an arena has been taken, and `rest` stays free. -/
def Heap.taken (h : Heap) (i a k : Nat) (rest : List Nat) : Heap :=
  { h with
    header := Function.update h.header (Heap.blockAddr a i k)
      { h.header (Heap.blockAddr a i k) with u := k }
    arena := Function.update h.arena a
      { h.arena a with
        firstFreeBlock := (h.header (Heap.blockAddr a i k)).u
        nUsedBlocks := (h.arena a).nUsedBlocks + 1 }
    freeArenaList := Function.update h.freeArenaList i
      (if rest = [] then (h.freeArenaList i).erase a else h.freeArenaList i) }

theorem takeBlock_eq (hok : ArenaOk h ptrs i a (k :: rest)) :
    h.takeBlock i a = (h.taken i a k rest, Heap.blockAddr a i k + headerSize) := by
  obtain ⟨hfirst, -, -⟩ := hok.slots.take
  have hfull : (h.arena a).nUsedBlocks + 1 = (h.arena a).nBlocks ↔ rest = [] := by
    have hused := hok.used
    rw [hok.nBlocks, List.length_cons] at *
    rw [← List.length_eq_zero_iff]
    omega
  by_cases hrest : rest = []
  · simp [Heap.takeBlock, Heap.taken, hfirst, hfull, hrest, Heap.setHeader, Heap.setArena]
  · simp [Heap.takeBlock, Heap.taken, hfirst, hfull, hrest, Heap.setHeader, Heap.setArena]

theorem RegionsOk.of_same (hr : RegionsOk h) (hregions : h'.regions = h.regions)
    (hruntime : h'.runtime = h.runtime) (hzero : h'.zeroSizeBlock = h.zeroSizeBlock) :
    RegionsOk h' := by
  obtain ⟨hapart, hbounds, hmem, hblock⟩ := hr
  refine ⟨?_, ?_, ?_, ?_⟩
  · rwa [hregions]
  · rwa [hregions]
  · rwa [hregions, hruntime]
  · rwa [hruntime, hzero]

/-- The arena that a block is taken from. -/
theorem ArenaOk.take (hi : Inv h live made) (ha : a ∈ h.arenaList i)
    (hok : ArenaOk h (pointers live) i a (k :: rest)) :
    ArenaOk (h.taken i a k rest) ((Heap.blockAddr a i k + headerSize) :: pointers live) i a rest := by
  obtain ⟨-, hk, hslots⟩ := hok.slots.take
  obtain ⟨hkrest, -⟩ := List.nodup_cons.mp hok.slots.nodup
  have hheader : ∀ l < blocksPerArena i, l ≠ k →
      (h.taken i a k rest).header (Heap.blockAddr a i l) = h.header (Heap.blockAddr a i l) := by
    intro l hl hne
    apply Function.update_of_ne
    intro he
    exact hne (hi.block_inj ha ha hl hk he).2.2
  have hself : (h.taken i a k rest).header (Heap.blockAddr a i k) =
      { h.header (Heap.blockAddr a i k) with u := k } := Function.update_self _ _ _
  have harena : (h.taken i a k rest).arena a =
      { h.arena a with
        firstFreeBlock := (h.header (Heap.blockAddr a i k)).u
        nUsedBlocks := (h.arena a).nUsedBlocks + 1 } := Function.update_self _ _ _
  refine ⟨?_, ?_, ?_, ?_, ?_, ?_, ?_⟩
  · rw [harena]
    exact hok.blockSizeIdx
  · rw [harena]
    exact hok.nBlocks
  · intro l hl
    by_cases hlk : l = k
    · subst hlk
      rw [hself]
      exact hok.sizes l hl
    · rw [hheader l hl hlk]
      exact hok.sizes l hl
  · rw [harena]
    apply hslots.congr
    intro l hl
    by_cases hlk : l = k
    · subst hlk
      rw [hself, Function.update_self]
    · rw [hheader l hl hlk, Function.update_of_ne hlk]
  · rw [harena]
    have hused := hok.used
    rw [List.length_cons] at hused
    simp only
    omega
  · intro l hl
    have hold := hok.live l hl
    by_cases hlk : l = k
    · subst hlk
      simp [hkrest]
    · have hne : Heap.blockAddr a i l ≠ Heap.blockAddr a i k :=
        fun he => hlk (hi.block_inj ha ha hl hk he).2.2
      rw [List.mem_cons, not_or] at hold
      simp only [hlk, not_false_eq_true, true_and] at hold
      rw [hold, List.mem_cons]
      constructor
      · exact .inr
      · rintro (he | hm)
        · exact absurd (Nat.add_right_cancel he) hne
        · exact hm
  · have hnodup := (hi.lists i).2.1
    have hlist : (h.taken i a k rest).freeArenaList i =
        if rest = [] then (h.freeArenaList i).erase a else h.freeArenaList i :=
      Function.update_self _ _ _
    rw [hlist]
    by_cases hrest : rest = []
    · rw [if_pos hrest]
      simp [hrest, hnodup.mem_erase_iff]
    · rw [if_neg hrest]
      simp [hrest, hok.listed]

theorem taken_inv (hi : Inv h live made) (hmade : ∀ a', made = some a' → a' = a)
    (ha : a ∈ h.arenaList i) (hok : ArenaOk h (pointers live) i a (k :: rest))
    (hn : n + headerSize ≤ blockSize i) :
    Inv (h.taken i a k rest) ((Heap.blockAddr a i k + headerSize, n) :: live) none := by
  obtain ⟨-, hk, -⟩ := hok.slots.take
  have hsub : ∀ j, (h.taken i a k rest).freeArenaList j ⊆ h.freeArenaList j ∧
      ((h.taken i a k rest).freeArenaList j).Nodup := by
    intro j
    by_cases hji : j = i
    · subst hji
      have hlist : (h.taken j a k rest).freeArenaList j =
          if rest = [] then (h.freeArenaList j).erase a else h.freeArenaList j :=
        Function.update_self _ _ _
      rw [hlist]
      split
      · exact ⟨List.erase_subset, (hi.lists j).2.1.erase a⟩
      · exact ⟨fun _ hx => hx, (hi.lists j).2.1⟩
    · have hlist : (h.taken i a k rest).freeArenaList j = h.freeArenaList j :=
        Function.update_of_ne hji _ _
      rw [hlist]
      exact ⟨fun _ hx => hx, (hi.lists j).2.1⟩
  refine ⟨hi.regions.of_same rfl rfl rfl, hi.classes, ?_, ?_, ?_, ?_, ?_⟩
  · intro j a' ha'
    by_cases haa : a' = a
    · subst haa
      have hij := hi.class_eq ha ha'
      subst hij
      refine ⟨rest, hok.take hi ha, fun _ => ?_⟩
      have harena : (h.taken i a' k rest).arena a' = { h.arena a' with
        firstFreeBlock := (h.header (Heap.blockAddr a' i k)).u
        nUsedBlocks := (h.arena a').nUsedBlocks + 1 } := Function.update_self _ _ _
      rw [harena]
      exact Nat.succ_pos _
    · obtain ⟨f, hf, hpos⟩ := hi.arenas j a' ha'
      have harena : (h.taken i a k rest).arena a' = h.arena a' := Function.update_of_ne haa _ _
      have hblock : ∀ l < blocksPerArena j, Heap.blockAddr a' j l ≠ Heap.blockAddr a i k :=
        fun l hl he => haa (hi.block_inj ha' ha hl hk he).1
      refine ⟨f, hf.congr harena (fun l hl => ?_) (fun l hl => ?_) ?_, fun _ => ?_⟩
      · have hsame : (h.taken i a k rest).header (Heap.blockAddr a' j l) =
            h.header (Heap.blockAddr a' j l) := Function.update_of_ne (hblock l hl) _ _
        rw [hsame]
        exact ⟨rfl, rfl⟩
      · simp only [pointers, List.map_cons, List.mem_cons]
        constructor
        · rintro (he | hm)
          · exact absurd (Nat.add_right_cancel he) (hblock l hl)
          · exact hm
        · exact .inr
      · by_cases hji : j = i
        · subst hji
          have hlist : (h.taken j a k rest).freeArenaList j =
              if rest = [] then (h.freeArenaList j).erase a else h.freeArenaList j :=
            Function.update_self _ _ _
          rw [hlist]
          split
          · exact List.mem_erase_of_ne haa
          · exact Iff.rfl
        · have hlist : (h.taken i a k rest).freeArenaList j = h.freeArenaList j :=
            Function.update_of_ne hji _ _
          rw [hlist]
      · rw [harena]
        apply hpos
        intro hm
        exact haa (hmade a' hm.symm)
  · intro j
    exact ⟨(hi.lists j).1, (hsub j).2, fun x hx => (hi.lists j).2.2 ((hsub j).1 hx)⟩
  · intro x hx
    rcases List.mem_cons.mp hx with rfl | hx
    · exact .inl ⟨i, a, k, ha, hk, rfl, hn⟩
    · rcases hi.blocks x hx with hsmall | ⟨r, hr, hp, hne, hlist, hsize, husable, hheader⟩
      · exact .inl hsmall
      · refine .inr ⟨r, hr, hp, hne, hlist, hsize, husable, ?_⟩
        have hsame : (h.taken i a k rest).header r.addr = h.header r.addr :=
          Function.update_of_ne (hi.block_ne_region ha hk hr).symm _ _
        rw [hsame]
        exact hheader
  · refine List.nodup_cons.mpr ⟨fun hm => ?_, hi.nodup⟩
    exact (hok.live k hk).mpr hm List.mem_cons_self
  · intro r hr
    rcases hi.owned r hr with hrun | harena | hptr
    · exact .inl hrun
    · exact .inr (.inl harena)
    · exact .inr (.inr (List.mem_cons_of_mem _ hptr))

def without (live : List (Nat × Nat)) (p : Nat) : List (Nat × Nat) :=
  live.filter fun x => !decide (x.1 = p)

theorem mem_without {x : Nat × Nat} : x ∈ without live p ↔ x ∈ live ∧ x.1 ≠ p := by
  simp [without]

theorem mem_pointers_without {q : Nat} : q ∈ pointers (without live p) ↔ q ∈ pointers live ∧ q ≠ p := by
  simp only [pointers, List.mem_map, mem_without]
  constructor
  · rintro ⟨x, ⟨hx, hne⟩, rfl⟩
    exact ⟨⟨x, hx, rfl⟩, hne⟩
  · rintro ⟨⟨x, hx, rfl⟩, hne⟩
    exact ⟨x, ⟨hx, hne⟩, rfl⟩

theorem nodup_without (h : (pointers live).Nodup) : (pointers (without live p)).Nodup :=
  List.Nodup.sublist (List.Sublist.map _ List.filter_sublist) h

/-- The heap after the block `k` of an arena has been given back, before an empty arena goes. -/
def Heap.released (h : Heap) (i a k : Nat) (free : List Nat) : Heap :=
  { h with
    header := Function.update h.header (Heap.blockAddr a i k)
      { h.header (Heap.blockAddr a i k) with u := (h.arena a).firstFreeBlock }
    arena := Function.update h.arena a
      { h.arena a with firstFreeBlock := k, nUsedBlocks := (h.arena a).nUsedBlocks - 1 }
    freeArenaList := Function.update h.freeArenaList i
      (if free = [] then a :: h.freeArenaList i else h.freeArenaList i) }

def Heap.dropArena (h : Heap) (i a : Nat) : Heap :=
  { h with
    arenaList := Function.update h.arenaList i ((h.arenaList i).erase a)
    freeArenaList := Function.update h.freeArenaList i ((h.freeArenaList i).erase a) }.mfFree a

theorem arenaFree_small (hi : i < arenaBlockSizeCount) (hok : ArenaOk h ptrs i a free)
    (hk : k < blocksPerArena i) (hfree : k ∉ free) :
    h.arenaFree (Heap.blockAddr a i k + headerSize) =
      if (h.arena a).nUsedBlocks - 1 = 0 then (h.released i a k free).dropArena i a
      else h.released i a k free := by
  have hown : (h.header (Heap.blockAddr a i k)).u = k := hok.slots.own k hk hfree
  have hnil : k ≠ arenaFreeNil := by
    have hle := blocksPerArena_le hi
    omega
  have hclass := hok.sizes k hk
  have harena : Heap.blockAddr a i k - blockSize i * k - arenaHeaderSize = a := by
    rw [Heap.blockAddr, Nat.mul_comm (blockSize i) k]
    omega
  have hfull : (h.arena a).nUsedBlocks = (h.arena a).nBlocks ↔ free = [] := by
    have hused := hok.used
    rw [hok.nBlocks, ← List.length_eq_zero_iff]
    omega
  have hptr : ¬ Heap.blockAddr a i k + headerSize = 0 := by
    unfold headerSize
    omega
  simp only [Heap.arenaFree, hptr, if_false, Nat.add_sub_cancel, hown, hnil, hclass, harena, hfull]
  split
  · simp [Heap.released, Heap.dropArena, Heap.setHeader, Heap.setArena, Heap.mfFree]
  · simp [Heap.released, Heap.setHeader, Heap.setArena]

theorem ArenaOk.release (hi : Inv h live made) (ha : a ∈ h.arenaList i)
    (hok : ArenaOk h (pointers live) i a free) (hk : k < blocksPerArena i) (hfree : k ∉ free) :
    ArenaOk (h.released i a k free)
      (pointers (without live (Heap.blockAddr a i k + headerSize))) i a (k :: free) := by
  have hclass := (hi.classes i a ha).1
  have hslots := hok.slots.release (blocksPerArena_le hclass) hk hfree
  have hheader : ∀ l < blocksPerArena i, l ≠ k →
      (h.released i a k free).header (Heap.blockAddr a i l) = h.header (Heap.blockAddr a i l) := by
    intro l hl hne
    apply Function.update_of_ne
    intro he
    exact hne (hi.block_inj ha ha hl hk he).2.2
  have hself : (h.released i a k free).header (Heap.blockAddr a i k) =
      { h.header (Heap.blockAddr a i k) with u := (h.arena a).firstFreeBlock } :=
    Function.update_self _ _ _
  have harena : (h.released i a k free).arena a =
      { h.arena a with firstFreeBlock := k, nUsedBlocks := (h.arena a).nUsedBlocks - 1 } :=
    Function.update_self _ _ _
  refine ⟨?_, ?_, ?_, ?_, ?_, ?_, ?_⟩
  · rw [harena]
    exact hok.blockSizeIdx
  · rw [harena]
    exact hok.nBlocks
  · intro l hl
    by_cases hlk : l = k
    · subst hlk
      rw [hself]
      exact hok.sizes l hl
    · rw [hheader l hl hlk]
      exact hok.sizes l hl
  · rw [harena]
    apply hslots.congr
    intro l hl
    by_cases hlk : l = k
    · subst hlk
      rw [hself, Function.update_self]
    · rw [hheader l hl hlk, Function.update_of_ne hlk]
  · rw [harena, List.length_cons]
    have hused := hok.used
    have hsub : (k :: free).length ≤ blocksPerArena i := hslots.length_le
    rw [List.length_cons] at hsub
    simp only
    omega
  · intro l hl
    have hold := hok.live l hl
    rw [mem_pointers_without, List.mem_cons, not_or, hold]
    constructor
    · rintro ⟨hlk, hm⟩
      refine ⟨hm, fun he => hlk ?_⟩
      exact (hi.block_inj ha ha hl hk (Nat.add_right_cancel he)).2.2
    · rintro ⟨hm, hne⟩
      refine ⟨fun hlk => hne ?_, hm⟩
      rw [hlk]
  · have hlist : (h.released i a k free).freeArenaList i =
        if free = [] then a :: h.freeArenaList i else h.freeArenaList i := Function.update_self _ _ _
    rw [hlist]
    by_cases hnil : free = []
    · simp [hnil]
    · simp [hnil, hok.listed]

theorem released_inv (hi : Inv h live none) (ha : a ∈ h.arenaList i)
    (hok : ArenaOk h (pointers live) i a free) (hk : k < blocksPerArena i) (hfree : k ∉ free) :
    Inv (h.released i a k free) (without live (Heap.blockAddr a i k + headerSize)) (some a) := by
  have hlist : ∀ j, (h.released i a k free).freeArenaList j =
      if j = i ∧ free = [] then a :: h.freeArenaList j else h.freeArenaList j := by
    intro j
    by_cases hji : j = i
    · subst hji
      have hself : (h.released j a k free).freeArenaList j =
          if free = [] then a :: h.freeArenaList j else h.freeArenaList j :=
        Function.update_self _ _ _
      rw [hself]
      simp
    · have hother : (h.released i a k free).freeArenaList j = h.freeArenaList j :=
        Function.update_of_ne hji _ _
      simp [hother, hji]
  refine ⟨hi.regions.of_same rfl rfl rfl, hi.classes, ?_, ?_, ?_, nodup_without hi.nodup, ?_⟩
  · intro j a' ha'
    by_cases haa : a' = a
    · subst haa
      have hij := hi.class_eq ha ha'
      subst hij
      exact ⟨k :: free, hok.release hi ha hk hfree, fun hne => absurd rfl hne⟩
    · obtain ⟨f, hf, hpos⟩ := hi.arenas j a' ha'
      have harena : (h.released i a k free).arena a' = h.arena a' := Function.update_of_ne haa _ _
      have hblock : ∀ l < blocksPerArena j, Heap.blockAddr a' j l ≠ Heap.blockAddr a i k :=
        fun l hl he => haa (hi.block_inj ha' ha hl hk he).1
      refine ⟨f, hf.congr harena (fun l hl => ?_) (fun l hl => ?_) ?_, fun _ => ?_⟩
      · have hsame : (h.released i a k free).header (Heap.blockAddr a' j l) =
            h.header (Heap.blockAddr a' j l) := Function.update_of_ne (hblock l hl) _ _
        rw [hsame]
        exact ⟨rfl, rfl⟩
      · rw [mem_pointers_without]
        exact ⟨And.left, fun hm => ⟨hm, fun he => hblock l hl (Nat.add_right_cancel he)⟩⟩
      · rw [hlist]
        split
        · simp [haa]
        · exact Iff.rfl
      · rw [harena]
        exact hpos (by simp)
  · intro j
    obtain ⟨hnodup, hfnodup, hsub⟩ := hi.lists j
    rw [hlist]
    split
    · rename_i hcond
      obtain ⟨rfl, hnil⟩ := hcond
      refine ⟨hnodup, List.nodup_cons.mpr ⟨fun hm => hok.listed.mp hm hnil, hfnodup⟩, ?_⟩
      intro x hx
      rcases List.mem_cons.mp hx with rfl | hx
      · exact ha
      · exact hsub hx
    · exact ⟨hnodup, hfnodup, hsub⟩
  · intro x hx
    obtain ⟨hx, -⟩ := mem_without.mp hx
    rcases hi.blocks x hx with hsmall | ⟨r, hr, hp, hne, hnot, hsize, husable, hheader⟩
    · exact .inl hsmall
    · refine .inr ⟨r, hr, hp, hne, hnot, hsize, husable, ?_⟩
      have hsame : (h.released i a k free).header r.addr = h.header r.addr :=
        Function.update_of_ne (hi.block_ne_region ha hk hr).symm _ _
      rw [hsame]
      exact hheader
  · intro r hr
    rcases hi.owned r hr with hrun | harena | hptr
    · exact .inl hrun
    · exact .inr (.inl harena)
    · refine .inr (.inr (mem_pointers_without.mpr ⟨hptr, fun he => ?_⟩))
      exact hi.block_ne_region ha hk hr (Nat.add_right_cancel he).symm

theorem mem_mfFree : r ∈ (h.mfFree a).regions ↔ r ∈ h.regions ∧ r.addr ≠ a := by
  simp [Heap.mfFree]

theorem RegionsOk.mfFree (hr : RegionsOk h) (hrun : h.runtime.addr ≠ a) :
    RegionsOk (h.mfFree a) where
  apart := hr.apart.filter _
  bounds := fun r hm => hr.bounds r (mem_mfFree.mp hm).1
  runtime := mem_mfFree.mpr ⟨hr.runtime, hrun⟩
  zero := hr.zero

theorem Inv.runtime_ne (hi : Inv h live made) (ha : a ∈ h.arenaList i) : h.runtime.addr ≠ a := by
  intro he
  obtain ⟨-, r, hr, hra, hne, -⟩ := hi.classes i a ha
  exact hne (hi.regions.eq_of_addr hr hi.regions.runtime (hra.trans he.symm))

theorem ArenaOk.all_free (hok : ArenaOk h ptrs i a free) (hzero : (h.arena a).nUsedBlocks = 0)
    (hk : k < blocksPerArena i) : Heap.blockAddr a i k + headerSize ∉ ptrs := by
  have hlen : free.length = blocksPerArena i := by
    have hused := hok.used
    omega
  have hperm : List.Perm free (List.range (blocksPerArena i)) := by
    apply (hok.slots.nodup.subperm fun l hl => List.mem_range.mpr (hok.slots.bound l hl)).perm_of_length_le
    rw [List.length_range, hlen]
  have hfree : k ∈ free := hperm.mem_iff.mpr (List.mem_range.mpr hk)
  exact fun hm => (hok.live k hk).mpr hm hfree

theorem dropArena_inv (hi : Inv h live (some a)) (ha : a ∈ h.arenaList i)
    (hzero : (h.arena a).nUsedBlocks = 0) : Inv (h.dropArena i a) live none := by
  obtain ⟨f₀, hok₀, -⟩ := hi.arenas i a ha
  have hlists : ∀ j, (h.dropArena i a).arenaList j =
        (if j = i then (h.arenaList j).erase a else h.arenaList j) ∧
      (h.dropArena i a).freeArenaList j =
        (if j = i then (h.freeArenaList j).erase a else h.freeArenaList j) := by
    intro j
    by_cases hji : j = i
    · subst hji
      simp [Heap.dropArena, Heap.mfFree]
    · simp [Heap.dropArena, Heap.mfFree, hji]
  have hmem : ∀ j a', a' ∈ (h.dropArena i a).arenaList j ↔ a' ∈ h.arenaList j ∧ a' ≠ a := by
    intro j a'
    rw [(hlists j).1]
    by_cases hji : j = i
    · subst hji
      rw [if_pos rfl, (hi.lists j).1.mem_erase_iff]
      exact and_comm
    · rw [if_neg hji]
      constructor
      · intro hm
        refine ⟨hm, fun he => hji ?_⟩
        subst he
        exact hi.class_eq hm ha
      · exact And.left
  have hmemFree : ∀ j a', a' ≠ a → (a' ∈ (h.dropArena i a).freeArenaList j ↔
      a' ∈ h.freeArenaList j) := by
    intro j a' hne
    rw [(hlists j).2]
    split
    · exact List.mem_erase_of_ne hne
    · exact Iff.rfl
  have hregions : RegionsOk (h.dropArena i a) := by
    have hdropped := hi.regions.mfFree (hi.runtime_ne ha)
    exact hdropped.of_same rfl rfl rfl
  refine ⟨hregions, ?_, ?_, ?_, ?_, hi.nodup, ?_⟩
  · intro j a' hm
    obtain ⟨hm, hne⟩ := (hmem j a').mp hm
    obtain ⟨hclass, r, hr, hra, hrun, hsize⟩ := hi.classes j a' hm
    exact ⟨hclass, r, mem_mfFree.mpr ⟨hr, hra.symm ▸ hne⟩, hra, hrun, hsize⟩
  · intro j a' hm
    obtain ⟨hm, hne⟩ := (hmem j a').mp hm
    obtain ⟨f, hf, hpos⟩ := hi.arenas j a' hm
    refine ⟨f, hf.congr rfl (fun _ _ => ⟨rfl, rfl⟩) (fun _ _ => Iff.rfl) (hmemFree j a' hne),
      fun _ => hpos ?_⟩
    intro he
    exact hne (Option.some.inj he)
  · intro j
    obtain ⟨hnodup, hfnodup, hsub⟩ := hi.lists j
    refine ⟨?_, ?_, fun x hx => ?_⟩
    · rw [(hlists j).1]
      split
      · exact hnodup.erase a
      · exact hnodup
    · rw [(hlists j).2]
      split
      · exact hfnodup.erase a
      · exact hfnodup
    · have hne : x ≠ a := by
        rintro rfl
        rw [(hlists j).2] at hx
        split at hx
        · exact (hfnodup.mem_erase_iff.mp hx).1 rfl
        · rename_i hji
          exact hji (hi.class_eq (hsub hx) ha)
      exact (hmem j x).mpr ⟨hsub ((hmemFree j x hne).mp hx), hne⟩
  · intro x hx
    rcases hi.blocks x hx with ⟨j, a', k, hm, hk, hp, hsize⟩ |
      ⟨r, hr, hp, hrun, hnot, hsize, husable, hheader⟩
    · refine .inl ⟨j, a', k, (hmem j a').mpr ⟨hm, ?_⟩, hk, hp, hsize⟩
      rintro rfl
      have hij := hi.class_eq hm ha
      subst hij
      apply hok₀.all_free hzero hk
      rw [← hp]
      exact List.mem_map_of_mem hx
    · refine .inr ⟨r, mem_mfFree.mpr ⟨hr, fun he => hnot i (he ▸ ha)⟩, hp, hrun, ?_, hsize, husable,
        hheader⟩
      intro j hm
      exact hnot j ((hmem j _).mp hm).1
  · intro r hr
    obtain ⟨hr, hne⟩ := mem_mfFree.mp hr
    rcases hi.owned r hr with hrun | ⟨j, hm⟩ | hptr
    · exact .inl hrun
    · exact .inr (.inl ⟨j, (hmem j _).mpr ⟨hm, hne⟩⟩)
    · exact .inr (.inr hptr)

theorem arenaFree_small_inv (hi : Inv h live none) (ha : a ∈ h.arenaList i)
    (hk : k < blocksPerArena i) (hlive : Heap.blockAddr a i k + headerSize ∈ pointers live) :
    Inv (h.arenaFree (Heap.blockAddr a i k + headerSize))
      (without live (Heap.blockAddr a i k + headerSize)) none := by
  obtain ⟨free, hok, -⟩ := hi.arenas i a ha
  have hfree := (hok.live k hk).mpr hlive
  have hclass := (hi.classes i a ha).1
  have hrel := released_inv hi ha hok hk hfree
  have harena : ((h.released i a k free).arena a).nUsedBlocks = (h.arena a).nUsedBlocks - 1 := by
    simp [Heap.released]
  rw [arenaFree_small hclass hok hk hfree]
  split
  · rename_i hzero
    exact dropArena_inv hrel ha (harena.trans hzero)
  · rename_i hpos
    refine ⟨hrel.regions, hrel.classes, ?_, hrel.lists, hrel.blocks, hrel.nodup, hrel.owned⟩
    intro j a' ha'
    obtain ⟨f, hf, hused⟩ := hrel.arenas j a' ha'
    refine ⟨f, hf, fun _ => ?_⟩
    by_cases haa : a' = a
    · subst haa
      rw [harena]
      omega
    · exact hused fun he => haa (Option.some.inj he)

theorem mfFree_inv (hi : Inv h live none) (hr : r ∈ h.regions) (hrun : r ≠ h.runtime)
    (hnot : ∀ i, r.addr ∉ h.arenaList i) :
    Inv (h.mfFree r.addr) (without live (r.addr + headerSize)) none := by
  have hne : h.runtime.addr ≠ r.addr := fun he =>
    hrun (hi.regions.eq_of_addr hr hi.regions.runtime he.symm)
  refine ⟨hi.regions.mfFree hne, ?_, ?_, hi.lists, ?_, nodup_without hi.nodup, ?_⟩
  · intro i a ha
    obtain ⟨hclass, r', hr', hra, hrun', hsize⟩ := hi.classes i a ha
    refine ⟨hclass, r', mem_mfFree.mpr ⟨hr', fun he => hnot i ?_⟩, hra, hrun', hsize⟩
    rw [← he, hra]
    exact ha
  · intro i a ha
    obtain ⟨f, hf, hpos⟩ := hi.arenas i a ha
    refine ⟨f, hf.congr rfl (fun _ _ => ⟨rfl, rfl⟩) (fun k hk => ?_) Iff.rfl, hpos⟩
    rw [mem_pointers_without]
    exact ⟨And.left, fun hm => ⟨hm, fun he =>
      hi.block_ne_region ha hk hr (Nat.add_right_cancel he)⟩⟩
  · intro x hx
    obtain ⟨hx, hxp⟩ := mem_without.mp hx
    rcases hi.blocks x hx with hsmall | ⟨r', hr', hp, hrun', hnot', hsize, husable, hheader⟩
    · exact .inl hsmall
    · refine .inr ⟨r', mem_mfFree.mpr ⟨hr', fun he => hxp ?_⟩, hp, hrun', hnot', hsize, husable, hheader⟩
      rw [hp, he]
  · intro r' hr'
    obtain ⟨hr', hne'⟩ := mem_mfFree.mp hr'
    rcases hi.owned r' hr' with hrun' | harena | hptr
    · exact .inl hrun'
    · exact .inr (.inl harena)
    · exact .inr (.inr (mem_pointers_without.mpr ⟨hptr, fun he => hne' (Nat.add_right_cancel he)⟩))

theorem Inv.neutral (hi : Inv h live made) (hregions : h'.regions = h.regions)
    (hruntime : h'.runtime = h.runtime) (hzero : h'.zeroSizeBlock = h.zeroSizeBlock)
    (harenas : h'.arenaList = h.arenaList) (hlist : h'.freeArenaList = h.freeArenaList)
    (harena : h'.arena = h.arena) (hheader : ∀ b, (h'.header b).u = (h.header b).u ∧
      (h'.header b).blockSizeIdx = (h.header b).blockSizeIdx) : Inv h' live made where
  regions := hi.regions.of_same hregions hruntime hzero
  classes := by
    intro i a ha
    rw [harenas] at ha
    obtain ⟨hclass, r, hr, hra, hrun, hsize⟩ := hi.classes i a ha
    exact ⟨hclass, r, hregions ▸ hr, hra, hruntime ▸ hrun, hsize⟩
  arenas := by
    intro i a ha
    rw [harenas] at ha
    obtain ⟨f, hf, hpos⟩ := hi.arenas i a ha
    refine ⟨f, hf.congr (by rw [harena]) (fun k _ => hheader _) (fun _ _ => Iff.rfl) (by rw [hlist]),
      fun hne => ?_⟩
    rw [harena]
    exact hpos hne
  lists := by
    intro i
    rw [harenas, hlist]
    exact hi.lists i
  blocks := by
    intro x hx
    rcases hi.blocks x hx with ⟨i, a, k, ha, hk, hp, hsize⟩ |
      ⟨r, hr, hp, hrun, hnot, hsize, husable, hnil⟩
    · exact .inl ⟨i, a, k, harenas ▸ ha, hk, hp, hsize⟩
    · refine .inr ⟨r, hregions ▸ hr, hp, hruntime ▸ hrun, fun i => ?_, hsize, husable, ?_⟩
      · rw [harenas]
        exact hnot i
      · rw [(hheader _).1]
        exact hnil
  nodup := hi.nodup
  owned := by
    intro r hr
    rw [hregions] at hr
    rw [hruntime, harenas]
    exact hi.owned r hr

theorem Inv.pointer_in (hi : Inv h live made) (hp : p ∈ pointers live) :
    ∃ b, p = b + headerSize ∧ ∃ r ∈ h.regions, r.addr ≤ b ∧ b < r.addr + r.size := by
  obtain ⟨x, hx, rfl⟩ := List.mem_map.mp hp
  rcases hi.blocks x hx with ⟨i, a, k, ha, hk, hp, -⟩ | ⟨r, hr, hp, -⟩
  · obtain ⟨hclass, r, hr, rfl, -, hsize⟩ := hi.classes i a ha
    have hb := blockAddr_bound (a := r.addr) hk hsize
    have hpos := (blockSize_bounds hclass).1
    exact ⟨_, hp, r, hr, by omega, by omega⟩
  · have hs := (hi.regions.bounds r hr).2.2.1
    exact ⟨r.addr, hp, r, hr, Nat.le_refl _, by omega⟩

theorem RegionsOk.obtain (hr : RegionsOk h) (hf : r.Fresh n h.regions) (hn : 8 ≤ n)
    (contents : Nat → UInt8) :
    RegionsOk (({ h with regions := r :: h.regions } : Heap).fill r.addr r.size contents) := by
  refine ⟨List.pairwise_cons.mpr ⟨fun r' hr' => Apart.symm (hf.disjoint r' hr'), hr.apart⟩, ?_,
    List.mem_cons_of_mem _ hr.runtime, hr.zero⟩
  intro r' hr'
  rcases List.mem_cons.mp hr' with rfl | hr'
  · have hsize := hf.size
    refine ⟨hf.start, hf.bound, by omega, ?_⟩
    rcases hf.usable with hzero | ⟨-, hle⟩
    · omega
    · exact hle
  · exact hr.bounds r' hr'

theorem Region.Fresh.ne (hf : r.Fresh n h.regions) (hr' : r' ∈ h.regions)
    (hlo : r'.addr ≤ b) (hhi : b < r'.addr + r'.size) : b < r.addr ∨ r.addr + r.size ≤ b := by
  rcases hf.disjoint r' hr' with hd | hd <;> omega

/-- A large block in a region of its own. -/
theorem large_inv (hi : Inv h live none) {contents : Nat → UInt8}
    (hf : r.Fresh (headerSize + n) h.regions) :
    Inv ((({ h with regions := r :: h.regions } : Heap).fill r.addr r.size contents).markLarge r.addr)
      ((r.addr + headerSize, n) :: live) none := by
  have h8 : 8 ≤ headerSize + n := by
    unfold headerSize
    omega
  have hregions := hi.regions.obtain hf h8 contents
  have hsize := hf.size
  have hout : ∀ {r' : Region} {b : Nat}, r' ∈ h.regions → r'.addr ≤ b → b < r'.addr + r'.size →
      b ≠ r.addr := by
    intro r' b hr' hlo hhi he
    subst he
    rcases hf.ne hr' hlo hhi with hlt | hge <;> omega
  have hstart : ∀ {r' : Region}, r' ∈ h.regions → r'.addr ≠ r.addr := fun {r'} hr' =>
    hout hr' (Nat.le_refl _) (by have hs := (hi.regions.bounds r' hr').2.2.1; omega)
  have hblock : ∀ {i a k : Nat}, a ∈ h.arenaList i → k < blocksPerArena i →
      Heap.blockAddr a i k ≠ r.addr := by
    intro i a k ha hk
    obtain ⟨hclass, r', hr', rfl, -, hsize'⟩ := hi.classes i a ha
    have hb := blockAddr_bound (a := r'.addr) hk hsize'
    have hpos := (blockSize_bounds hclass).1
    exact hout hr' (by omega) (by omega)
  have hheader : ∀ b, b ≠ r.addr →
      ((({ h with regions := r :: h.regions } : Heap).fill r.addr r.size contents).markLarge
        r.addr).header b = h.header b := fun b hb => Function.update_of_ne hb _ _
  refine ⟨hregions.of_same rfl rfl rfl, ?_, ?_, hi.lists, ?_, ?_, ?_⟩
  · intro i a ha
    obtain ⟨hclass, r', hr', hra, hrun, hs⟩ := hi.classes i a ha
    exact ⟨hclass, r', List.mem_cons_of_mem _ hr', hra, hrun, hs⟩
  · intro i a ha
    obtain ⟨f, hf', hpos⟩ := hi.arenas i a ha
    refine ⟨f, hf'.congr rfl (fun k hk => ?_) (fun k hk => ?_) Iff.rfl, hpos⟩
    · rw [hheader _ (hblock ha hk)]
      exact ⟨rfl, rfl⟩
    · simp only [pointers, List.map_cons, List.mem_cons]
      constructor
      · rintro (he | hm)
        · exact absurd (Nat.add_right_cancel he) (hblock ha hk)
        · exact hm
      · exact .inr
  · intro x hx
    rcases List.mem_cons.mp hx with rfl | hx
    · refine .inr ⟨r, List.mem_cons_self, rfl, (hstart hi.regions.runtime <| congrArg _ ·.symm), ?_, hsize,
        ?_, ?_⟩
      · intro i ha
        obtain ⟨-, r', hr', hra, -⟩ := hi.classes i _ ha
        exact hstart hr' hra
      · rcases hf.usable with hzero | ⟨hle, -⟩
        · exact .inl hzero
        · exact .inr hle
      · have hself : ((({ h with regions := r :: h.regions } : Heap).fill r.addr r.size
            contents).markLarge r.addr).header r.addr =
              { h.header r.addr with u := arenaFreeNil, blockSizeIdx := 0xff } :=
          Function.update_self _ _ _
        rw [hself]
    · rcases hi.blocks x hx with hsmall | ⟨r', hr', hp, hrun, hnot, hs, husable, hnil⟩
      · exact .inl hsmall
      · refine .inr ⟨r', List.mem_cons_of_mem _ hr', hp, hrun, hnot, hs, husable, ?_⟩
        rw [hheader _ (hstart hr')]
        exact hnil
  · refine List.nodup_cons.mpr ⟨fun hm => ?_, hi.nodup⟩
    obtain ⟨b, hb, r', hr', hlo, hhi⟩ := hi.pointer_in hm
    exact hout hr' hlo hhi (Nat.add_right_cancel hb).symm
  · intro r' hr'
    rcases List.mem_cons.mp hr' with rfl | hr'
    · exact .inr (.inr List.mem_cons_self)
    · rcases hi.owned r' hr' with hrun | harena | hptr
      · exact .inl hrun
      · exact .inr (.inl harena)
      · exact .inr (.inr (List.mem_cons_of_mem _ hptr))

theorem arenaInit_header (hi : i < arenaBlockSizeCount) (hk : k < blocksPerArena i) :
    (h.arenaInit a i).header (Heap.blockAddr a i k) =
      { h.header (Heap.blockAddr a i k) with
        u := if k = blocksPerArena i - 1 then arenaFreeNil else k + 1
        blockSizeIdx := i } := by
  have hfind : (List.range (blocksPerArena i)).find?
      (fun l => Heap.blockAddr a i l = Heap.blockAddr a i k) = some k := by
    rw [List.find?_range_eq_some]
    refine ⟨by simp, List.mem_range.mpr hk, fun l hl => ?_⟩
    have hpos := (blockSize_bounds hi).1
    have hmul : l * blockSize i < k * blockSize i := Nat.mul_lt_mul_of_pos_right hl (by omega)
    have hne : Heap.blockAddr a i l ≠ Heap.blockAddr a i k := by
      unfold Heap.blockAddr
      omega
    simpa using hne
  simp only [Heap.arenaInit, hfind]

theorem arenaInit_header_other (hb : ∀ k < blocksPerArena i, Heap.blockAddr a i k ≠ b) :
    (h.arenaInit a i).header b = h.header b := by
  have hfind : (List.range (blocksPerArena i)).find? (fun k => Heap.blockAddr a i k = b) = none := by
    rw [List.find?_eq_none]
    intro k hk
    simpa using hb k (List.mem_range.mp hk)
  simp only [Heap.arenaInit, hfind]

/-- A new arena, all of whose blocks are free. -/
theorem arenaInit_inv (hi : Inv h live none) (hclass : i < arenaBlockSizeCount)
    {contents : Nat → UInt8}
    (hf : r.Fresh (arenaHeaderSize + blocksPerArena i * blockSize i) h.regions) :
    Inv ((({ h with regions := r :: h.regions } : Heap).fill r.addr r.size contents).arenaInit
      r.addr i) live (some r.addr) := by
  have h8 : 8 ≤ arenaHeaderSize + blocksPerArena i * blockSize i := by
    unfold arenaHeaderSize
    omega
  have hregions := hi.regions.obtain hf h8 contents
  have hsize := hf.size
  have hout : ∀ {r' : Region} {b : Nat}, r' ∈ h.regions → r'.addr ≤ b → b < r'.addr + r'.size →
      b < r.addr ∨ r.addr + r.size ≤ b := fun hr' hlo hhi => hf.ne hr' hlo hhi
  have hstart : ∀ {r' : Region}, r' ∈ h.regions → r'.addr < r.addr ∨ r.addr + r.size ≤ r'.addr :=
    fun {r'} hr' => hout hr' (Nat.le_refl _)
      (by have hs := (hi.regions.bounds r' hr').2.2.1; omega)
  have hnew : ∀ j, r.addr ∉ h.arenaList j := by
    intro j ha
    obtain ⟨-, r', hr', hra, -⟩ := hi.classes j _ ha
    rcases hstart hr' with hlt | hge <;> omega
  have hinside : ∀ k < blocksPerArena i, r.addr < Heap.blockAddr r.addr i k ∧
      Heap.blockAddr r.addr i k < r.addr + r.size := by
    intro k hk
    have hb := blockAddr_bound (a := r.addr) hk hsize
    have hpos := (blockSize_bounds hclass).1
    unfold arenaHeaderSize at hb
    omega
  have hheader : ∀ {r' : Region} {b : Nat}, r' ∈ h.regions → r'.addr ≤ b → b < r'.addr + r'.size →
      ((({ h with regions := r :: h.regions } : Heap).fill r.addr r.size contents).arenaInit
        r.addr i).header b = h.header b := by
    intro r' b hr' hlo hhi
    apply arenaInit_header_other
    intro k hk he
    obtain ⟨hblo, hbhi⟩ := hinside k hk
    rcases hout hr' hlo hhi with hlt | hge <;> omega
  have hlists : ∀ j, ((({ h with regions := r :: h.regions } : Heap).fill r.addr r.size
        contents).arenaInit r.addr i).arenaList j =
        (if j = i then r.addr :: h.arenaList j else h.arenaList j) ∧
      ((({ h with regions := r :: h.regions } : Heap).fill r.addr r.size contents).arenaInit
        r.addr i).freeArenaList j =
        (if j = i then r.addr :: h.freeArenaList j else h.freeArenaList j) := by
    intro j
    by_cases hji : j = i
    · subst hji
      simp [Heap.arenaInit, Heap.fill]
    · simp [Heap.arenaInit, Heap.fill, hji]
  have hmem : ∀ j a, a ∈ ((({ h with regions := r :: h.regions } : Heap).fill r.addr r.size
      contents).arenaInit r.addr i).arenaList j → (j = i ∧ a = r.addr) ∨ a ∈ h.arenaList j := by
    intro j a hm
    rw [(hlists j).1] at hm
    split at hm
    · rename_i hji
      rcases List.mem_cons.mp hm with rfl | hm
      · exact .inl ⟨hji, rfl⟩
      · exact .inr hm
    · exact .inr hm
  have hfree : ∀ j a, a ≠ r.addr → (a ∈ ((({ h with regions := r :: h.regions } : Heap).fill r.addr
      r.size contents).arenaInit r.addr i).freeArenaList j ↔ a ∈ h.freeArenaList j) := by
    intro j a hne
    rw [(hlists j).2]
    split
    · simp [hne]
    · exact Iff.rfl
  refine ⟨hregions.of_same rfl rfl rfl, ?_, ?_, ?_, ?_, hi.nodup, ?_⟩
  · intro j a hm
    rcases hmem j a hm with ⟨rfl, rfl⟩ | hm
    · refine ⟨hclass, r, List.mem_cons_self, rfl, ?_, hsize⟩
      intro he
      rcases hstart hi.regions.runtime with hlt | hge
      · have hlt' : h.runtime.addr < h.runtime.addr := he ▸ hlt
        omega
      · have hge' : h.runtime.addr + h.runtime.size ≤ h.runtime.addr := he ▸ hge
        have hs := (hi.regions.bounds _ hi.regions.runtime).2.2.1
        omega
    · obtain ⟨hc, r', hr', hra, hrun, hs⟩ := hi.classes j a hm
      exact ⟨hc, r', List.mem_cons_of_mem _ hr', hra, hrun, hs⟩
  · intro j a hm
    rcases hmem j a hm with ⟨rfl, rfl⟩ | hm
    · refine ⟨List.range (blocksPerArena j), ?_, fun hne => absurd rfl hne⟩
      have harena : ((({ h with regions := r :: h.regions } : Heap).fill r.addr r.size
          contents).arenaInit r.addr j).arena r.addr = ⟨j, 0, blocksPerArena j, 0⟩ :=
        Function.update_self _ _ _
      refine ⟨by rw [harena], by rw [harena], fun k hk => ?_, ?_, ?_, fun k hk => ?_, ?_⟩
      · rw [arenaInit_header hclass hk]
      · rw [harena]
        apply FreeSlots.fresh (blocksPerArena_pos hclass) (blocksPerArena_le hclass)
        intro k hk
        rw [arenaInit_header hclass hk]
      · rw [harena, List.length_range, Nat.zero_add]
      · constructor
        · exact fun hn => absurd (List.mem_range.mpr hk) hn
        · intro hp
          obtain ⟨b, hb, r', hr', hlo, hhi⟩ := hi.pointer_in hp
          obtain ⟨hblo, hbhi⟩ := hinside k hk
          have he := Nat.add_right_cancel hb
          rcases hout hr' hlo hhi with hlt | hge <;> omega
      · rw [(hlists j).2, if_pos rfl]
        have hpos := blocksPerArena_pos hclass
        constructor
        · intro _ hnil
          rw [List.range_eq_nil] at hnil
          omega
        · exact fun _ => List.mem_cons_self
    · obtain ⟨f, hok, hpos⟩ := hi.arenas j a hm
      obtain ⟨hc, r', hr', hra, -, hs⟩ := hi.classes j a hm
      have hne : a ≠ r.addr := by
        rintro rfl
        exact hnew j hm
      have harena : ((({ h with regions := r :: h.regions } : Heap).fill r.addr r.size
          contents).arenaInit r.addr i).arena a = h.arena a := Function.update_of_ne hne _ _
      refine ⟨f, hok.congr harena (fun k hk => ?_) (fun _ _ => Iff.rfl) (hfree j a hne), fun _ => ?_⟩
      · subst hra
        have hb := blockAddr_bound (a := r'.addr) hk hs
        have hbs := (blockSize_bounds hc).1
        rw [hheader hr' (by omega) (by omega)]
        exact ⟨rfl, rfl⟩
      · rw [harena]
        exact hpos (by simp)
  · intro j
    obtain ⟨hnodup, hfnodup, hsub⟩ := hi.lists j
    rw [(hlists j).1, (hlists j).2]
    split
    · refine ⟨List.nodup_cons.mpr ⟨hnew j, hnodup⟩,
        List.nodup_cons.mpr ⟨fun hm => hnew j (hsub hm), hfnodup⟩, ?_⟩
      exact List.cons_subset_cons _ hsub
    · exact ⟨hnodup, hfnodup, hsub⟩
  · intro x hx
    rcases hi.blocks x hx with ⟨j, a, k, ha, hk, hp, hs⟩ | ⟨r', hr', hp, hrun, hnot, hs, husable, hnil⟩
    · refine .inl ⟨j, a, k, ?_, hk, hp, hs⟩
      rw [(hlists j).1]
      split
      · exact List.mem_cons_of_mem _ ha
      · exact ha
    · refine .inr ⟨r', List.mem_cons_of_mem _ hr', hp, hrun, fun j hm => ?_, hs, husable, ?_⟩
      · rcases hmem j _ hm with ⟨rfl, he⟩ | hm
        · rcases hstart hr' with hlt | hge <;> omega
        · exact hnot j hm
      · rw [hheader hr' (Nat.le_refl _)
          (by have hs := (hi.regions.bounds r' hr').2.2.1; omega)]
        exact hnil
  · intro r' hr'
    rcases List.mem_cons.mp hr' with rfl | hr'
    · refine .inr (.inl ⟨i, ?_⟩)
      rw [(hlists i).1, if_pos rfl]
      exact List.mem_cons_self
    · rcases hi.owned r' hr' with hrun | ⟨j, hm⟩ | hptr
      · exact .inl hrun
      · refine .inr (.inl ⟨j, ?_⟩)
        rw [(hlists j).1]
        split
        · exact List.mem_cons_of_mem _ hm
        · exact hm
      · exact .inr (.inr hptr)

end

end TurboJS.Memory
