import TurboJS.Foundation.Chain
import TurboJS.Foundation.Intervals
import TurboJS.Memory.Allocator

namespace TurboJS.Memory

open Foundation

/-! What holds of the arenas, the large blocks and the regions of the host. -/

section

variable {i size : Nat}

theorem blockSize_bounds (hi : i < arenaBlockSizeCount) : 16 ≤ blockSize i ∧ blockSize i ≤ 512 := by
  revert i
  decide

theorem blocksPerArena_pos (hi : i < arenaBlockSizeCount) : 0 < blocksPerArena i := by
  revert i
  decide

theorem blocksPerArena_le (hi : i < arenaBlockSizeCount) : blocksPerArena i ≤ arenaFreeNil := by
  revert i
  decide

theorem sizeIndex_spec (h : size ≤ arenaMaxSmallSize) :
    arenaGetSizeIndex size < arenaBlockSizeCount ∧ size ≤ blockSize (arenaGetSizeIndex size) := by
  have hall : ∀ size < arenaMaxSmallSize + 1, arenaGetSizeIndex size < arenaBlockSizeCount ∧
      size ≤ blockSize (arenaGetSizeIndex size) := by decide +kernel
  exact hall size (Nat.lt_succ_of_le h)

def Fits (size : Nat) : Prop := size + 15 < sizeMod

instance (size : Nat) : Decidable (Fits size) := inferInstanceAs (Decidable (_ < _))

theorem totalSize_of_fits (h : Fits size) :
    size + headerSize ≤ totalSize size ∧ totalSize size ≤ size + 15 := by
  unfold Fits at h
  have hadd : add64 size 7 = size + 7 := Nat.mod_eq_of_lt (by omega)
  have htotal : totalSize size = (size + 7) / 8 * 8 + 8 := by
    rw [totalSize, hadd, headerSize, add64, Nat.mod_eq_of_lt (by omega)]
  rw [htotal, headerSize]
  omega

end

def pointers (live : List (Nat × Nat)) : List Nat := live.map (·.1)

/-- An arena of the class `i`, and which of its blocks are free. -/
structure ArenaOk (h : Heap) (ptrs : List Nat) (i a : Nat) (free : List Nat) : Prop where
  blockSizeIdx : (h.arena a).blockSizeIdx = i
  nBlocks : (h.arena a).nBlocks = blocksPerArena i
  sizes : ∀ k < blocksPerArena i, (h.header (Heap.blockAddr a i k)).blockSizeIdx = i
  slots : FreeSlots (blocksPerArena i) arenaFreeNil (h.arena a).firstFreeBlock
    (fun k => (h.header (Heap.blockAddr a i k)).u) free
  used : (h.arena a).nUsedBlocks + free.length = blocksPerArena i
  live : ∀ k < blocksPerArena i, (k ∉ free ↔ Heap.blockAddr a i k + headerSize ∈ ptrs)
  listed : a ∈ h.freeArenaList i ↔ free ≠ []

def Heap.HasArena (h : Heap) (i a : Nat) : Prop :=
  ∃ r ∈ h.regions, r.addr = a ∧ r ≠ h.runtime ∧
    arenaHeaderSize + blocksPerArena i * blockSize i ≤ r.size

def Heap.SmallBlock (h : Heap) (p size : Nat) : Prop :=
  ∃ i a k, a ∈ h.arenaList i ∧ k < blocksPerArena i ∧ p = Heap.blockAddr a i k + headerSize ∧
    size + headerSize ≤ blockSize i

def Heap.LargeBlock (h : Heap) (p size : Nat) : Prop :=
  ∃ r ∈ h.regions, p = r.addr + headerSize ∧ r ≠ h.runtime ∧ (∀ i, r.addr ∉ h.arenaList i) ∧
    headerSize + size ≤ r.size ∧ (r.usable = 0 ∨ headerSize + size ≤ r.usable) ∧
    (h.header r.addr).u = arenaFreeNil

structure RegionsOk (h : Heap) : Prop where
  apart : h.regions.Pairwise (Apart Region.addr Region.size)
  bounds : ∀ r ∈ h.regions, 16 ≤ r.addr ∧ r.addr + r.size ≤ sizeMod ∧ 8 ≤ r.size ∧
    r.usable ≤ r.size
  runtime : h.runtime ∈ h.regions
  zero : h.runtime.addr ≤ h.zeroSizeBlock ∧
    h.zeroSizeBlock + headerSize ≤ h.runtime.addr + h.runtime.size

/-- The allocator with its live blocks. An arena that has just been made may be without a block
in use. -/
structure Inv (h : Heap) (live : List (Nat × Nat)) (made : Option Nat) : Prop where
  regions : RegionsOk h
  classes : ∀ i, ∀ a ∈ h.arenaList i, i < arenaBlockSizeCount ∧ h.HasArena i a
  arenas : ∀ i, ∀ a ∈ h.arenaList i, ∃ free, ArenaOk h (pointers live) i a free ∧
    (some a ≠ made → 0 < (h.arena a).nUsedBlocks)
  lists : ∀ i, (h.arenaList i).Nodup ∧ (h.freeArenaList i).Nodup ∧ h.freeArenaList i ⊆ h.arenaList i
  blocks : ∀ x ∈ live, h.SmallBlock x.1 x.2 ∨ h.LargeBlock x.1 x.2
  nodup : (pointers live).Nodup
  owned : ∀ r ∈ h.regions, r = h.runtime ∨ (∃ i, r.addr ∈ h.arenaList i) ∨
    r.addr + headerSize ∈ pointers live

section

variable {h h' : Heap} {live : List (Nat × Nat)} {made : Option Nat} {ptrs ptrs' : List Nat}
  {i j a a' k l size : Nat} {r r' : Region} {free : List Nat}

theorem ArenaOk.congr (ho : ArenaOk h ptrs i a free) (harena : h'.arena a = h.arena a)
    (hheader : ∀ k < blocksPerArena i,
      (h'.header (Heap.blockAddr a i k)).u = (h.header (Heap.blockAddr a i k)).u ∧
      (h'.header (Heap.blockAddr a i k)).blockSizeIdx =
        (h.header (Heap.blockAddr a i k)).blockSizeIdx)
    (hlive : ∀ k < blocksPerArena i, (Heap.blockAddr a i k + headerSize ∈ ptrs' ↔
      Heap.blockAddr a i k + headerSize ∈ ptrs))
    (hlisted : a ∈ h'.freeArenaList i ↔ a ∈ h.freeArenaList i) : ArenaOk h' ptrs' i a free where
  blockSizeIdx := by
    rw [harena]
    exact ho.blockSizeIdx
  nBlocks := by
    rw [harena]
    exact ho.nBlocks
  sizes := by
    intro k hk
    rw [(hheader k hk).2]
    exact ho.sizes k hk
  slots := by
    rw [harena]
    exact ho.slots.congr fun k hk => (hheader k hk).1
  used := by
    rw [harena]
    exact ho.used
  live := by
    intro k hk
    rw [hlive k hk]
    exact ho.live k hk
  listed := by
    rw [hlisted]
    exact ho.listed

theorem RegionsOk.eq_of_mem (hr : RegionsOk h) (hm : r ∈ h.regions) (hm' : r' ∈ h.regions)
    (hx : r.addr ≤ a) (hx' : a < r.addr + r.size) (hy : r'.addr ≤ a)
    (hy' : a < r'.addr + r'.size) : r = r' := by
  by_contra hne
  have hapart := hr.apart.forall hm hm' hne
  exact hapart.not_both hx hx' hy hy'

theorem RegionsOk.eq_of_addr (hr : RegionsOk h) (hm : r ∈ h.regions) (hm' : r' ∈ h.regions)
    (ha : r.addr = r'.addr) : r = r' := by
  obtain ⟨-, -, hs, -⟩ := hr.bounds r hm
  obtain ⟨-, -, hs', -⟩ := hr.bounds r' hm'
  exact hr.eq_of_mem hm hm' (Nat.le_refl _) (by omega) (by omega) (by omega)

theorem blockAddr_bound (hk : k < blocksPerArena i)
    (hs : arenaHeaderSize + blocksPerArena i * blockSize i ≤ size) :
    a + arenaHeaderSize ≤ Heap.blockAddr a i k ∧
      Heap.blockAddr a i k + blockSize i ≤ a + size := by
  have hmul : (k + 1) * blockSize i ≤ blocksPerArena i * blockSize i :=
    Nat.mul_le_mul_right _ hk
  rw [Nat.add_mul, Nat.one_mul] at hmul
  unfold Heap.blockAddr
  omega

theorem Inv.block_inj (hi : Inv h live made) (ha : a ∈ h.arenaList i) (ha' : a' ∈ h.arenaList j)
    (hk : k < blocksPerArena i) (hl : l < blocksPerArena j)
    (he : Heap.blockAddr a i k = Heap.blockAddr a' j l) : a = a' ∧ i = j ∧ k = l := by
  obtain ⟨hci, r, hr, rfl, -, hsize⟩ := hi.classes i a ha
  obtain ⟨hcj, r', hr', rfl, -, hsize'⟩ := hi.classes j a' ha'
  have hb := blockAddr_bound (a := r.addr) hk hsize
  have hb' := blockAddr_bound (a := r'.addr) hl hsize'
  have hpos := (blockSize_bounds hci).1
  have hpos' := (blockSize_bounds hcj).1
  have hsame : r = r' := hi.regions.eq_of_mem hr hr' (a := Heap.blockAddr r.addr i k)
    (by omega) (by omega) (by omega) (by omega)
  subst hsame
  obtain ⟨f, hok, -⟩ := hi.arenas i _ ha
  obtain ⟨f', hok', -⟩ := hi.arenas j _ ha'
  have hij : i = j := hok.blockSizeIdx.symm.trans hok'.blockSizeIdx
  subst hij
  refine ⟨rfl, rfl, ?_⟩
  unfold Heap.blockAddr at he
  have hmul : k * blockSize i = l * blockSize i := by omega
  exact Nat.eq_of_mul_eq_mul_right (by omega) hmul

theorem Inv.block_ne_region (hi : Inv h live made) (ha : a ∈ h.arenaList i)
    (hk : k < blocksPerArena i) (hr : r ∈ h.regions) : Heap.blockAddr a i k ≠ r.addr := by
  intro he
  obtain ⟨hci, r', hr', rfl, -, hsize⟩ := hi.classes i a ha
  have hb := blockAddr_bound (a := r'.addr) hk hsize
  have hpos := (blockSize_bounds hci).1
  obtain ⟨-, -, hs, -⟩ := hi.regions.bounds r hr
  have hsame : r' = r := hi.regions.eq_of_mem hr' hr (a := r.addr)
    (by omega) (by omega) (by omega) (by omega)
  subst hsame
  unfold arenaHeaderSize at hb
  omega

end

end TurboJS.Memory
