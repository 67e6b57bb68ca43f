import TurboJS.Memory.Footprint

namespace TurboJS.Memory

open Foundation

/-! What the functions of the arena allocator do. -/

structure Keeps (h h' : Heap) (live : List (Nat × Nat)) : Prop where
  header : ∀ x ∈ live, h'.header (x.1 - headerSize) = h.header (x.1 - headerSize)
  bytes : ∀ x ∈ live, ∀ k < x.2, h'.bytes (x.1 + k) = h.bytes (x.1 + k)
  regions : ∀ x ∈ live, ∀ r ∈ h.regions, r.addr + headerSize = x.1 → r ∈ h'.regions
  runtime : h'.runtime = h.runtime
  zero : h'.zeroSizeBlock = h.zeroSizeBlock
  count : h'.mallocCount = h.mallocCount
  size : h'.mallocSize = h.mallocSize
  limit : h'.mallocLimit = h.mallocLimit

section

variable {h h' h'' : Heap} {live live' rest : List (Nat × Nat)} {made : Option Nat} {x y : Nat × Nat}
  {i a b k n s len s' len' p size : Nat} {r : Region} {free : List Nat}
  {contents : Nat → UInt8} {answer : Option Allocation}

theorem Keeps.refl (h : Heap) (live : List (Nat × Nat)) : Keeps h h live :=
  ⟨fun _ _ => rfl, fun _ _ _ _ => rfl, fun _ _ _ hr _ => hr, rfl, rfl, rfl, rfl, rfl⟩

theorem Keeps.trans (hk : Keeps h h' live) (hk' : Keeps h' h'' live') (hsub : live' ⊆ live) :
    Keeps h h'' live' where
  header := fun x hx => (hk'.header x hx).trans (hk.header x (hsub hx))
  bytes := fun x hx k hk₁ => (hk'.bytes x hx k hk₁).trans (hk.bytes x (hsub hx) k hk₁)
  regions := fun x hx r hr he => hk'.regions x hx r (hk.regions x (hsub hx) r hr he) he
  runtime := hk'.runtime.trans hk.runtime
  zero := hk'.zero.trans hk.zero
  count := hk'.count.trans hk.count
  size := hk'.size.trans hk.size
  limit := hk'.limit.trans hk.limit

theorem Keeps.usable (hk : Keeps h h' live) (hi : Inv h live' made) (hr : RegionsOk h')
    (hx : x ∈ live) (hx' : x ∈ live') : h'.arenaUsableSize x.1 = h.arenaUsableSize x.1 := by
  have hheader := hk.header x hx
  unfold Heap.arenaUsableSize
  split
  · rfl
  · simp only [hheader, hk.zero]
    split
    · rename_i hnil
      obtain ⟨s, len, hs⟩ := hi.slot hx'
      have hp := hs.pointer
      have hsub : x.1 - headerSize = s := by omega
      have huse : h'.mfUsableSize (x.1 - headerSize) = h.mfUsableSize (x.1 - headerSize) := by
        cases hs with
        | @small i a k ha hk' hp' hsize =>
          obtain ⟨free, hok, -⟩ := hi.arenas i a ha
          have hclass := (hi.classes i a ha).1
          have hlive : Heap.blockAddr a i k + headerSize ∈ pointers live' := by
            rw [← hp']
            exact List.mem_map_of_mem hx'
          rw [hsub] at hnil
          exact absurd hnil
            (hok.slots.own_ne (blocksPerArena_le hclass) hk' ((hok.live k hk').mpr hlive))
        | @large r hm hp' _ _ _ _ =>
          rw [hsub, hi.regions.mfUsableSize hm, hr.mfUsableSize (hk.regions x hx r hm hp'.symm)]
      rw [huse]
    · rfl

theorem Keeps.accounted (hk : Keeps h h' live) (hi : Inv h live' made) (hr : RegionsOk h')
    (hsub : live ⊆ live') : h'.accounted live = h.accounted live := by
  have hmap : (live.map fun x => h'.arenaUsableSize x.1 + mallocOverhead) =
      live.map fun x => h.arenaUsableSize x.1 + mallocOverhead := by
    apply List.map_congr_left
    intro x hx
    rw [hk.usable hi hr hx (hsub hx)]
  rw [Heap.accounted, hmap, Heap.accounted]

theorem Slot.byte (hs : Slot h x s len) (hk : k < x.2) : s + headerSize ≤ x.1 + k ∧ x.1 + k < s + len := by
  have hp := hs.pointer
  have hle := hs.size_le
  omega

theorem keeps_fill (hi : Inv h live made) (hsub : rest ⊆ live)
    (hapart : ∀ x ∈ rest, ∀ s len, Slot h x s len → s + len ≤ a ∨ a + n ≤ s) :
    Keeps h (h.fill a n contents) rest := by
  refine ⟨fun _ _ => rfl, fun x hx k hk => ?_, fun _ _ _ hr _ => hr, rfl, rfl, rfl, rfl, rfl⟩
  obtain ⟨s, len, hs⟩ := hi.slot (hsub hx)
  have hbyte := hs.byte hk
  have hd := hapart x hx s len hs
  have hout : ¬ (a ≤ x.1 + k ∧ x.1 + k < a + n) := by omega
  simp [Heap.fill, hout]

theorem keeps_taken (hi : Inv h live made)
    (hok : ArenaOk h (pointers live) i a (k :: free)) : Keeps h (h.taken i a k free) live := by
  obtain ⟨-, hk, -⟩ := hok.slots.take
  refine ⟨fun x hx => ?_, fun _ _ _ _ => rfl, fun _ _ _ hr _ => hr, rfl, rfl, rfl, rfl, rfl⟩
  apply Function.update_of_ne
  intro he
  obtain ⟨s, len, hs⟩ := hi.slot hx
  have hp := hs.pointer
  have hblock : x.1 = Heap.blockAddr a i k + headerSize := by omega
  have hlive : Heap.blockAddr a i k + headerSize ∈ pointers live := by
    rw [← hblock]
    exact List.mem_map_of_mem hx
  exact (hok.live k hk).mpr hlive List.mem_cons_self

theorem keeps_released (hi : Inv h live made) :
    Keeps h (h.released i a k free) (without live (Heap.blockAddr a i k + headerSize)) := by
  refine ⟨fun x hx => ?_, fun _ _ _ _ => rfl, fun _ _ _ hr _ => hr, rfl, rfl, rfl, rfl, rfl⟩
  obtain ⟨hx, hne⟩ := mem_without.mp hx
  apply Function.update_of_ne
  intro he
  obtain ⟨s, len, hs⟩ := hi.slot hx
  have hp := hs.pointer
  exact hne (by omega)

theorem keeps_dropArena (hi : Inv h live made) (ha : a ∈ h.arenaList i)
    (hzero : (h.arena a).nUsedBlocks = 0) : Keeps h (h.dropArena i a) live := by
  refine ⟨fun _ _ => rfl, fun _ _ _ _ => rfl, fun x hx r hr he => mem_mfFree.mpr ⟨hr, ?_⟩,
    rfl, rfl, rfl, rfl, rfl⟩
  rintro rfl
  rcases hi.blocks x hx with ⟨j, a', k, ha', hk, hp, -⟩ | ⟨r', hr', hp, -, hnot, -⟩
  · exact hi.block_ne_region ha' hk hr (Nat.add_right_cancel (hp.symm.trans he.symm))
  · have haddr : r'.addr = r.addr := Nat.add_right_cancel (hp.symm.trans he.symm)
    exact hnot i (haddr ▸ ha)

theorem keeps_mfFree : Keeps h (h.mfFree a) (without live (a + headerSize)) := by
  refine ⟨fun _ _ => rfl, fun _ _ _ _ => rfl, fun x hx r hr he => mem_mfFree.mpr ⟨hr, ?_⟩,
    rfl, rfl, rfl, rfl, rfl⟩
  rintro rfl
  exact (mem_without.mp hx).2 he.symm

theorem keeps_obtain (hi : Inv h live made) (hf : r.Fresh n h.regions)
    (hheader : ∀ b, (∃ r' ∈ h.regions, r'.addr ≤ b ∧ b < r'.addr + r'.size) →
      h'.header b = h.header b)
    (hbytes : h'.bytes = (h.fill r.addr r.size contents).bytes)
    (hregions : h'.regions = r :: h.regions) (hrun : h'.runtime = h.runtime)
    (hzero : h'.zeroSizeBlock = h.zeroSizeBlock) (hcount : h'.mallocCount = h.mallocCount)
    (hsize : h'.mallocSize = h.mallocSize) (hlimit : h'.mallocLimit = h.mallocLimit) :
    Keeps h h' live := by
  refine ⟨fun x hx => ?_, fun x hx k hk => ?_, fun x hx r' hr _ => ?_, hrun, hzero, hcount, hsize,
    hlimit⟩
  · obtain ⟨s, len, hs⟩ := hi.slot hx
    obtain ⟨r', hr', -, hlo, hhi⟩ := hs.region hi
    have hp := hs.pointer
    have hle := hs.size_le
    unfold headerSize at *
    exact hheader _ ⟨r', hr', by omega, by omega⟩
  · obtain ⟨s, len, hs⟩ := hi.slot hx
    obtain ⟨r', hr', -, hlo, hhi⟩ := hs.region hi
    have hb := hs.byte hk
    have hout : x.1 + k < r.addr ∨ r.addr + r.size ≤ x.1 + k := hf.ne hr' (by omega) (by omega)
    rw [hbytes]
    have hnot : ¬ (r.addr ≤ x.1 + k ∧ x.1 + k < r.addr + r.size) := by omega
    simp [Heap.fill, hnot]
  · rw [hregions]
    exact List.mem_cons_of_mem _ hr

def Heap.obtain (h : Heap) (r : Region) (contents : Nat → UInt8) : Heap :=
  ({ h with regions := r :: h.regions } : Heap).fill r.addr r.size contents

theorem mfMalloc_cases {res : Option Nat} (he : h.mfMalloc n answer = some (h', res)) :
    (res = none ∧ h' = h) ∨ ∃ al, answer = some al ∧ al.region.Fresh n h.regions ∧
      res = some al.region.addr ∧ h' = h.obtain al.region al.contents := by
  cases answer with
  | none =>
    cases he
    exact .inl ⟨rfl, rfl⟩
  | some al =>
    simp only [Heap.mfMalloc] at he
    split at he
    · rename_i hf
      cases he
      exact .inr ⟨al, rfl, hf, rfl, rfl⟩
    · cases he

def Allocates (h : Heap) (live : List (Nat × Nat)) (n : Nat) (h' : Heap) : Option Nat → Prop
  | none => h' = h
  | some p => Inv h' ((p, n) :: live) none ∧ Keeps h h' live

theorem arenaMallocLarge_spec (hi : Inv h live none) (hfit : n + 15 < sizeMod) {res : Option Nat}
    (he : h.arenaMallocLarge n answer = some (h', res)) :
    Allocates h live n h' res ∧ ∀ p, res = some p → ∃ al, answer = some al ∧
      ∀ k < n, h'.bytes (p + k) = al.contents (headerSize + k) := by
  have hadd : add64 headerSize n = headerSize + n := by
    unfold headerSize
    exact Nat.mod_eq_of_lt (by omega)
  rw [Heap.arenaMallocLarge, hadd] at he
  cases hm : h.mfMalloc (headerSize + n) answer with
  | none => simp [hm] at he
  | some result =>
    obtain ⟨h₁, got⟩ := result
    rcases mfMalloc_cases hm with ⟨rfl, rfl⟩ | ⟨al, rfl, hf, rfl, rfl⟩
    · simp only [hm, Option.some.injEq, Prod.mk.injEq] at he
      obtain ⟨rfl, rfl⟩ := he
      exact ⟨rfl, fun p hp => by cases hp⟩
    · simp only [hm, Option.some.injEq, Prod.mk.injEq] at he
      obtain ⟨rfl, rfl⟩ := he
      have hsize := hf.size
      refine ⟨⟨large_inv hi hf, ?_⟩, ?_⟩
      · refine keeps_obtain hi hf (fun b hb => ?_) rfl rfl rfl rfl rfl rfl rfl
        obtain ⟨r', hr', hlo, hhi⟩ := hb
        apply Function.update_of_ne
        rintro rfl
        unfold headerSize at hsize
        rcases hf.ne hr' hlo hhi with hlt | hge <;> omega
      · intro p hp
        cases hp
        refine ⟨al, rfl, fun k hk => ?_⟩
        have hin : al.region.addr ≤ al.region.addr + headerSize + k ∧
            al.region.addr + headerSize + k < al.region.addr + al.region.size := by omega
        have hbytes : (((h.obtain al.region al.contents).markLarge al.region.addr).bytes
            (al.region.addr + headerSize + k)) =
              al.contents (al.region.addr + headerSize + k - al.region.addr) := if_pos hin
        rw [hbytes, Nat.add_assoc, Nat.add_sub_cancel_left]

theorem takeBlock_spec (hi : Inv h live made) (hmade : ∀ a', made = some a' → a' = a)
    (hlisted : a ∈ h.freeArenaList i) (hn : n + headerSize ≤ blockSize i) :
    Inv (h.takeBlock i a).1 (((h.takeBlock i a).2, n) :: live) none ∧
      Keeps h (h.takeBlock i a).1 live := by
  have ha := (hi.lists i).2.2 hlisted
  obtain ⟨free, hok, -⟩ := hi.arenas i a ha
  obtain ⟨k, rest, hfree⟩ := List.exists_cons_of_ne_nil (hok.listed.mp hlisted)
  subst hfree
  rw [takeBlock_eq hok]
  exact ⟨taken_inv hi hmade ha hok hn, keeps_taken hi hok⟩

theorem arenaMalloc_spec (hi : Inv h live none) (hpos : n ≠ 0) (hfit : n + 15 < sizeMod)
    {res : Option Nat} (he : h.arenaMalloc n answer = some (h', res)) :
    Allocates h live n h' res := by
  obtain ⟨htotal, -⟩ := totalSize_of_fits hfit
  rw [Heap.arenaMalloc, if_neg hpos] at he
  split at he
  · rename_i hsmall
    obtain ⟨hclass, hblock⟩ := sizeIndex_spec hsmall
    generalize arenaGetSizeIndex (totalSize n) = i at he hclass hblock
    have hn : n + headerSize ≤ blockSize i := by omega
    cases hlist : h.freeArenaList i with
    | cons a rest =>
      simp only [hlist, Option.some.injEq, Prod.mk.injEq] at he
      obtain ⟨rfl, rfl⟩ := he
      exact takeBlock_spec hi (fun a' ha' => by cases ha')
        (by rw [hlist]; exact List.mem_cons_self) hn
    | nil =>
      simp only [hlist, Heap.arenaNew] at he
      cases hm : h.mfMalloc (arenaHeaderSize + blocksPerArena i * blockSize i) answer with
      | none => simp [hm] at he
      | some result =>
        obtain ⟨h₁, got⟩ := result
        rcases mfMalloc_cases hm with ⟨rfl, rfl⟩ | ⟨al, rfl, hf, rfl, rfl⟩
        · simp only [hm, Option.some.injEq, Prod.mk.injEq] at he
          obtain ⟨rfl, rfl⟩ := he
          rfl
        · simp only [hm, Option.some.injEq, Prod.mk.injEq] at he
          obtain ⟨rfl, rfl⟩ := he
          have hnew : Inv ((h.obtain al.region al.contents).arenaInit al.region.addr i) live
              (some al.region.addr) := arenaInit_inv hi hclass hf
          have hlisted : al.region.addr ∈
              ((h.obtain al.region al.contents).arenaInit al.region.addr i).freeArenaList i := by
            simp [Heap.arenaInit]
          obtain ⟨hinv, hkeeps⟩ := takeBlock_spec hnew
            (fun a' ha' => (Option.some.inj ha').symm) hlisted hn
          refine ⟨hinv, Keeps.trans ?_ hkeeps fun _ hx => hx⟩
          refine keeps_obtain hi hf (fun b hb => ?_) rfl rfl rfl rfl rfl rfl rfl
          obtain ⟨r', hr', hlo, hhi⟩ := hb
          apply arenaInit_header_other
          rintro k hk rfl
          have hb := blockAddr_bound (a := al.region.addr) hk hf.size
          have hbs := (blockSize_bounds hclass).1
          rcases hf.ne hr' hlo hhi with hlt | hge <;> omega
  · exact (arenaMallocLarge_spec hi hfit he).1

theorem arenaFree_large (hi : Inv h live made) (hr : r ∈ h.regions) (hrun : r ≠ h.runtime)
    (hnil : (h.header r.addr).u = arenaFreeNil) :
    h.arenaFree (r.addr + headerSize) = h.mfFree r.addr := by
  have hne : ¬ r.addr + headerSize = 0 := by
    unfold headerSize
    omega
  simp only [Heap.arenaFree, hne, if_false, Nat.add_sub_cancel, hnil, if_true,
    hi.zero_ne hr hrun]

theorem arenaFree_spec (hi : Inv h live none) (hx : x ∈ live) :
    Inv (h.arenaFree x.1) (without live x.1) none ∧
      Keeps h (h.arenaFree x.1) (without live x.1) := by
  rcases hi.blocks x hx with ⟨i, a, k, ha, hk, hp, -⟩ | ⟨r, hr, hp, hrun, hnot, -, -, hnil⟩
  · have hlive : Heap.blockAddr a i k + headerSize ∈ pointers live := by
      rw [← hp]
      exact List.mem_map_of_mem hx
    obtain ⟨free, hok, -⟩ := hi.arenas i a ha
    have hfree := (hok.live k hk).mpr hlive
    have hclass := (hi.classes i a ha).1
    rw [hp]
    refine ⟨arenaFree_small_inv hi ha hk hlive, ?_⟩
    have hkeeps : Keeps h (h.released i a k free)
        (without live (Heap.blockAddr a i k + headerSize)) := keeps_released hi
    rw [arenaFree_small hclass hok hk hfree]
    split
    · rename_i hzero
      have hrel := released_inv hi ha hok hk hfree
      have harena : ((h.released i a k free).arena a).nUsedBlocks = 0 := by
        simpa [Heap.released] using hzero
      exact hkeeps.trans (keeps_dropArena hrel ha harena) fun _ hx => hx
    · exact hkeeps
  · rw [hp, arenaFree_large hi hr hrun hnil]
    exact ⟨mfFree_inv hi hr hrun hnot, keeps_mfFree⟩

theorem Slot.apart_rest (hs : Slot h x s len) (hi : Inv h (x :: live) made) (hn : a + n ≤ s + len)
    (ha : s ≤ a) (y : Nat × Nat) (hy : y ∈ live) (s' len' : Nat) (hs' : Slot h y s' len') :
    s' + len' ≤ a ∨ a + n ≤ s' := by
  have hne : x.1 ≠ y.1 := by
    have hnodup := hi.nodup
    simp only [pointers, List.map_cons, List.nodup_cons] at hnodup
    intro he
    exact hnodup.1 (he ▸ List.mem_map_of_mem hy)
  have hd := hs.apart hs' hi hne
  omega

theorem arenaCalloc_spec (hi : Inv h live none) (hpos : n ≠ 0) (hfit : n + 15 < sizeMod)
    {res : Option Nat} (he : h.arenaCalloc n answer = some (h', res)) :
    Allocates h live n h' res ∧ ∀ p, res = some p → ∀ k < n, h'.bytes (p + k) = 0 := by
  rw [Heap.arenaCalloc] at he
  split at he
  · cases hm : h.arenaMalloc n answer with
    | none => simp [hm] at he
    | some result =>
      obtain ⟨h₁, got⟩ := result
      have hspec := arenaMalloc_spec hi hpos hfit hm
      cases got with
      | none =>
        simp only [hm, Option.some.injEq, Prod.mk.injEq] at he
        obtain ⟨rfl, rfl⟩ := he
        exact ⟨hspec, fun p hp => by cases hp⟩
      | some p =>
        obtain ⟨hinv, hkeeps⟩ := hspec
        simp only [hm, Option.some.injEq, Prod.mk.injEq] at he
        obtain ⟨rfl, rfl⟩ := he
        obtain ⟨s, len, hs⟩ := hinv.slot List.mem_cons_self
        have hp := hs.pointer
        have hle := hs.size_le
        simp only at hp hle
        refine ⟨⟨hinv.neutral rfl rfl rfl rfl rfl rfl fun _ => ⟨rfl, rfl⟩, ?_⟩, ?_⟩
        · refine hkeeps.trans (keeps_fill hinv (fun _ hx => List.mem_cons_of_mem _ hx) ?_)
            fun _ hx => hx
          exact hs.apart_rest hinv (by omega) (by omega)
        · intro q hq k hk
          cases hq
          exact if_pos ⟨by omega, by omega⟩
  · obtain ⟨hspec, hbytes⟩ := arenaMallocLarge_spec hi hfit he
    refine ⟨hspec, fun p hp k hk => ?_⟩
    obtain ⟨al, hal, hcontents⟩ := hbytes p hp
    rw [hcontents k hk]
    obtain ⟨al', -, rfl⟩ := Option.map_eq_some_iff.mp hal
    rfl

theorem Inv.resize (hi : Inv h live made) (hx : x ∈ live)
    (hroom : h.SmallBlock x.1 n ∨ h.LargeBlock x.1 n) : Inv h ((x.1, n) :: without live x.1) made := by
  have hmem : ∀ p, p ∈ pointers ((x.1, n) :: without live x.1) ↔ p ∈ pointers live := by
    intro p
    have hrest := @mem_pointers_without live x.1 p
    simp only [pointers, List.map_cons, List.mem_cons] at hrest ⊢
    rw [hrest]
    constructor
    · rintro (rfl | ⟨hm, -⟩)
      · exact List.mem_map_of_mem hx
      · exact hm
    · intro hm
      by_cases hp : p = x.1
      · exact .inl hp
      · exact .inr ⟨hm, hp⟩
  refine ⟨hi.regions, hi.classes, ?_, hi.lists, ?_, ?_, ?_⟩
  · intro i a ha
    obtain ⟨f, hf, hpos⟩ := hi.arenas i a ha
    exact ⟨f, hf.congr rfl (fun _ _ => ⟨rfl, rfl⟩) (fun _ _ => hmem _) Iff.rfl, hpos⟩
  · intro y hy
    rcases List.mem_cons.mp hy with rfl | hy
    · exact hroom
    · exact hi.blocks y (mem_without.mp hy).1
  · refine List.nodup_cons.mpr ⟨?_, nodup_without hi.nodup⟩
    intro hm
    exact (mem_pointers_without.mp hm).2 rfl
  · intro r hr
    rw [hmem]
    exact hi.owned r hr

def SameGc (hd hd' : BlockHeader) : Prop :=
  hd'.gcObjType = hd.gcObjType ∧ hd'.mark = hd.mark ∧ hd'.refCount = hd.refCount

def Reallocates (h : Heap) (live : List (Nat × Nat)) (x : Nat × Nat) (n : Nat) (h' : Heap) :
    Option Nat → Prop
  | none => h' = h
  | some q => Inv h' ((q, n) :: without live x.1) none ∧ Keeps h h' (without live x.1) ∧
      (∀ k < min x.2 n, h'.bytes (q + k) = h.bytes (x.1 + k)) ∧
      SameGc (h.header (x.1 - headerSize)) (h'.header (q - headerSize))

theorem mfRealloc_cases {res : Option Nat} (hr : RegionsOk h) (hm : r ∈ h.regions)
    (he : h.mfRealloc r.addr n answer = some (h', res)) (hn : headerSize ≤ n) :
    (res = none ∧ h' = h) ∨ ∃ al : Allocation, al.region.Fresh n (h.mfFree r.addr).regions ∧
      res = some al.region.addr ∧
      h' = ((h.mfFree r.addr).obtain al.region fun k =>
        if k < min r.size n then h.bytes (r.addr + k) else al.contents k).setHeader
          al.region.addr fun _ => h.header r.addr := by
  cases answer with
  | none =>
    cases he
    exact .inl ⟨rfl, rfl⟩
  | some al =>
    simp only [Heap.mfRealloc, hr.find hm, Option.map_some, Option.getD_some, if_pos hn] at he
    split at he
    · rename_i hf
      cases he
      exact .inr ⟨al, hf, rfl, rfl⟩
    · cases he

theorem reallocLarge_spec (hi : Inv h live none) (hr : r ∈ h.regions)
    (hp : x.1 = r.addr + headerSize) (hrun : r ≠ h.runtime) (hnot : ∀ i, r.addr ∉ h.arenaList i)
    (hsize : headerSize + x.2 ≤ r.size) {res : Option Nat}
    (he : h.mfRealloc r.addr (headerSize + n) answer = some (h', res)) :
    (res = none ∧ h' = h) ∨ ∃ nb, res = some nb ∧
      Reallocates h live x n (h'.markLarge nb) (some (nb + headerSize)) := by
  rcases mfRealloc_cases hi.regions hr he (Nat.le_add_right _ _) with hnone | ⟨al, hf, rfl, rfl⟩
  · exact .inl hnone
  · refine .inr ⟨_, rfl, ?_⟩
    clear he
    generalize hkept : (fun k => if k < min r.size (headerSize + n) then h.bytes (r.addr + k)
      else al.contents k) = kept
    have hlarge : Inv (((h.mfFree r.addr).obtain al.region kept).markLarge al.region.addr)
        ((al.region.addr + headerSize, n) :: without live x.1) none := by
      rw [hp]
      exact large_inv (mfFree_inv hi hr hrun hnot) hf
    have hfsize := hf.size
    have hheader : ∀ b, b ≠ al.region.addr → ((((h.mfFree r.addr).obtain al.region kept).setHeader
        al.region.addr fun _ => h.header r.addr).markLarge al.region.addr).header b =
          h.header b := by
      intro b hb
      simp [Heap.markLarge, Heap.setHeader, hb, Heap.obtain, Heap.fill, Heap.mfFree]
    have hself : ((((h.mfFree r.addr).obtain al.region kept).setHeader
        al.region.addr fun _ => h.header r.addr).markLarge al.region.addr).header al.region.addr =
          { h.header r.addr with u := arenaFreeNil, blockSizeIdx := 0xff } := by
      simp [Heap.markLarge, Heap.setHeader]
    refine ⟨?_, ?_, ?_, ?_⟩
    · refine hlarge.neutral rfl rfl rfl rfl rfl rfl fun b => ?_
      by_cases hb : b = al.region.addr
      · subst hb
        rw [hself]
        simp [Heap.markLarge, Heap.setHeader]
      · rw [hheader b hb]
        simp [Heap.markLarge, Heap.setHeader, hb, Heap.obtain, Heap.fill, Heap.mfFree]
    · have hkeeps : Keeps h (h.mfFree r.addr) (without live x.1) := by
        rw [hp]
        exact keeps_mfFree
      have hfreed : Inv (h.mfFree r.addr) (without live x.1) none := by
        rw [hp]
        exact mfFree_inv hi hr hrun hnot
      refine hkeeps.trans (keeps_obtain hfreed hf (fun b hb => ?_) rfl rfl rfl rfl rfl rfl rfl)
        fun _ hy => hy
      obtain ⟨r', hr', hlo, hhi⟩ := hb
      apply hheader
      rintro rfl
      unfold headerSize at hfsize
      rcases hf.ne hr' hlo hhi with hlt | hge <;> omega
    · intro k hk
      have hin : al.region.addr ≤ al.region.addr + headerSize + k ∧
          al.region.addr + headerSize + k < al.region.addr + al.region.size := by omega
      have hbytes : ((((h.mfFree r.addr).obtain al.region kept).setHeader al.region.addr
          fun _ => h.header r.addr).markLarge al.region.addr).bytes
            (al.region.addr + headerSize + k) =
          kept (al.region.addr + headerSize + k - al.region.addr) := if_pos hin
      rw [hbytes, Nat.add_assoc, Nat.add_sub_cancel_left, ← hkept]
      simp only
      rw [if_pos (by omega), hp, Nat.add_assoc]
    · have hsub : x.1 - headerSize = r.addr := by omega
      simp only [Nat.add_sub_cancel, hself, hsub]
      exact ⟨rfl, rfl, rfl⟩

theorem without_cons_of_ne (hne : y.1 ≠ p) : without (y :: live) p = y :: without live p := by
  simp [without, hne]

/-- A block of an arena moves: it is allocated again, copied and freed. -/
theorem move_spec (hx : x ∈ live) {q : Nat}
    (hq : Inv h' ((q, n) :: live) none) (hkeeps : Keeps h h' live) (m : Nat) (hm : m ≤ n)
    (hold : min x.2 n ≤ m) (hnew : BlockHeader)
    (hgc : SameGc (h.header (x.1 - headerSize)) hnew) (hu : hnew.u = (h'.header (q - headerSize)).u)
    (hclass : hnew.blockSizeIdx = (h'.header (q - headerSize)).blockSizeIdx) :
    Reallocates h live x n
      (((h'.setHeader (q - headerSize) fun _ => hnew).fill q m fun k =>
        h'.bytes (x.1 + k)).arenaFree x.1) (some q) := by
  have hne : q ≠ x.1 := by
    have hnodup := hq.nodup
    simp only [pointers, List.map_cons, List.nodup_cons] at hnodup
    rintro rfl
    exact hnodup.1 (List.mem_map_of_mem hx)
  have hqx : x ∈ (q, n) :: live := List.mem_cons_of_mem _ hx
  obtain ⟨s, len, hs⟩ := hq.slot List.mem_cons_self
  have hqp : q = s + headerSize := hs.pointer
  have hqlen : headerSize + n ≤ len := hs.size_le
  generalize hcopied : (h'.setHeader (q - headerSize) fun _ => hnew).fill q m (fun k =>
    h'.bytes (x.1 + k)) = copied
  have hcinv : Inv copied ((q, n) :: live) none := by
    subst hcopied
    refine hq.neutral rfl rfl rfl rfl rfl rfl fun b => ?_
    by_cases hb : b = q - headerSize
    · subst hb
      simp [Heap.fill, Heap.setHeader, hu, hclass]
    · simp [Heap.fill, Heap.setHeader, hb]
  have hckeeps : Keeps h' copied live := by
    subst hcopied
    refine ⟨fun y hy => ?_, fun y hy k hk => ?_, fun _ _ _ hr _ => hr, rfl, rfl, rfl, rfl, rfl⟩
    · obtain ⟨s', len', hs'⟩ := hq.slot (List.mem_cons_of_mem (q, n) hy)
      have hp' := hs'.pointer
      have hle' := hs'.size_le
      have hd := hs.apart_rest hq (Nat.le_refl _) (Nat.le_refl _) y hy s' len' hs'
      have hb : y.1 - headerSize ≠ q - headerSize := by
        unfold headerSize at *
        omega
      simp [Heap.fill, Heap.setHeader, hb]
    · obtain ⟨s', len', hs'⟩ := hq.slot (List.mem_cons_of_mem (q, n) hy)
      have hbyte := hs'.byte hk
      have hd := hs.apart_rest hq (Nat.le_refl _) (Nat.le_refl _) y hy s' len' hs'
      have hout : ¬ (q ≤ y.1 + k ∧ y.1 + k < q + m) := by omega
      simp [Heap.fill, Heap.setHeader, hout]
  obtain ⟨hfinv, hfkeeps⟩ := arenaFree_spec hcinv hqx
  rw [without_cons_of_ne hne] at hfinv hfkeeps
  have hrest : without live x.1 ⊆ live := fun y hy => (mem_without.mp hy).1
  refine ⟨hfinv, ?_, fun k hk => ?_, ?_⟩
  · refine (hkeeps.trans hckeeps fun _ hy => hy).trans ⟨?_, ?_, ?_, hfkeeps.runtime, hfkeeps.zero,
      hfkeeps.count, hfkeeps.size, hfkeeps.limit⟩ hrest
    · exact fun y hy => hfkeeps.header y (List.mem_cons_of_mem _ hy)
    · exact fun y hy => hfkeeps.bytes y (List.mem_cons_of_mem _ hy)
    · exact fun y hy => hfkeeps.regions y (List.mem_cons_of_mem _ hy)
  · have hbytes := hfkeeps.bytes (q, n) List.mem_cons_self k (by omega)
    have hcbytes : copied.bytes (q + k) = h'.bytes (x.1 + k) := by
      subst hcopied
      have hin : q ≤ q + k ∧ q + k < q + m := by omega
      simp [Heap.fill, hin]
    rw [hbytes, hcbytes]
    exact hkeeps.bytes x hx k (by omega)
  · have hheader := hfkeeps.header (q, n) List.mem_cons_self
    have hcheader : copied.header (q - headerSize) = hnew := by
      subst hcopied
      simp [Heap.fill, Heap.setHeader]
    rw [hheader, hcheader]
    exact hgc

def Heap.RoomFor (h : Heap) (p n : Nat) : Prop :=
  if (h.header (p - headerSize)).u = arenaFreeNil then headerSize + n < sizeMod
  else n + 15 < sizeMod

instance (h : Heap) (p n : Nat) : Decidable (h.RoomFor p n) :=
  inferInstanceAs (Decidable (if (h.header (p - headerSize)).u = arenaFreeNil then
    headerSize + n < sizeMod else n + 15 < sizeMod))

theorem arenaRealloc_spec (hi : Inv h live none) (hx : x ∈ live) (hpos : n ≠ 0)
    (hroom : h.RoomFor x.1 n) {res : Option Nat}
    (he : h.arenaRealloc x.1 n answer = some (h', res)) : Reallocates h live x n h' res := by
  rcases hi.blocks x hx with ⟨i, a, k, ha, hk, hp, hsize⟩ | ⟨r, hr, hp, hrun, hnot, hsize, -, hnil⟩
  · obtain ⟨free, hok, -⟩ := hi.arenas i a ha
    have hclass := (hi.classes i a ha).1
    have hlive : Heap.blockAddr a i k + headerSize ∈ pointers live := by
      rw [← hp]
      exact List.mem_map_of_mem hx
    have hnil := hok.slots.own_ne (blocksPerArena_le hclass) hk ((hok.live k hk).mpr hlive)
    have hsub : x.1 - headerSize = Heap.blockAddr a i k := by omega
    have hfit : n + 15 < sizeMod := by
      rw [Heap.RoomFor, hsub, if_neg hnil] at hroom
      exact hroom
    obtain ⟨htotal, -⟩ := totalSize_of_fits hfit
    simp only [Heap.arenaRealloc, hsub, hnil, if_false, hok.sizes k hk] at he
    split at he
    · rename_i hfits
      cases he
      refine ⟨hi.resize hx (.inl ⟨i, a, k, ha, hk, hp, by omega⟩), Keeps.refl _ _, fun _ _ => rfl,
        rfl, rfl, rfl⟩
    · cases hm : h.arenaMalloc n answer with
      | none => simp [hm] at he
      | some result =>
        obtain ⟨h₁, got⟩ := result
        have hspec := arenaMalloc_spec hi hpos hfit hm
        cases got with
        | none =>
          simp only [hm, Option.some.injEq, Prod.mk.injEq] at he
          obtain ⟨rfl, rfl⟩ := he
          exact hspec
        | some q =>
          obtain ⟨hinv, hkeeps⟩ := hspec
          simp only [hm, Option.some.injEq, Prod.mk.injEq] at he
          obtain ⟨rfl, rfl⟩ := he
          have hsame : h₁.header (Heap.blockAddr a i k) = h.header (x.1 - headerSize) := by
            rw [← hsub]
            exact hkeeps.header x hx
          refine move_spec hx hinv hkeeps (min n (blockSize i - headerSize))
            (Nat.min_le_left _ _) (by omega)
            { h₁.header (q - headerSize) with
              gcObjType := (h₁.header (Heap.blockAddr a i k)).gcObjType
              mark := (h₁.header (Heap.blockAddr a i k)).mark
              refCount := (h₁.header (Heap.blockAddr a i k)).refCount } ?_ rfl rfl
          rw [hsame]
          exact ⟨rfl, rfl, rfl⟩
  · have hsub : x.1 - headerSize = r.addr := by omega
    have hfit : headerSize + n < sizeMod := by
      rw [Heap.RoomFor, hsub, if_pos hnil] at hroom
      exact hroom
    have hadd : add64 headerSize n = headerSize + n := Nat.mod_eq_of_lt hfit
    simp only [Heap.arenaRealloc, hsub, hnil, if_true, hi.zero_ne hr hrun, if_false, hadd] at he
    cases hm : h.mfRealloc r.addr (headerSize + n) answer with
    | none => simp [hm] at he
    | some result =>
      obtain ⟨h₁, got⟩ := result
      rcases reallocLarge_spec hi hr hp hrun hnot hsize hm with ⟨rfl, rfl⟩ | ⟨nb, rfl, hspec⟩
      · simp only [hm, Option.some.injEq, Prod.mk.injEq] at he
        obtain ⟨rfl, rfl⟩ := he
        rfl
      · simp only [hm, Option.some.injEq, Prod.mk.injEq] at he
        obtain ⟨rfl, rfl⟩ := he
        exact hspec

end

end TurboJS.Memory
