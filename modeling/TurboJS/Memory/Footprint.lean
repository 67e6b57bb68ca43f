import TurboJS.Memory.Blocks

namespace TurboJS.Memory

open Foundation

/-! The live blocks do not overlap, and their sizes add up to less than the address space. -/

section

variable {h : Heap} {live : List (Nat × Nat)} {made : Option Nat} {x y : Nat × Nat}
  {i a k s len s' len' : Nat} {r : Region}

inductive Slot (h : Heap) (x : Nat × Nat) : Nat → Nat → Prop where
  | small {i a k : Nat} (ha : a ∈ h.arenaList i) (hk : k < blocksPerArena i)
      (hp : x.1 = Heap.blockAddr a i k + headerSize) (hsize : x.2 + headerSize ≤ blockSize i) :
      Slot h x (Heap.blockAddr a i k) (blockSize i)
  | large {r : Region} (hr : r ∈ h.regions) (hp : x.1 = r.addr + headerSize)
      (hrun : r ≠ h.runtime) (hnot : ∀ i, r.addr ∉ h.arenaList i)
      (hsize : headerSize + x.2 ≤ r.size) (hnil : (h.header r.addr).u = arenaFreeNil) :
      Slot h x r.addr r.size

theorem Inv.slot (hi : Inv h live made) (hx : x ∈ live) : ∃ s len, Slot h x s len := by
  rcases hi.blocks x hx with ⟨i, a, k, ha, hk, hp, hsize⟩ | ⟨r, hr, hp, hrun, hnot, hsize, -, hnil⟩
  · exact ⟨_, _, .small ha hk hp hsize⟩
  · exact ⟨_, _, .large hr hp hrun hnot hsize hnil⟩

theorem Slot.pointer (hs : Slot h x s len) : x.1 = s + headerSize := by
  cases hs with
  | small _ _ hp _ => exact hp
  | large _ hp _ _ _ _ => exact hp

theorem Slot.size_le (hs : Slot h x s len) : headerSize + x.2 ≤ len := by
  cases hs with
  | small _ _ _ hsize => omega
  | large _ _ _ _ hsize _ => exact hsize

theorem Slot.region (hs : Slot h x s len) (hi : Inv h live made) :
    ∃ r ∈ h.regions, r ≠ h.runtime ∧ r.addr ≤ s ∧ s + len ≤ r.addr + r.size := by
  cases hs with
  | small ha hk hp hsize =>
    obtain ⟨-, r, hr, rfl, hrun, hfit⟩ := hi.classes _ _ ha
    have hb := blockAddr_bound (a := r.addr) hk hfit
    exact ⟨r, hr, hrun, by omega, by omega⟩
  | large hr hp hrun hnot hsize hnil => exact ⟨_, hr, hrun, Nat.le_refl _, Nat.le_refl _⟩

theorem RegionsOk.apart_of_ne {r r' : Region} (hr : RegionsOk h) (hm : r ∈ h.regions)
    (hm' : r' ∈ h.regions) (hne : r ≠ r') (hin : r.addr ≤ s ∧ s + len ≤ r.addr + r.size)
    (hin' : r'.addr ≤ s' ∧ s' + len' ≤ r'.addr + r'.size) : s + len ≤ s' ∨ s' + len' ≤ s := by
  rcases hr.apart.forall hm hm' hne with hd | hd <;> omega

theorem Slot.apart (hs : Slot h x s len) (hs' : Slot h y s' len') (hi : Inv h live made)
    (hne : x.1 ≠ y.1) : s + len ≤ s' ∨ s' + len' ≤ s := by
  cases hs with
  | @small i a k ha hk hp hsize =>
    obtain ⟨hc, r, hr, rfl, hrun, hfit⟩ := hi.classes i a ha
    have hb := blockAddr_bound (a := r.addr) hk hfit
    cases hs' with
    | @small j a' l ha' hl hp' hsize' =>
      obtain ⟨hc', r', hr', rfl, hrun', hfit'⟩ := hi.classes j a' ha'
      have hb' := blockAddr_bound (a := r'.addr) hl hfit'
      by_cases hrr : r = r'
      · subst hrr
        have hij := hi.class_eq ha ha'
        subst hij
        have hkl : k ≠ l := by
          rintro rfl
          exact hne (hp.trans hp'.symm)
        unfold Heap.blockAddr
        rcases Nat.lt_or_gt_of_ne hkl with hlt | hgt
        · have hmul : (k + 1) * blockSize i ≤ l * blockSize i := Nat.mul_le_mul_right _ hlt
          rw [Nat.add_mul, Nat.one_mul] at hmul
          omega
        · have hmul : (l + 1) * blockSize i ≤ k * blockSize i := Nat.mul_le_mul_right _ hgt
          rw [Nat.add_mul, Nat.one_mul] at hmul
          omega
      · exact hi.regions.apart_of_ne hr hr' hrr ⟨by omega, by omega⟩ ⟨by omega, by omega⟩
    | @large r' hr' hp' hrun' hnot' hsize' hnil' =>
      have hrr : r ≠ r' := by
        rintro rfl
        exact hnot' i ha
      exact hi.regions.apart_of_ne hr hr' hrr ⟨by omega, by omega⟩ ⟨by omega, by omega⟩
  | @large r hr hp hrun hnot hsize hnil =>
    cases hs' with
    | @small j a' l ha' hl hp' hsize' =>
      obtain ⟨hc', r', hr', rfl, hrun', hfit'⟩ := hi.classes j a' ha'
      have hb' := blockAddr_bound (a := r'.addr) hl hfit'
      have hrr : r ≠ r' := by
        rintro rfl
        exact hnot j ha'
      exact hi.regions.apart_of_ne hr hr' hrr ⟨by omega, by omega⟩ ⟨by omega, by omega⟩
    | @large r' hr' hp' hrun' hnot' hsize' hnil' =>
      have hrr : r ≠ r' := by
        rintro rfl
        exact hne (hp.trans hp'.symm)
      exact hi.regions.apart_of_ne hr hr' hrr ⟨by omega, by omega⟩ ⟨by omega, by omega⟩

theorem RegionsOk.find (hr : RegionsOk h) (hm : r ∈ h.regions) :
    h.regions.find? (fun r' => r'.addr = r.addr) = some r := by
  cases hfind : h.regions.find? (fun r' => r'.addr = r.addr) with
  | none =>
    have hnone := List.find?_eq_none.mp hfind r hm
    simp at hnone
  | some r' =>
    have haddr : r'.addr = r.addr := by simpa using List.find?_some hfind
    rw [hr.eq_of_addr (List.mem_of_find?_eq_some hfind) hm haddr]

theorem RegionsOk.mfUsableSize (hr : RegionsOk h) (hm : r ∈ h.regions) :
    h.mfUsableSize r.addr = r.usable := by
  simp [Heap.mfUsableSize, hr.find hm]

theorem Inv.zero_ne (hi : Inv h live made) (hr : r ∈ h.regions) (hrun : r ≠ h.runtime) :
    r.addr ≠ h.zeroSizeBlock := by
  intro he
  obtain ⟨hlo, hhi⟩ := hi.regions.zero
  have hs := (hi.regions.bounds r hr).2.2.1
  unfold headerSize at hhi
  exact hrun (hi.regions.eq_of_mem hr hi.regions.runtime (Nat.le_refl r.addr)
    (by omega) (by omega) (by omega))

theorem Slot.usable (hs : Slot h x s len) (hi : Inv h live made) (hx : x ∈ live) :
    h.arenaUsableSize x.1 + headerSize ≤ len ∧
      (h.arenaUsableSize x.1 = 0 ∨ x.2 ≤ h.arenaUsableSize x.1) := by
  have hp := hs.pointer
  have hne : ¬ x.1 = 0 := by
    rw [hp, headerSize]
    omega
  have hsub : x.1 - headerSize = s := by omega
  cases hs with
  | @small i a k ha hk hp' hsize =>
    obtain ⟨free, hok, -⟩ := hi.arenas i a ha
    have hclass := (hi.classes i a ha).1
    have hlive : Heap.blockAddr a i k + headerSize ∈ pointers live := by
      rw [← hp']
      exact List.mem_map_of_mem hx
    have hnil := hok.slots.own_ne (blocksPerArena_le hclass) hk ((hok.live k hk).mpr hlive)
    have hpos := (blockSize_bounds hclass).1
    have huse : h.arenaUsableSize x.1 = blockSize i - headerSize := by
      simp [Heap.arenaUsableSize, hne, hsub, hnil, hok.sizes k hk]
    rw [huse]
    unfold headerSize at *
    omega
  | @large r hr hp' hrun hnot hsize hnil =>
    have hzero := hi.zero_ne hr hrun
    obtain ⟨-, hbound, h8, hle⟩ := hi.regions.bounds r hr
    have husable : r.usable = 0 ∨ headerSize + x.2 ≤ r.usable := by
      rcases hi.blocks x hx with ⟨j, a', l, ha', hl, hp'', -⟩ |
        ⟨r', hr', hp'', -, -, -, husable, -⟩
      · exact absurd (Nat.add_right_cancel (hp''.symm.trans hp')) (hi.block_ne_region ha' hl hr)
      · have heq := hi.regions.eq_of_addr hr' hr (Nat.add_right_cancel (hp''.symm.trans hp'))
        rw [← heq]
        exact husable
    by_cases hu : r.usable = 0
    · have huse : h.arenaUsableSize x.1 = 0 := by
        simp [Heap.arenaUsableSize, hne, hsub, hnil, hzero, hi.regions.mfUsableSize hr, hu]
      rw [huse]
      unfold headerSize at *
      omega
    · have huse : h.arenaUsableSize x.1 = r.usable - headerSize := by
        have hsub64 : sub64 r.usable headerSize = r.usable - headerSize := by
          unfold sub64 headerSize sizeMod at *
          omega
        simp [Heap.arenaUsableSize, hne, hsub, hnil, hzero, hi.regions.mfUsableSize hr, hu, hsub64]
      rw [huse]
      unfold headerSize at *
      omega

def Heap.accounted (h : Heap) (live : List (Nat × Nat)) : Nat :=
  (live.map fun x => h.arenaUsableSize x.1 + mallocOverhead).sum

theorem Inv.accounted_lt (hi : Inv h live made) :
    h.runtime.usable + mallocOverhead + h.accounted live < sizeMod := by
  have hsum : (((h.runtime.addr, h.runtime.size) :: live.map fun x =>
      (x.1 - headerSize, h.arenaUsableSize x.1 + mallocOverhead)).map Prod.snd).sum ≤
        sizeMod - 16 := by
    apply @sum_length_le _ Prod.fst Prod.snd
    · refine List.pairwise_cons.mpr ⟨?_, ?_⟩
      · intro z hz
        obtain ⟨x, hx, rfl⟩ := List.mem_map.mp hz
        obtain ⟨s, len, hs⟩ := hi.slot hx
        obtain ⟨r, hr, hrun, hlo, hhi⟩ := hs.region hi
        have huse := (hs.usable hi hx).1
        have hp := hs.pointer
        have hd := hi.regions.apart_of_ne hi.regions.runtime hr hrun.symm
          ⟨Nat.le_refl _, Nat.le_refl _⟩ ⟨hlo, hhi⟩
        simp only [Apart, headerSize, mallocOverhead] at *
        omega
      · rw [List.pairwise_map]
        have hpw : live.Pairwise fun x y => x.1 ≠ y.1 := by
          have hnodup := hi.nodup
          rwa [pointers, List.Nodup, List.pairwise_map] at hnodup
        refine hpw.imp_of_mem fun {x y} hx hy hne => ?_
        obtain ⟨s, len, hs⟩ := hi.slot hx
        obtain ⟨s', len', hs'⟩ := hi.slot hy
        have hd := hs.apart hs' hi hne
        have huse := (hs.usable hi hx).1
        have huse' := (hs'.usable hi hy).1
        have hp := hs.pointer
        have hp' := hs'.pointer
        simp only [Apart, headerSize, mallocOverhead] at *
        omega
    · intro z hz
      rcases List.mem_cons.mp hz with rfl | hz
      · obtain ⟨hlo, hhi, -⟩ := hi.regions.bounds _ hi.regions.runtime
        exact ⟨hlo, hhi⟩
      · obtain ⟨x, hx, rfl⟩ := List.mem_map.mp hz
        obtain ⟨s, len, hs⟩ := hi.slot hx
        obtain ⟨r, hr, -, hlo, hhi⟩ := hs.region hi
        obtain ⟨hlo', hhi', -⟩ := hi.regions.bounds r hr
        have huse := (hs.usable hi hx).1
        have hp := hs.pointer
        simp only [headerSize, mallocOverhead] at *
        omega
  have hle := (hi.regions.bounds _ hi.regions.runtime).2.2.2
  rw [List.map_cons, List.sum_cons, List.map_map] at hsum
  have heq : (live.map (Prod.snd ∘ fun x : Nat × Nat =>
      (x.1 - headerSize, h.arenaUsableSize x.1 + mallocOverhead))).sum = h.accounted live := rfl
  rw [heq] at hsum
  unfold mallocOverhead sizeMod at *
  simp only at hsum
  omega

end

end TurboJS.Memory
