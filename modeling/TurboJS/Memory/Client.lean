import TurboJS.Foundation.Run
import TurboJS.Memory.Calls

namespace TurboJS.Memory

open Foundation

/-! The allocator and the engine that calls it. -/

structure State where
  heap : Heap
  live : List (Nat × Nat)
  aborted : Bool

/-- What the engine does: the calls, with what the host will answer to a request that they may
make of it, and writes to its own blocks. -/
inductive Call where
  | malloc (size : Nat) (answer : Option Allocation)
  | calloc (count size : Nat) (answer : Option Allocation)
  | realloc (ptr size : Nat) (answer : Option Allocation)
  | free (ptr : Nat)
  | store (ptr offset : Nat) (value : UInt8)
  | setGc (ptr gcObjType : Nat) (mark : Bool) (refCount : Int)
  | setLimit (limit : Nat)

def Call.target : Call → Nat
  | .malloc _ _ | .calloc _ _ _ | .setLimit _ => 0
  | .realloc ptr _ _ | .free ptr | .store ptr _ _ | .setGc ptr _ _ _ => ptr

namespace State

variable (s : State)

def allocated (size : Nat) : Heap × Option Nat → State × Option Nat
  | (h, none) => ({ s with heap := h }, none)
  | (h, some p) => ({ s with heap := h, live := (p, size) :: s.live }, some p)

def reallocated (ptr size : Nat) : Heap × Option Nat → State × Option Nat
  | (h, none) => ({ s with heap := h }, none)
  | (h, some q) => ({ s with heap := h, live := (q, size) :: without s.live ptr }, some q)

/-- `js_free_rt` of a live block. -/
def freed (ptr : Nat) : State :=
  match s.heap.freeRt ptr with
  | none => { s with aborted := true }
  | some h => { s with heap := h, live := without s.live ptr }

/-- A call with what it returns. What the engine may not do is no step: to free or reallocate what
is not live, and to write outside its blocks. -/
def step (c : Call) : Option (State × Option Nat) :=
  if s.aborted then none
  else
    match c with
    | .malloc size answer => (s.heap.mallocRt size answer).map (s.allocated size)
    | .calloc count size answer =>
      (s.heap.callocRt count size answer).map (s.allocated (count * size % sizeMod))
    | .realloc ptr size answer =>
      if ptr = 0 then (s.heap.mallocRt size answer).map (s.allocated size)
      else if ptr ∉ pointers s.live then none
      else if size = 0 then some (s.freed ptr, none)
      else (s.heap.reallocBlockRt ptr size answer).map (s.reallocated ptr size)
    | .free ptr =>
      if ptr = 0 then some (s, none)
      else if ptr ∉ pointers s.live then none
      else some (s.freed ptr, none)
    | .store ptr offset value =>
      if s.live.any fun x => x.1 = ptr && offset < x.2 then
        some ({ s with heap := s.heap.fill (ptr + offset) 1 fun _ => value }, none)
      else none
    | .setGc ptr gcObjType mark refCount =>
      if ptr ∉ pointers s.live then none
      else
        some ({ s with heap := s.heap.setHeader (ptr - headerSize) fun hd =>
          { hd with gcObjType := gcObjType, mark := mark, refCount := refCount } }, none)
    | .setLimit limit => some ({ s with heap := { s.heap with mallocLimit := limit } }, none)

def next (c : Call) : Option State := (s.step c).map Prod.fst

/-- The condition on a call: the size that it asks for is refused at once, or it can be rounded up
and given a header without an overflow. -/
def Sized : Call → Prop
  | .malloc size _ => s.heap.overLimit (add64 s.heap.mallocSize size) = true ∨ Fits size
  | .calloc count size _ =>
    count ≠ count * size % sizeMod / size ∨
    s.heap.overLimit (add64 s.heap.mallocSize (count * size % sizeMod)) = true ∨
    Fits (count * size % sizeMod)
  | .realloc ptr size _ =>
    if ptr = 0 then s.heap.overLimit (add64 s.heap.mallocSize size) = true ∨ Fits size
    else s.heap.overLimit (sub64 (add64 s.heap.mallocSize size) (s.heap.arenaUsableSize ptr)) = true ∨
      s.heap.RoomFor ptr size
  | _ => True

instance (c : Call) : Decidable (s.Sized c) :=
  match c with
  | .malloc _ _ => inferInstanceAs (Decidable (_ ∨ _))
  | .calloc _ _ _ => inferInstanceAs (Decidable (_ ∨ _ ∨ _))
  | .realloc ptr _ _ => inferInstanceAs (Decidable (if ptr = 0 then _ ∨ _ else _ ∨ _))
  | .free _ | .store _ _ _ | .setGc _ _ _ _ | .setLimit _ => .isTrue trivial

end State

/-- `js_new_runtime2` and `js_arena_init`: the region of the runtime is counted, and there is no
arena. -/
structure Heap.Initial (h : Heap) : Prop where
  regions : h.regions = [h.runtime]
  bounds : 16 ≤ h.runtime.addr ∧ h.runtime.addr + h.runtime.size ≤ sizeMod ∧
    h.runtime.usable ≤ h.runtime.size
  zero : h.runtime.addr ≤ h.zeroSizeBlock ∧
    h.zeroSizeBlock + headerSize ≤ h.runtime.addr + h.runtime.size
  arenas : ∀ i, h.arenaList i = [] ∧ h.freeArenaList i = []
  count : h.mallocCount = 1
  size : h.mallocSize = add64 h.runtime.usable mallocOverhead

structure State.Correct (s : State) : Prop where
  /-- The live blocks, from their headers to the end of what is usable, do not overlap. -/
  apart : s.live.Pairwise fun x y =>
    x.1 + max x.2 (s.heap.arenaUsableSize x.1) ≤ y.1 - headerSize ∨
    y.1 + max y.2 (s.heap.arenaUsableSize y.1) ≤ x.1 - headerSize
  /-- A live block has the room that was asked for, in memory that the host has given out. -/
  sized : ∀ x ∈ s.live, ∃ r ∈ s.heap.regions, r ≠ s.heap.runtime ∧ r.addr + headerSize ≤ x.1 ∧
    x.1 + max x.2 (s.heap.arenaUsableSize x.1) ≤ r.addr + r.size
  /-- The chain of free blocks of an arena has every block once that is not live, the count is
  that of the live ones, and there is one. -/
  arenas : ∀ i, ∀ a ∈ s.heap.arenaList i, ∃ free,
    Chain (fun k => linked arenaFreeNil (s.heap.header (Heap.blockAddr a i k)).u)
      (linked arenaFreeNil (s.heap.arena a).firstFreeBlock) free ∧ free.Nodup ∧
    (∀ k, k ∈ free ↔ k < blocksPerArena i ∧
      Heap.blockAddr a i k + headerSize ∉ pointers s.live) ∧
    (s.heap.arena a).nUsedBlocks = ((List.range (blocksPerArena i)).filter fun k =>
      decide (Heap.blockAddr a i k + headerSize ∈ pointers s.live)).length ∧
    0 < (s.heap.arena a).nUsedBlocks ∧ (a ∈ s.heap.freeArenaList i ↔ free ≠ []) ∧
    ∃ r ∈ s.heap.regions, r.addr = a
  /-- No list has an arena twice, and only arenas are on the lists of those with a free block. -/
  lists : ∀ i, (s.heap.arenaList i).Nodup ∧ (s.heap.freeArenaList i).Nodup ∧
    s.heap.freeArenaList i ⊆ s.heap.arenaList i
  /-- Only the runtime, the arenas and the large live blocks have memory of the host. -/
  released : ∀ r ∈ s.heap.regions, r = s.heap.runtime ∨ (∃ i, r.addr ∈ s.heap.arenaList i) ∨
    r.addr + headerSize ∈ pointers s.live
  count : s.heap.mallocCount = 1 + s.live.length
  size : s.heap.mallocSize = s.heap.runtime.usable + mallocOverhead + s.heap.accounted s.live
  aborted : s.aborted = false

/-- What a call from `s` to `s'` leaves in the blocks. -/
structure State.Honest (s s' : State) (c : Call) (result : Option Nat) : Prop where
  /-- The other blocks stay live with their bytes and their headers. -/
  others : ∀ x ∈ s.live, x.1 ≠ c.target → x ∈ s'.live ∧
    (∀ k < x.2, s'.heap.bytes (x.1 + k) = s.heap.bytes (x.1 + k)) ∧
    s'.heap.header (x.1 - headerSize) = s.heap.header (x.1 - headerSize)
  zeroed : ∀ count size answer p, c = .calloc count size answer → result = some p →
    ∀ k < count * size % sizeMod, s'.heap.bytes (p + k) = 0
  copied : ∀ ptr size answer q, c = .realloc ptr size answer → result = some q →
    ∀ x ∈ s.live, x.1 = ptr →
      (∀ k < min x.2 size, s'.heap.bytes (q + k) = s.heap.bytes (ptr + k)) ∧
      SameGc (s.heap.header (ptr - headerSize)) (s'.heap.header (q - headerSize))

structure State.Good (s : State) : Prop where
  inv : Inv s.heap s.live none
  count : s.heap.mallocCount = 1 + s.live.length
  size : s.heap.mallocSize = s.heap.runtime.usable + mallocOverhead + s.heap.accounted s.live
  aborted : s.aborted = false

section

variable {s s' : State} {h : Heap} {live : List (Nat × Nat)} {made : Option Nat}
  {x : Nat × Nat} {n p size : Nat} {answer : Option Allocation} {result : Option Nat}

theorem Heap.Initial.good (h₀ : h.Initial) : State.Good ⟨h, [], false⟩ where
  inv := by
    obtain ⟨hregions, ⟨hlo, hhi, husable⟩, hzero, harenas, -, -⟩ := h₀
    have hsize : 8 ≤ h.runtime.size := by
      unfold headerSize at hzero
      omega
    refine ⟨⟨?_, ?_, ?_, hzero⟩, ?_, ?_, ?_, ?_, List.nodup_nil, ?_⟩
    · rw [hregions]
      exact List.pairwise_singleton _ _
    · intro r hr
      rw [hregions, List.mem_singleton] at hr
      subst hr
      exact ⟨hlo, hhi, hsize, husable⟩
    · rw [hregions]
      exact List.mem_singleton_self _
    · intro i a ha
      rw [(harenas i).1] at ha
      cases ha
    · intro i a ha
      rw [(harenas i).1] at ha
      cases ha
    · intro i
      rw [(harenas i).1, (harenas i).2]
      exact ⟨List.nodup_nil, List.nodup_nil, List.Subset.refl _⟩
    · intro x hx
      cases hx
    · intro r hr
      rw [hregions, List.mem_singleton] at hr
      exact .inl hr
  count := h₀.count
  size := by
    obtain ⟨hlo, hhi, husable⟩ := h₀.bounds
    rw [h₀.size, add64, Nat.mod_eq_of_lt]
    · rfl
    · unfold mallocOverhead
      omega
  aborted := rfl

theorem Heap.accounted_cons : h.accounted (x :: live) =
    h.arenaUsableSize x.1 + mallocOverhead + h.accounted live := by
  simp [Heap.accounted]

theorem Heap.accounted_counters (count total : Nat) :
    ({ h with mallocCount := count, mallocSize := total } : Heap).accounted live =
      h.accounted live :=
  rfl

theorem perm_without (hnodup : (pointers live).Nodup) (hx : x ∈ live) :
    List.Perm live (x :: without live x.1) := by
  have hlive : live.Nodup := List.Nodup.of_map _ hnodup
  rw [List.perm_ext_iff_of_nodup hlive]
  · intro y
    rw [List.mem_cons, mem_without]
    constructor
    · intro hy
      by_cases hp : y.1 = x.1
      · exact .inl (List.inj_on_of_nodup_map hnodup hy hx hp)
      · exact .inr ⟨hy, hp⟩
    · rintro (rfl | ⟨hy, -⟩)
      · exact hx
      · exact hy
  · refine List.nodup_cons.mpr ⟨fun hm => (mem_without.mp hm).2 rfl, hlive.filter _⟩

theorem Heap.accounted_without (hnodup : (pointers live).Nodup) (hx : x ∈ live) :
    h.accounted live = h.arenaUsableSize x.1 + mallocOverhead + h.accounted (without live x.1) := by
  have hperm := (perm_without hnodup hx).map fun y => h.arenaUsableSize y.1 + mallocOverhead
  have hsum := hperm.sum_eq
  rw [← Heap.accounted_cons]
  exact hsum

theorem length_without (hnodup : (pointers live).Nodup) (hx : x ∈ live) :
    live.length = (without live x.1).length + 1 := by
  rw [(perm_without hnodup hx).length_eq, List.length_cons]

theorem Inv.length_lt (hi : Inv h live made) : 1 + live.length < sizeMod := by
  have hlt := hi.accounted_lt
  have hle : live.length ≤ h.accounted live := by
    clear hlt hi
    induction live with
    | nil => exact Nat.zero_le _
    | cons x live ih =>
      rw [Heap.accounted_cons, List.length_cons]
      unfold mallocOverhead
      omega
  unfold mallocOverhead at hlt
  omega

theorem account_good (hg : s.Good) (hspec : Allocates s.heap s.live n h (some p)) :
    State.Good ⟨h.account p, (p, n) :: s.live, s.aborted⟩ := by
  obtain ⟨hinv, hkeeps⟩ := hspec
  have hlt := hinv.accounted_lt
  have hlen := hinv.length_lt
  have hacc := hkeeps.accounted hg.inv hinv.regions fun _ hx => hx
  rw [Heap.accounted_cons, hacc] at hlt
  rw [List.length_cons] at hlen
  refine ⟨hinv.neutral rfl rfl rfl rfl rfl rfl fun _ => ⟨rfl, rfl⟩, ?_, ?_, hg.aborted⟩
  · have hcount : (h.account p).mallocCount = add64 h.mallocCount 1 := rfl
    rw [hcount, hkeeps.count, hg.count, List.length_cons, add64, Nat.mod_eq_of_lt (by omega)]
    omega
  · have hsize : (h.account p).mallocSize =
        add64 h.mallocSize (add64 (h.arenaUsableSize p) mallocOverhead) := rfl
    have hruntime : (h.account p).runtime = h.runtime := rfl
    have hsame : (h.account p).accounted ((p, n) :: s.live) = h.accounted ((p, n) :: s.live) := rfl
    simp only at hlt
    rw [hsize, hkeeps.size, hg.size, hruntime, hsame, Heap.accounted_cons, hacc, hkeeps.runtime]
    rw [hkeeps.runtime] at hlt
    have hadd : add64 (h.arenaUsableSize p) mallocOverhead =
        h.arenaUsableSize p + mallocOverhead := Nat.mod_eq_of_lt (by omega)
    rw [hadd, add64, Nat.mod_eq_of_lt (by omega)]
    simp only
    omega

theorem Keeps.others {c : Call} (hk : Keeps s.heap s'.heap s.live) (hsub : s.live ⊆ s'.live) :
    ∀ x ∈ s.live, x.1 ≠ c.target → x ∈ s'.live ∧
      (∀ k < x.2, s'.heap.bytes (x.1 + k) = s.heap.bytes (x.1 + k)) ∧
      s'.heap.header (x.1 - headerSize) = s.heap.header (x.1 - headerSize) :=
  fun x hx _ => ⟨hsub hx, hk.bytes x hx, hk.header x hx⟩

theorem mallocRt_cases {out : Heap × Option Nat} (hsized : s.heap.overLimit
      (add64 s.heap.mallocSize size) = true ∨ Fits size) (hg : s.Good)
    (he : s.heap.mallocRt size answer = some out) :
    out = (s.heap, none) ∨
      ∃ h p, Allocates s.heap s.live size h (some p) ∧ out = (h.account p, some p) := by
  unfold Heap.mallocRt at he
  split at he
  · cases he
    exact .inl rfl
  · rename_i hpos
    split at he
    · cases he
      exact .inl rfl
    · rename_i hlimit
      have hfit : Fits size := hsized.resolve_left hlimit
      cases hm : s.heap.arenaMalloc size answer with
      | none => simp [hm] at he
      | some result =>
        obtain ⟨h, got⟩ := result
        have hspec := arenaMalloc_spec hg.inv hpos hfit hm
        cases got with
        | none =>
          simp only [hm, Option.some.injEq] at he
          have hsame : h = s.heap := hspec
          rw [← he, hsame]
          exact .inl rfl
        | some p =>
          simp only [hm, Option.some.injEq] at he
          exact .inr ⟨h, p, hspec, he.symm⟩

theorem malloc_step (hg : s.Good) {c : Call} (hsized : s.heap.overLimit
      (add64 s.heap.mallocSize size) = true ∨ Fits size)
    (hcalloc : ∀ count size answer, c ≠ .calloc count size answer)
    (hrealloc : ∀ ptr size answer, c = .realloc ptr size answer → ptr = 0)
    (he : (s.heap.mallocRt size answer).map (s.allocated size) = some (s', result)) :
    s'.Good ∧ s.Honest s' c result := by
  obtain ⟨out, hout, hres⟩ := Option.map_eq_some_iff.mp he
  have hcopied : ∀ ptr size answer q, c = .realloc ptr size answer → result = some q →
      ∀ x ∈ s.live, x.1 = ptr →
        (∀ k < min x.2 size, s'.heap.bytes (q + k) = s.heap.bytes (ptr + k)) ∧
        SameGc (s.heap.header (ptr - headerSize)) (s'.heap.header (q - headerSize)) := by
    intro ptr size answer q hc _ x hx hp
    obtain ⟨b, hb, -⟩ := hg.inv.pointer_in (List.mem_map_of_mem hx)
    have hzero := hrealloc ptr size answer hc
    unfold headerSize at hb
    omega
  rcases mallocRt_cases hsized hg hout with rfl | ⟨h, p, hspec, rfl⟩
  · cases hres
    exact ⟨hg, (Keeps.refl _ _).others fun _ hx => hx,
      fun count size answer p hc => absurd hc (hcalloc count size answer), hcopied⟩
  · cases hres
    refine ⟨account_good hg hspec, ?_,
      fun count size answer p hc => absurd hc (hcalloc count size answer), hcopied⟩
    exact fun x hx _ => ⟨List.mem_cons_of_mem _ hx, hspec.2.bytes x hx, hspec.2.header x hx⟩

theorem calloc_step (hg : s.Good) {count : Nat}
    (hsized : s.Sized (.calloc count size answer))
    (he : (s.heap.callocRt count size answer).map (s.allocated (count * size % sizeMod)) =
      some (s', result)) : s'.Good ∧ s.Honest s' (.calloc count size answer) result := by
  obtain ⟨out, hout, hres⟩ := Option.map_eq_some_iff.mp he
  have hnone : out = (s.heap, none) → s'.Good ∧ s.Honest s' (.calloc count size answer) result := by
    rintro rfl
    cases hres
    refine ⟨hg, (Keeps.refl _ _).others fun _ hx => hx, ?_, ?_⟩
    · intro _ _ _ _ _ hp
      cases hp
    · intro _ _ _ _ hc
      cases hc
  unfold Heap.callocRt at hout
  simp only at hout
  split at hout
  · cases hout
  · rename_i hzero
    split at hout
    · cases hout
      exact hnone rfl
    · rename_i hover
      split at hout
      · cases hout
        exact hnone rfl
      · rename_i hlimit
        have hfit : Fits (count * size % sizeMod) :=
          (hsized.resolve_left fun hne => hover hne).resolve_left hlimit
        have hpos : count * size % sizeMod ≠ 0 := by
          intro hn
          rw [hn, Nat.zero_div] at hover
          omega
        cases hm : s.heap.arenaCalloc (count * size % sizeMod) answer with
        | none => simp [hm] at hout
        | some made =>
          obtain ⟨h, got⟩ := made
          obtain ⟨hspec, hbytes⟩ := arenaCalloc_spec hg.inv hpos hfit hm
          cases got with
          | none =>
            simp only [hm, Option.some.injEq] at hout
            have hsame : h = s.heap := hspec
            exact hnone (by rw [← hout, hsame])
          | some p =>
            simp only [hm, Option.some.injEq] at hout
            subst hout
            cases hres
            refine ⟨account_good hg hspec, ?_, ?_, ?_⟩
            · exact fun x hx _ => ⟨List.mem_cons_of_mem _ hx, hspec.2.bytes x hx, hspec.2.header x hx⟩
            · intro count' size' answer' p' hc hp
              cases hc
              cases hp
              exact hbytes p rfl
            · intro _ _ _ _ hc
              cases hc

theorem freed_good (hg : s.Good) (hx : x ∈ s.live) : (s.freed x.1).Good ∧
    Keeps { s.heap with
        mallocCount := sub64 s.heap.mallocCount 1
        mallocSize := sub64 s.heap.mallocSize (s.heap.arenaUsableSize x.1 + mallocOverhead) }
      (s.freed x.1).heap (without s.live x.1) ∧ (s.freed x.1).live = without s.live x.1 := by
  have hne : ¬ x.1 = 0 := by
    obtain ⟨b, hb, -⟩ := hg.inv.pointer_in (List.mem_map_of_mem hx)
    unfold headerSize at hb
    omega
  have hlt := hg.inv.accounted_lt
  have hacc := @Heap.accounted_without s.heap s.live x hg.inv.nodup hx
  have hlen := length_without hg.inv.nodup hx
  have hlenlt := hg.inv.length_lt
  have hsize := hg.size
  have hcount := hg.count
  have hadd : add64 (s.heap.arenaUsableSize x.1) mallocOverhead =
      s.heap.arenaUsableSize x.1 + mallocOverhead := Nat.mod_eq_of_lt (by omega)
  have hcover : ¬ s.heap.mallocSize < s.heap.arenaUsableSize x.1 + mallocOverhead := by omega
  have hfreed : s.freed x.1 =
      ⟨({ s.heap with
          mallocCount := sub64 s.heap.mallocCount 1
          mallocSize := sub64 s.heap.mallocSize (s.heap.arenaUsableSize x.1 + mallocOverhead) } :
          Heap).arenaFree x.1, without s.live x.1, s.aborted⟩ := by
    simp [State.freed, Heap.freeRt, hne, hadd, hcover]
  generalize hbase : ({ s.heap with
    mallocCount := sub64 s.heap.mallocCount 1
    mallocSize := sub64 s.heap.mallocSize (s.heap.arenaUsableSize x.1 + mallocOverhead) } :
      Heap) = base at hfreed ⊢
  have hbinv : Inv base s.live none := by
    subst hbase
    exact hg.inv.neutral rfl rfl rfl rfl rfl rfl fun _ => ⟨rfl, rfl⟩
  obtain ⟨hinv, hkeeps⟩ := arenaFree_spec hbinv hx
  have hrest := hkeeps.accounted hbinv hinv.regions fun y hy => (mem_without.mp hy).1
  have hbrest : base.accounted (without s.live x.1) = s.heap.accounted (without s.live x.1) := by
    subst hbase
    exact Heap.accounted_counters _ _
  have hbcount : base.mallocCount = sub64 s.heap.mallocCount 1 := by
    subst hbase
    simp only
  have hbsize : base.mallocSize =
      sub64 s.heap.mallocSize (s.heap.arenaUsableSize x.1 + mallocOverhead) := by
    subst hbase
    simp only
  have hbrun : base.runtime = s.heap.runtime := by
    subst hbase
    simp only
  rw [hfreed]
  refine ⟨⟨hinv, ?_, ?_, hg.aborted⟩, hkeeps, rfl⟩
  · rw [hkeeps.count, hbcount, sub64_of_le (by omega) (by omega)]
    simp only
    omega
  · rw [hkeeps.size, hbsize, hkeeps.runtime, hbrun, hrest, hbrest, sub64_of_le (by omega) (by omega)]
    omega

theorem freed_honest (hg : s.Good) (hx : x ∈ s.live) {c : Call} (hc : c.target = x.1) :
    s.Honest (s.freed x.1) c none := by
  obtain ⟨-, hkeeps, hlive⟩ := freed_good hg hx
  refine ⟨fun y hy hne => ?_, fun _ _ _ _ _ hp => ?_, fun _ _ _ _ _ hq => ?_⟩
  · rw [hc] at hne
    have hrest : y ∈ without s.live x.1 := mem_without.mpr ⟨hy, hne⟩
    rw [hlive]
    exact ⟨hrest, hkeeps.bytes y hrest, hkeeps.header y hrest⟩
  · cases hp
  · cases hq

theorem resized_good {q : Nat} (hg : s.Good) (hx : x ∈ s.live)
    (hinv : Inv h ((q, size) :: without s.live x.1) none)
    (hkeeps : Keeps s.heap h (without s.live x.1))
    (hn : n = add64 h.mallocSize (sub64 (h.arenaUsableSize q) (s.heap.arenaUsableSize x.1))) :
    State.Good ⟨{ h with mallocSize := n }, (q, size) :: without s.live x.1, s.aborted⟩ := by
  have hlt := hinv.accounted_lt
  have hlt' := hg.inv.accounted_lt
  have hrest := hkeeps.accounted hg.inv hinv.regions fun y hy => (mem_without.mp hy).1
  have hacc := @Heap.accounted_without s.heap s.live x hg.inv.nodup hx
  have hlen := length_without hg.inv.nodup hx
  have hsize := hg.size
  have hrun := hkeeps.runtime
  have hsame : ({ h with mallocSize := n } : Heap).accounted ((q, size) :: without s.live x.1) =
      h.accounted ((q, size) :: without s.live x.1) := Heap.accounted_counters _ _
  rw [Heap.accounted_cons, hrest, hrun] at hlt
  rw [hkeeps.size, add64_sub64 (by omega) (by omega) (by simp only at hlt; omega)] at hn
  refine ⟨hinv.neutral rfl rfl rfl rfl rfl rfl fun _ => ⟨rfl, rfl⟩, ?_, ?_, hg.aborted⟩
  · rw [List.length_cons, ← hlen, ← hg.count]
    exact hkeeps.count
  · rw [hsame, Heap.accounted_cons, hrest]
    simp only
    rw [hrun]
    omega

theorem realloc_step (hg : s.Good) (hx : x ∈ s.live) (hpos : size ≠ 0)
    (hsized : s.Sized (.realloc x.1 size answer))
    (he : (s.heap.reallocBlockRt x.1 size answer).map (s.reallocated x.1 size) =
      some (s', result)) : s'.Good ∧ s.Honest s' (.realloc x.1 size answer) result := by
  have hne : ¬ x.1 = 0 := by
    obtain ⟨b, hb, -⟩ := hg.inv.pointer_in (List.mem_map_of_mem hx)
    unfold headerSize at hb
    omega
  rw [State.Sized, if_neg hne] at hsized
  obtain ⟨out, hout, hres⟩ := Option.map_eq_some_iff.mp he
  have hnone : out = (s.heap, none) → s'.Good ∧ s.Honest s' (.realloc x.1 size answer) result := by
    rintro rfl
    cases hres
    refine ⟨hg, (Keeps.refl _ _).others fun _ hx => hx, ?_, ?_⟩
    · intro _ _ _ _ hc
      cases hc
    · intro _ _ _ _ _ hq
      cases hq
  unfold Heap.reallocBlockRt at hout
  simp only at hout
  split at hout
  · cases hout
    exact hnone rfl
  · rename_i hlimit
    have hroom := hsized.resolve_left hlimit
    cases hm : s.heap.arenaRealloc x.1 size answer with
    | none => simp [hm] at hout
    | some made =>
      obtain ⟨h, got⟩ := made
      have hspec := arenaRealloc_spec hg.inv hx hpos hroom hm
      cases got with
      | none =>
        simp only [hm, Option.some.injEq] at hout
        have hsame : h = s.heap := hspec
        exact hnone (by rw [← hout, hsame])
      | some q =>
        obtain ⟨hinv, hkeeps, hbytes, hgc⟩ := hspec
        simp only [hm, Option.some.injEq] at hout
        subst hout
        cases hres
        refine ⟨resized_good hg hx hinv hkeeps rfl, ?_, ?_, ?_⟩
        · intro y hy hyx
          have hym : y ∈ without s.live x.1 := mem_without.mpr ⟨hy, hyx⟩
          exact ⟨List.mem_cons_of_mem _ hym, hkeeps.bytes y hym, hkeeps.header y hym⟩
        · intro _ _ _ _ hc
          cases hc
        · intro ptr size' answer' q' hc hq y hy hp
          cases hc
          cases hq
          have hyx : y = x := List.inj_on_of_nodup_map hg.inv.nodup hy hx hp
          subst hyx
          exact ⟨hbytes, hgc⟩

theorem Heap.setHeader_same {b : Nat} {f : BlockHeader → BlockHeader}
    (hf : ∀ hd, (f hd).u = hd.u ∧ (f hd).blockSizeIdx = hd.blockSizeIdx) (b' : Nat) :
    ((h.setHeader b f).header b').u = (h.header b').u ∧
      ((h.setHeader b f).header b').blockSizeIdx = (h.header b').blockSizeIdx := by
  rcases eq_or_ne b' b with rfl | hne
  · simpa [Heap.setHeader] using hf (h.header b')
  · simp [Heap.setHeader, Function.update_of_ne hne]

theorem Heap.accounted_setHeader {b : Nat} {f : BlockHeader → BlockHeader}
    (hf : ∀ hd, (f hd).u = hd.u ∧ (f hd).blockSizeIdx = hd.blockSizeIdx) :
    (h.setHeader b f).accounted live = h.accounted live := by
  have husable : ∀ p, (h.setHeader b f).arenaUsableSize p = h.arenaUsableSize p := by
    intro p
    unfold Heap.arenaUsableSize
    simp only [(Heap.setHeader_same hf _).1, (Heap.setHeader_same hf _).2]
    rfl
  unfold Heap.accounted
  simp only [husable]

theorem store_step (hg : s.Good) {offset : Nat} {value : UInt8} (hx : x ∈ s.live)
    (hoffset : offset < x.2) :
    State.Good { s with heap := s.heap.fill (x.1 + offset) 1 fun _ => value } ∧
    s.Honest { s with heap := s.heap.fill (x.1 + offset) 1 fun _ => value }
      (.store x.1 offset value) none := by
  refine ⟨⟨hg.inv.neutral rfl rfl rfl rfl rfl rfl fun _ => ⟨rfl, rfl⟩, hg.count, hg.size,
    hg.aborted⟩, fun y hy hne => ⟨hy, ?_, rfl⟩, ?_, ?_⟩
  · intro k hk
    obtain ⟨a, len, hs⟩ := hg.inv.slot hx
    obtain ⟨a', len', hs'⟩ := hg.inv.slot hy
    have hapart := hs.apart hs' hg.inv (Ne.symm hne)
    have hp := hs.pointer
    have hp' := hs'.pointer
    have hsize := hs.size_le
    have hsize' := hs'.size_le
    have hout : ¬ (x.1 + offset ≤ y.1 + k ∧ y.1 + k < x.1 + offset + 1) := by omega
    simp only [Heap.fill, if_neg hout]
  · intro _ _ _ _ hc
    cases hc
  · intro _ _ _ _ hc
    cases hc

theorem setGc_step (hg : s.Good) {ptr gcObjType : Nat} {mark : Bool} {refCount : Int}
    (hp : ptr ∈ pointers s.live) {f : BlockHeader → BlockHeader}
    (hf : ∀ hd, (f hd).u = hd.u ∧ (f hd).blockSizeIdx = hd.blockSizeIdx) :
    State.Good { s with heap := s.heap.setHeader (ptr - headerSize) f } ∧
    s.Honest { s with heap := s.heap.setHeader (ptr - headerSize) f }
      (.setGc ptr gcObjType mark refCount) none := by
  refine ⟨⟨hg.inv.neutral rfl rfl rfl rfl rfl rfl (Heap.setHeader_same hf), hg.count, ?_,
    hg.aborted⟩,
    fun y hy hne => ⟨hy, fun _ _ => rfl, ?_⟩, ?_, ?_⟩
  · simp only
    rw [Heap.accounted_setHeader hf]
    exact hg.size
  · obtain ⟨x, hx, rfl⟩ := List.mem_map.mp hp
    obtain ⟨a, len, hs⟩ := hg.inv.slot hx
    obtain ⟨a', len', hs'⟩ := hg.inv.slot hy
    have hp := hs.pointer
    have hp' := hs'.pointer
    have hother : y.1 - headerSize ≠ x.1 - headerSize := by
      have hne' : y.1 ≠ x.1 := hne
      omega
    simp [Heap.setHeader, Function.update_of_ne hother]
  · intro _ _ _ _ hc
    cases hc
  · intro _ _ _ _ hc
    cases hc

theorem idle_step (hg : s.Good) {c : Call} : s.Good ∧ s.Honest s c none := by
  refine ⟨hg, (Keeps.refl _ _).others fun _ hx => hx, fun _ _ _ _ _ hp => ?_,
    fun _ _ _ _ _ hq => ?_⟩
  · cases hp
  · cases hq

theorem step_good {c : Call} (hg : s.Good) (hsized : s.Sized c)
    (he : s.step c = some (s', result)) : s'.Good ∧ s.Honest s' c result := by
  unfold State.step at he
  rw [if_neg (by simp [hg.aborted])] at he
  cases c with
  | malloc size answer =>
    refine malloc_step hg hsized (fun _ _ _ hc => ?_) (fun _ _ _ hc => ?_) he
    · cases hc
    · cases hc
  | calloc count size answer => exact calloc_step hg hsized he
  | realloc ptr size answer =>
    simp only at he
    split at he
    · rename_i hzero
      rw [State.Sized, if_pos hzero] at hsized
      refine malloc_step hg hsized (fun _ _ _ hc => ?_) (fun _ _ _ hc => ?_) he
      · cases hc
      · cases hc
        exact hzero
    · split at he
      · cases he
      · rename_i hlive
        obtain ⟨x, hx, rfl⟩ := List.mem_map.mp (not_not.mp hlive)
        split at he
        · cases he
          exact ⟨(freed_good hg hx).1, freed_honest hg hx rfl⟩
        · rename_i hpos
          exact realloc_step hg hx hpos hsized he
  | free ptr =>
    simp only at he
    split at he
    · cases he
      exact idle_step hg
    · split at he
      · cases he
      · rename_i hlive
        obtain ⟨x, hx, rfl⟩ := List.mem_map.mp (not_not.mp hlive)
        cases he
        exact ⟨(freed_good hg hx).1, freed_honest hg hx rfl⟩
  | store ptr offset value =>
    simp only at he
    split at he
    · rename_i hany
      obtain ⟨x, hx, hin⟩ := List.any_eq_true.mp hany
      simp only [Bool.and_eq_true, decide_eq_true_eq] at hin
      obtain ⟨rfl, hoffset⟩ := hin
      cases he
      exact store_step hg hx hoffset
    · cases he
  | setGc ptr gcObjType mark refCount =>
    simp only at he
    split at he
    · cases he
    · rename_i hlive
      cases he
      exact setGc_step hg (not_not.mp hlive) fun _ => ⟨rfl, rfl⟩
  | setLimit limit =>
    cases he
    refine ⟨⟨hg.inv.neutral rfl rfl rfl rfl rfl rfl fun _ => ⟨rfl, rfl⟩, hg.count, hg.size,
      hg.aborted⟩, fun _ hx _ => ⟨hx, fun _ _ => rfl, rfl⟩, ?_, ?_⟩
    · intro _ _ _ _ hc
      cases hc
    · intro _ _ _ _ hc
      cases hc

theorem State.Good.correct (hg : s.Good) : s.Correct where
  apart := by
    have hpw : s.live.Pairwise fun x y => x.1 ≠ y.1 := by
      have hnodup := hg.inv.nodup
      rwa [pointers, List.Nodup, List.pairwise_map] at hnodup
    refine hpw.imp_of_mem fun {x y} hx hy hne => ?_
    obtain ⟨a, len, hs⟩ := hg.inv.slot hx
    obtain ⟨a', len', hs'⟩ := hg.inv.slot hy
    have hapart := hs.apart hs' hg.inv hne
    have hp := hs.pointer
    have hp' := hs'.pointer
    have hsize := hs.size_le
    have hsize' := hs'.size_le
    have huse := (hs.usable hg.inv hx).1
    have huse' := (hs'.usable hg.inv hy).1
    omega
  sized := by
    intro x hx
    obtain ⟨a, len, hs⟩ := hg.inv.slot hx
    obtain ⟨r, hr, hrun, hlo, hhi⟩ := hs.region hg.inv
    have hp := hs.pointer
    have hsize := hs.size_le
    have huse := (hs.usable hg.inv hx).1
    exact ⟨r, hr, hrun, by omega, by omega⟩
  arenas := by
    intro i a ha
    obtain ⟨free, hok, hused⟩ := hg.inv.arenas i a ha
    obtain ⟨-, r, hr, hra, -⟩ := hg.inv.classes i a ha
    refine ⟨free, hok.slots.chain, hok.slots.nodup, ?_, ?_, hused (by simp), hok.listed, r, hr, hra⟩
    · intro k
      constructor
      · intro hk
        have hlt := hok.slots.bound k hk
        exact ⟨hlt, fun hlive => (hok.live k hlt).mpr hlive hk⟩
      · rintro ⟨hlt, hdead⟩
        by_contra hk
        exact hdead ((hok.live k hlt).mp hk)
    · have hcount := hok.slots.used_count
      have hused := hok.used
      have hfilter : ((List.range (blocksPerArena i)).filter fun k =>
          decide (Heap.blockAddr a i k + headerSize ∈ pointers s.live)) =
          (List.range (blocksPerArena i)).filter fun k => !decide (k ∈ free) := by
        apply List.filter_congr
        intro k hk
        rw [← decide_not]
        exact decide_eq_decide.mpr (hok.live k (List.mem_range.mp hk)).symm
      rw [hfilter]
      omega
  lists := hg.inv.lists
  released := hg.inv.owned
  count := hg.count
  size := hg.size
  aborted := hg.aborted

theorem Heap.Initial.run_good (h₀ : h.Initial)
    (hr : Reach State.next State.Sized ⟨h, [], false⟩ s) : s.Good := by
  refine hr.invariant h₀.good fun s c t hg hsized hs => ?_
  obtain ⟨⟨t', result⟩, hstep, rfl⟩ := Option.map_eq_some_iff.mp hs
  exact (step_good hg hsized hstep).1

/-- As long as no accepted request overflows, the blocks, the arenas and the accounts are as they
should be, nothing is aborted, and every call leaves in the blocks what it should. -/
theorem allocator_runs_correct (h₀ : h.Initial)
    (hr : Reach State.next State.Sized ⟨h, [], false⟩ s) :
    s.Correct ∧ ∀ c s' result, s.Sized c → s.step c = some (s', result) → s.Honest s' c result :=
  ⟨(h₀.run_good hr).correct, fun _ _ _ hsized hs => (step_good (h₀.run_good hr) hsized hs).2⟩

end

def newHeap : Heap where
  mallocCount := 1
  mallocSize := 2008
  mallocLimit := 0
  arenaList := fun _ => []
  freeArenaList := fun _ => []
  zeroSizeBlock := 1000
  runtime := ⟨512, 2000, 2000⟩
  header := fun _ => ⟨0, 0, 0, false, 0⟩
  arena := fun _ => ⟨0, 0, 0, 0⟩
  bytes := fun _ => 0
  regions := [⟨512, 2000, 2000⟩]

theorem newHeap_initial : newHeap.Initial where
  regions := rfl
  bounds := by
    refine ⟨?_, ?_, ?_⟩ <;> decide
  zero := by
    refine ⟨?_, ?_⟩ <;> decide
  arenas := fun _ => ⟨rfl, rfl⟩
  count := rfl
  size := by
    change 2008 = add64 2000 mallocOverhead
    decide

def answered (addr size : Nat) : Option Allocation := some ⟨⟨addr, size, size⟩, fun _ => 7⟩

/-- Two blocks of an arena and a large one; the first is written to and moved to another arena, the
large one is moved, the second one is freed with its arena, and a request over the limit is
refused. -/
def mixedCalls : List Call :=
  [.setLimit 100000, .malloc 24 (answered 4096 4096), .calloc 5 4 none, .store 4144 3 9,
    .setGc 4144 1 true 2, .realloc 4144 300 (answered 8192 4096),
    .malloc 4000 (answered 16384 8192), .realloc 16392 6000 (answered 32768 8192), .free 4176,
    .malloc 200000 none, .free 0]

theorem allocator_runs_correct_mixed : ∃ s : State, s.live = [(32776, 6000), (8240, 300)] ∧
    s.Correct := by
  have hrun : (mixedCalls.foldlM (fun s c => if State.Sized s c then s.next c else none)
      ⟨newHeap, [], false⟩).map State.live = some [(32776, 6000), (8240, 300)] := by
    decide +kernel
  obtain ⟨s, hs, hlive⟩ := Option.map_eq_some_iff.mp hrun
  exact ⟨s, hlive, (allocator_runs_correct newHeap_initial (Reach.of_guarded hs)).1⟩

/-- A request for as much as there is gives a block of 8 bytes. -/
theorem overflowing_request_is_served : ∃ s : State,
    Reach State.next (fun _ _ => True) ⟨newHeap, [], false⟩ s ∧
    ¬ s.Correct := by
  have hrun : ([Call.malloc (2 ^ 64 - 1) (answered 4096 4096)].foldlM State.next
      ⟨newHeap, [], false⟩).map (fun s => (s.live, s.heap.regions)) =
      some ([(4144, 2 ^ 64 - 1)], [⟨4096, 4096, 4096⟩, ⟨512, 2000, 2000⟩]) := by decide +kernel
  obtain ⟨s, hs, heq⟩ := Option.map_eq_some_iff.mp hrun
  obtain ⟨hlive, hregions⟩ := Prod.mk.inj heq
  refine ⟨s, Reach.of_foldlM hs, fun hc => ?_⟩
  obtain ⟨r, hr, -, -, hhi⟩ := hc.sized (4144, 2 ^ 64 - 1) (by simp [hlive])
  rw [hregions] at hr
  simp only [List.mem_cons, List.not_mem_nil, or_false] at hr
  rcases hr with rfl | rfl
  · simp only at hhi
    omega
  · simp only at hhi
    omega

end TurboJS.Memory
