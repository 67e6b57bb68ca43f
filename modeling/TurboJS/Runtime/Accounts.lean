import TurboJS.Runtime.BoundedMap
import TurboJS.Foundation.Run

namespace TurboJS.Runtime
open IR Foundation

/-! The accounts of the code cache: the counters of its continuations, and the native functions
that it has destroyed. -/

/-- The cache with `stats.continuation_entry_count` and `stats.continuation_code_bytes`, and the
functions given to `TurboJS_NativeFunctionDestroy` so far. -/
structure Ledger where
  cache : CodeCache
  continuationEntryCount : Nat := 0
  continuationCodeBytes : Nat := 0
  destroyed : List NativeFunction := []

def Ledger.reject (s : Ledger) (native : NativeFunction) : Ledger :=
  { s with destroyed := s.destroyed ++ [native] }

/-- `remove_slot`. Its checks keep the counters from going below zero. -/
def Ledger.removeSlot (s : Ledger) (slot : Nat) : Ledger :=
  let entry := s.cache.entries slot
  if entry.state ≠ .live then s
  else
    let continuation := entry.cacheKind = .continuation
    { cache := (s.cache.removeSlot slot).1
      continuationEntryCount :=
        if continuation then s.continuationEntryCount - 1 else s.continuationEntryCount
      continuationCodeBytes :=
        if continuation then s.continuationCodeBytes - entry.codeSize
        else s.continuationCodeBytes
      destroyed := s.destroyed ++ entry.function.toList }

def Ledger.evictLru (s : Ledger) : Option Ledger := s.cache.victim.map s.removeSlot

def Ledger.makeRoomFrom (codeSize : Nat) : Nat → Ledger → Ledger
  | 0, s => s
  | fuel + 1, s =>
    if s.cache.count ≠ 0 ∧ s.cache.full codeSize then
      match s.evictLru with
      | none => s
      | some s => Ledger.makeRoomFrom codeSize fuel s
    else s

def Ledger.makeRoom (s : Ledger) (codeSize : Nat) : Ledger :=
  Ledger.makeRoomFrom codeSize s.cache.count s

def CodeCache.fill (c : CodeCache) (slot : Nat) (entry : CacheEntry) : CodeCache :=
  { c.setEntry slot entry with
    clock := c.tick
    count := c.count + 1
    codeBytes := c.codeBytes + entry.codeSize }

def Ledger.insert (s : Ledger) (slot : Nat) (entry : CacheEntry) (registered : Bool) : Ledger :=
  let s := { s with cache := s.cache.fill slot entry }
  if registered then s else s.removeSlot slot

/-- What the two calls that store a function do once they have it: room is made, then a slot is
found and filled. The status is that of a failure. -/
def Ledger.place (s : Ledger) (native : NativeFunction) (findSlot : CodeCache → Option Nat)
    (entry : CodeCache → Nat → CacheEntry) (registered : Bool) : Ledger × Option Status :=
  if native.codeSize > s.cache.maximumCodeBytes then (s.reject native, some .unsupported)
  else
    let s := s.makeRoom native.codeSize
    if s.cache.full native.codeSize then (s.reject native, some .unsupported)
    else
      match findSlot s.cache with
      | none => (s.reject native, some .outOfMemory)
      | some slot =>
        (s.insert slot (entry s.cache slot) registered,
          if registered then none else some .outOfMemory)

def Ledger.compile (s : Ledger) (key : Word) (compiler : Compiler) (registered : Bool) :
    Ledger × Option Status :=
  if key = 0 then (s, some .invalidArgument)
  else
    match s.cache.findLive key with
    | some slot => ({ s with cache := s.cache.touchEntry slot }, none)
    | none =>
      match compiler.result with
      | .error status => (s, some status)
      | .ok native =>
        match s.place native (·.findSlot key true)
          (fun c slot => functionEntry c (c.entries slot) key native) registered with
        | (s, none) =>
          ({ s with cache := { s.cache with lastKey := key, lastFunction := some native } }, none)
        | failed => failed

/-- `TurboJS_CodeCacheStoreContinuation`. The counters advance last. -/
def Ledger.storeContinuation (s : Ledger) (k : Continuation) (prologueCount : Nat)
    (native : NativeFunction) (registered : Bool) : Ledger × Option Status :=
  if k.functionId = 0 then (s, some .invalidArgument)
  else
    match s.cache.findContinuation k with
    | some slot => ({ s.reject native with cache := s.cache.touchEntry slot }, none)
    | none =>
      match s.place native CodeCache.firstFree
        (fun c slot => continuationEntry c (c.entries slot) k prologueCount native) registered with
      | (s, none) =>
        ({ s with
            continuationEntryCount := s.continuationEntryCount + 1
            continuationCodeBytes := s.continuationCodeBytes + (native.codeSize) }, none)
      | failed => failed

def Ledger.invalidate (s : Ledger) (key : Word) : Ledger :=
  if key = 0 then s
  else
    match s.cache.findSlot key false with
    | some slot => s.removeSlot slot
    | none => s

def Ledger.clear (s : Ledger) : Ledger :=
  { forUp s.cache.slotCount (fun i s => s.removeSlot i) s with cache := s.cache.clear.1 }

def Ledger.perform (s : Ledger) : CacheOp → Ledger × Option Status
  | .compile key compiler registered => s.compile key compiler registered
  | .storeContinuation k prologueCount native registered =>
    s.storeContinuation k prologueCount native registered
  | .invalidate key => (s.invalidate key, none)
  | .clear => (s.clear, none)
  | op => ({ s with cache := (s.cache.perform op).1 }, none)

def CacheEntry.continuations (e : CacheEntry) : Nat :=
  if e.state = .live ∧ e.cacheKind = .continuation then 1 else 0

def CacheEntry.continuationBytes (e : CacheEntry) : Nat :=
  if e.state = .live ∧ e.cacheKind = .continuation then e.codeSize else 0

structure Ledger.Balanced (s : Ledger) : Prop where
  entries_eq : s.continuationEntryCount =
    ∑ i ∈ Finset.range s.cache.slotCount, (s.cache.entries i).continuations
  bytes_eq : s.continuationCodeBytes =
    ∑ i ∈ Finset.range s.cache.slotCount, (s.cache.entries i).continuationBytes

def Ledger.Evicts : Ledger → Ledger → Prop :=
  Relation.ReflTransGen fun s t => s.evictLru = some t

structure Ledger.Agrees (s t : Ledger) : Prop where
  live : ∀ i, (s.cache.entries i).state = .live ∨ (t.cache.entries i).state = .live →
    t.cache.entries i = s.cache.entries i
  count : t.cache.count = s.cache.count
  codeBytes : t.cache.codeBytes = s.cache.codeBytes
  continuationEntryCount : t.continuationEntryCount = s.continuationEntryCount
  continuationCodeBytes : t.continuationCodeBytes = s.continuationCodeBytes

def CacheOp.offered : CacheOp → Option NativeFunction
  | .compile key compiler _ => if key = 0 then none else compiler.result.toOption
  | .storeContinuation _ _ native _ => some native
  | _ => none

def Ledger.Undone (s s' : Ledger) (op : CacheOp) : Prop :=
  ∃ t, s.Evicts t ∧ t.Agrees s' ∧ s'.destroyed = t.destroyed ++ op.offered.toList

def Ledger.KeepsAccounts (s : Ledger) (op : CacheOp) : Prop :=
  s.Balanced ∧ (s.perform op).1.Balanced ∧
    ((s.perform op).2.isSome → s.Undone (s.perform op).1 op)

/-- The calls that go wrong: a continuation without a function id, and one whose registration
fails when some continuation has outlived the evictions. -/
def Ledger.Slips (s : Ledger) : CacheOp → Prop
  | .storeContinuation k _ native registered =>
    let c := (s.cache.makeRoom native.codeSize).1
    k.functionId = 0 ∨
      (registered = false ∧ s.cache.findContinuation k = none ∧
        native.codeSize ≤ s.cache.maximumCodeBytes ∧ c.firstFree ≠ none ∧
        ∃ i, i < c.slotCount ∧ (c.entries i).continuations ≠ 0)
  | _ => False

section

variable {s t : Ledger} {m : Word → Option NativeFunction}

@[simp] theorem Ledger.removeSlot_cache (s : Ledger) (slot : Nat) :
    (s.removeSlot slot).cache = (s.cache.removeSlot slot).1 := by
  unfold Ledger.removeSlot
  by_cases hlive : (s.cache.entries slot).state = .live
  · simp only [ne_eq, hlive, not_true_eq_false, if_false]
  · simp only [ne_eq, hlive, not_false_eq_true, if_true]
    exact (removeSlot_of_dead hlive).symm

@[simp] theorem Ledger.makeRoomFrom_cache (codeSize fuel : Nat) (s : Ledger) :
    (Ledger.makeRoomFrom codeSize fuel s).cache =
      (CodeCache.makeRoomFrom codeSize fuel s.cache).1 := by
  induction fuel generalizing s with
  | zero => rfl
  | succ fuel ih =>
    unfold Ledger.makeRoomFrom CodeCache.makeRoomFrom
    split
    · simp only [Ledger.evictLru, CodeCache.evictLru]
      cases s.cache.victim with
      | none => rfl
      | some slot => simp only [Option.map_some, ih, removeSlot_cache]
    · rfl

@[simp] theorem Ledger.makeRoom_cache (s : Ledger) (codeSize : Nat) :
    (s.makeRoom codeSize).cache = (s.cache.makeRoom codeSize).1 :=
  makeRoomFrom_cache ..

@[simp] theorem Ledger.insert_cache (s : Ledger) (slot : Nat) (entry : CacheEntry)
    (registered : Bool) :
    (s.insert slot entry registered).cache = (s.cache.insert slot entry registered).1 := by
  unfold Ledger.insert CodeCache.insert
  cases registered with
  | true => rfl
  | false => simp only [Bool.false_eq_true, if_false, removeSlot_cache]; rfl

theorem Ledger.compile_cache (s : Ledger) (key : Word) (compiler : Compiler) (registered : Bool) :
    (s.compile key compiler registered).1.cache = (s.cache.compile key compiler registered).1 := by
  unfold Ledger.compile CodeCache.compile
  split
  · rfl
  cases s.cache.findLive key with
  | some slot => rfl
  | none =>
    cases compiler.result with
    | error status => rfl
    | ok native =>
      simp only [Ledger.place]
      by_cases hbig : native.codeSize > s.cache.maximumCodeBytes
      · simp only [if_pos hbig]
        rfl
      simp only [if_neg hbig, makeRoom_cache]
      generalize hroom : s.cache.makeRoom native.codeSize = room
      obtain ⟨c, evicted⟩ := room
      have hc : (s.makeRoom native.codeSize).cache = c := by rw [makeRoom_cache, hroom]
      cases hfull : c.full native.codeSize with
      | true =>
        simp only [if_true]
        exact hc
      | false =>
        simp only [Bool.false_eq_true, if_false]
        cases c.findSlot key true with
        | none => exact hc
        | some slot =>
          cases registered with
          | true => simp only [if_true, insert_cache, hc]
          | false => simp only [Bool.false_eq_true, if_false, insert_cache, hc]

theorem Ledger.storeContinuation_cache (s : Ledger) (k : Continuation) (prologueCount : Nat)
    (native : NativeFunction) (registered : Bool) :
    (s.storeContinuation k prologueCount native registered).1.cache =
      (s.cache.storeContinuation k prologueCount native registered).1 := by
  unfold Ledger.storeContinuation CodeCache.storeContinuation
  split
  · rfl
  cases s.cache.findContinuation k with
  | some slot => rfl
  | none =>
    simp only [Ledger.place]
    by_cases hbig : native.codeSize > s.cache.maximumCodeBytes
    · simp only [if_pos hbig]
      rfl
    simp only [if_neg hbig, makeRoom_cache]
    generalize hroom : s.cache.makeRoom native.codeSize = room
    obtain ⟨c, evicted⟩ := room
    have hc : (s.makeRoom native.codeSize).cache = c := by rw [makeRoom_cache, hroom]
    cases hfull : c.full native.codeSize with
    | true =>
      simp only [if_true]
      exact hc
    | false =>
      simp only [Bool.false_eq_true, if_false]
      cases c.firstFree with
      | none => exact hc
      | some slot =>
        cases registered with
        | true => simp only [if_true, insert_cache, hc]
        | false => simp only [Bool.false_eq_true, if_false, insert_cache, hc]

theorem Ledger.perform_cache (s : Ledger) (op : CacheOp) :
    (s.perform op).1.cache = (s.cache.perform op).1 := by
  cases op with
  | compile key compiler registered => exact s.compile_cache key compiler registered
  | storeContinuation k prologueCount native registered =>
    exact s.storeContinuation_cache k prologueCount native registered
  | invalidate key =>
    simp only [Ledger.perform, Ledger.invalidate, CodeCache.perform, CodeCache.invalidate]
    split
    · rfl
    · cases s.cache.findSlot key false with
      | none => rfl
      | some slot => exact s.removeSlot_cache slot
  | lookup | lookupContinuation | attachEntryHandle | clear => rfl

theorem Ledger.Balanced.congr (hs : s.Balanced)
    (hslots : t.cache.slotCount = s.cache.slotCount)
    (hentries : ∀ i, (t.cache.entries i).continuations = (s.cache.entries i).continuations ∧
      (t.cache.entries i).continuationBytes = (s.cache.entries i).continuationBytes)
    (hcount : t.continuationEntryCount = s.continuationEntryCount)
    (hbytes : t.continuationCodeBytes = s.continuationCodeBytes) : t.Balanced := by
  constructor
  · rw [hcount, hs.entries_eq, hslots]
    exact Finset.sum_congr rfl fun i _ => (hentries i).1.symm
  · rw [hbytes, hs.bytes_eq, hslots]
    exact Finset.sum_congr rfl fun i _ => (hentries i).2.symm

theorem Ledger.Balanced.write {slot : Nat} {e : CacheEntry} (hs : s.Balanced)
    (hslot : slot < s.cache.slotCount) (hslots : t.cache.slotCount = s.cache.slotCount)
    (hentries : t.cache.entries = Function.update s.cache.entries slot e)
    (hcount : t.continuationEntryCount + (s.cache.entries slot).continuations =
      s.continuationEntryCount + e.continuations)
    (hbytes : t.continuationCodeBytes + (s.cache.entries slot).continuationBytes =
      s.continuationCodeBytes + e.continuationBytes) : t.Balanced := by
  have hsum := sum_range_update CacheEntry.continuations s.cache.entries hslot e
  have hsum' := sum_range_update CacheEntry.continuationBytes s.cache.entries hslot e
  have hold := hs.entries_eq
  have hold' := hs.bytes_eq
  constructor
  · rw [hslots, hentries]
    omega
  · rw [hslots, hentries]
    omega

theorem continuations_of_dead {e : CacheEntry} (h : e.state ≠ .live) :
    e.continuations = 0 ∧ e.continuationBytes = 0 := by
  simp [CacheEntry.continuations, CacheEntry.continuationBytes, h]

theorem Ledger.Balanced.part_le (hs : s.Balanced) {slot : Nat} (hslot : slot < s.cache.slotCount) :
    (s.cache.entries slot).continuations ≤ s.continuationEntryCount ∧
      (s.cache.entries slot).continuationBytes ≤ s.continuationCodeBytes := by
  have hmem := Finset.mem_range.mpr hslot
  constructor
  · rw [hs.entries_eq]
    exact Finset.single_le_sum (f := fun i => (s.cache.entries i).continuations)
      (fun _ _ => Nat.zero_le _) hmem
  · rw [hs.bytes_eq]
    exact Finset.single_le_sum (f := fun i => (s.cache.entries i).continuationBytes)
      (fun _ _ => Nat.zero_le _) hmem

theorem Ledger.removeSlot_counters {slot : Nat} (hlive : (s.cache.entries slot).state = .live) :
    (s.removeSlot slot).continuationEntryCount =
        s.continuationEntryCount - (s.cache.entries slot).continuations ∧
      (s.removeSlot slot).continuationCodeBytes =
        s.continuationCodeBytes - (s.cache.entries slot).continuationBytes ∧
      (s.removeSlot slot).destroyed =
        s.destroyed ++ (s.cache.entries slot).function.toList := by
  unfold Ledger.removeSlot
  by_cases hk : (s.cache.entries slot).cacheKind = .continuation
  · simp [hlive, hk, CacheEntry.continuations, CacheEntry.continuationBytes]
  · simp [hlive, hk, CacheEntry.continuations, CacheEntry.continuationBytes]

theorem Ledger.removeSlot_of_dead {slot : Nat} (h : (s.cache.entries slot).state ≠ .live) :
    s.removeSlot slot = s := by
  unfold Ledger.removeSlot
  simp only [if_pos h]

theorem Ledger.Balanced.removeSlot (hs : s.Balanced) {slot : Nat}
    (hslot : slot < s.cache.slotCount) : (s.removeSlot slot).Balanced := by
  by_cases hlive : (s.cache.entries slot).state = .live
  · obtain ⟨hcount, hbytes, -⟩ := Ledger.removeSlot_counters hlive
    obtain ⟨hle, hle'⟩ := hs.part_le hslot
    have hdead := continuations_of_dead (e := { state := .tombstone }) nofun
    refine hs.write hslot ?_ ?_ ?_ ?_ (e := { state := .tombstone })
    · rw [removeSlot_cache]
      exact (removeSlot_limits s.cache slot).1
    · rw [removeSlot_cache]
      exact removeSlot_entries hlive
    · rw [hcount, hdead.1]
      omega
    · rw [hbytes, hdead.2]
      omega
  · rw [Ledger.removeSlot_of_dead hlive]
    exact hs

theorem Ledger.Evicts.balanced (h : s.Evicts t) (hs : s.Balanced) : t.Balanced := by
  induction h with
  | refl => exact hs
  | tail _ hstep ih =>
    obtain ⟨slot, hslot, rfl⟩ := Option.map_eq_some_iff.mp hstep
    exact ih.removeSlot (victim_lt hslot)

theorem Ledger.Evicts.destroyed (h : s.Evicts t) : ∃ l, t.destroyed = s.destroyed ++ l := by
  induction h with
  | refl => exact ⟨[], (List.append_nil _).symm⟩
  | @tail u _ _ hstep ih =>
    obtain ⟨l, hl⟩ := ih
    obtain ⟨slot, -, rfl⟩ := Option.map_eq_some_iff.mp hstep
    by_cases hlive : (u.cache.entries slot).state = .live
    · refine ⟨l ++ (u.cache.entries slot).function.toList, ?_⟩
      rw [(Ledger.removeSlot_counters hlive).2.2, hl, List.append_assoc]
    · rw [Ledger.removeSlot_of_dead hlive]
      exact ⟨l, hl⟩

theorem Ledger.makeRoomFrom_evicts (codeSize fuel : Nat) (s : Ledger) :
    s.Evicts (Ledger.makeRoomFrom codeSize fuel s) := by
  induction fuel generalizing s with
  | zero => exact .refl
  | succ fuel ih =>
    unfold Ledger.makeRoomFrom
    split
    · cases he : s.evictLru with
      | none => exact .refl
      | some t => exact .head he (ih t)
    · exact .refl

theorem Ledger.makeRoom_evicts (s : Ledger) (codeSize : Nat) : s.Evicts (s.makeRoom codeSize) :=
  Ledger.makeRoomFrom_evicts codeSize s.cache.count s

theorem CodeCache.victim_spec (c : CodeCache) :
    match c.victim with
    | some slot => slot < c.slotCount ∧ (c.entries slot).state = .live
    | none => ∀ i, i < c.slotCount → (c.entries i).state ≠ .live := by
  refine forUp_induction (P := fun n (v : Victim) =>
    match v.slot with
    | some slot => slot < n ∧ (c.entries slot).state = .live
    | none => ∀ i, i < n → (c.entries i).state ≠ .live) ?_ ?_
  · intro i hi
    cases hi
  · intro n v _ hv
    by_cases hlive : (c.entries n).state = .live
    · have hnext : (c.considerVictim n v).slot = some n ∨
          v.slot ≠ none ∧ c.considerVictim n v = v := by
        unfold CodeCache.considerVictim
        simp only [ne_eq, hlive, not_true_eq_false, if_false]
        by_cases hnone : v.slot = none
        · exact .inl (by simp [hnone])
        · split
          · exact .inl rfl
          · exact .inr ⟨hnone, rfl⟩
      rcases hnext with hslot | ⟨hsome, hsame⟩
      · rw [hslot]
        exact ⟨Nat.lt_succ_self n, hlive⟩
      · obtain ⟨slot, hslot⟩ := Option.ne_none_iff_exists'.mp hsome
        rw [hsame, hslot]
        rw [hslot] at hv
        exact ⟨Nat.lt_succ_of_lt hv.1, hv.2⟩
    · have hsame : c.considerVictim n v = v := by
        unfold CodeCache.considerVictim
        simp only [if_pos hlive]
      rw [hsame]
      cases hslot : v.slot with
      | none =>
        rw [hslot] at hv
        intro i hi
        rcases Nat.lt_succ_iff_lt_or_eq.mp hi with hi | rfl
        · exact hv i hi
        · exact hlive
      | some slot =>
        rw [hslot] at hv
        exact ⟨Nat.lt_succ_of_lt hv.1, hv.2⟩

theorem removeSlot_count {c : CodeCache} {slot : Nat} (h : (c.entries slot).state = .live) :
    (c.removeSlot slot).1.count = c.count - 1 ∧
      (c.removeSlot slot).1.codeBytes = c.codeBytes - (c.entries slot).codeSize := by
  unfold CodeCache.removeSlot
  simp only [ne_eq, h, not_true_eq_false, if_false, and_self]

theorem CodeCache.Valid.count_of_dead {c : CodeCache} (hv : c.Valid m)
    (hdead : ∀ i, i < c.slotCount → (c.entries i).state ≠ .live) :
    c.count = 0 ∧ c.codeBytes = 0 := by
  rw [hv.count_eq, hv.bytes_eq]
  constructor
  · refine Finset.sum_eq_zero fun i hi => ?_
    simp [CacheEntry.weight, hdead i (Finset.mem_range.mp hi)]
  · refine Finset.sum_eq_zero fun i hi => ?_
    simp [CacheEntry.bytes, hdead i (Finset.mem_range.mp hi)]

theorem CodeCache.Valid.dead_of_count {c : CodeCache} (hv : c.Valid m) (h : c.count = 0) :
    ∀ i, i < c.slotCount → (c.entries i).state ≠ .live := by
  intro i hi hlive
  have hsum := hv.count_eq
  rw [h] at hsum
  have hzero := (Finset.sum_eq_zero_iff.mp hsum.symm) i (Finset.mem_range.mpr hi)
  simp [CacheEntry.weight, hlive] at hzero

theorem CodeCache.Valid.makeRoomFrom_ends {c : CodeCache} {fuel : Nat} (hv : c.Valid m)
    (codeSize : Nat) (hfuel : c.count ≤ fuel) :
    let c' := (CodeCache.makeRoomFrom codeSize fuel c).1
    c'.count = 0 ∨ c'.full codeSize = false := by
  induction fuel generalizing c m with
  | zero => exact .inl (Nat.le_zero.mp hfuel)
  | succ fuel ih =>
    unfold CodeCache.makeRoomFrom
    split
    · have hvictim := c.victim_spec
      unfold CodeCache.evictLru
      cases hslot : c.victim with
      | none =>
        rw [hslot] at hvictim
        exact .inl (hv.count_of_dead hvictim).1
      | some slot =>
        rw [hslot] at hvictim
        have hle : (c.removeSlot slot).1.count ≤ fuel := by
          rw [(removeSlot_count hvictim.2).1]
          omega
        exact ih (hv.removeSlot hvictim.1) hle
    · rename_i hdone
      rw [not_and_or, not_not, Bool.not_eq_true] at hdone
      exact hdone

theorem CodeCache.Valid.makeRoom_fits {c : CodeCache} {codeSize : Nat} (hv : c.Valid m)
    (hsize : codeSize ≤ c.maximumCodeBytes) (hentries : 0 < c.maximumEntries) :
    (c.makeRoom codeSize).1.full codeSize = false := by
  obtain ⟨hv', hlimits, -⟩ := hv.makeRoom codeSize
  rcases hv.makeRoomFrom_ends codeSize (Nat.le_refl _) with hempty | hfits
  · have hbytes := (hv'.count_of_dead (hv'.dead_of_count hempty)).2
    have hempty' : (c.makeRoom codeSize).1.count = 0 := hempty
    simp only [CodeCache.full, hempty', hbytes, hlimits.2, hlimits.3, ge_iff_le, gt_iff_lt,
      decide_eq_false_iff_not, not_or]
    omega
  · exact hfits

theorem fill_removeSlot (c : CodeCache) (slot : Nat) {e : CacheEntry} (hlive : e.state = .live) :
    let c' := ((c.fill slot e).removeSlot slot).1
    c'.entries = Function.update c.entries slot { state := .tombstone } ∧
      c'.count = c.count ∧ c'.codeBytes = c.codeBytes := by
  have he : (c.fill slot e).entries slot = e := Function.update_self ..
  have hstate : ((c.fill slot e).entries slot).state = .live := by
    rw [he]
    exact hlive
  refine ⟨?_, ?_, ?_⟩
  · rw [removeSlot_entries hstate]
    exact Function.update_idem ..
  · rw [(removeSlot_count hstate).1]
    exact Nat.add_sub_cancel ..
  · rw [(removeSlot_count hstate).2, he]
    exact Nat.add_sub_cancel ..

theorem Ledger.insert_failed {slot : Nat} {e : CacheEntry}
    (hfree : (s.cache.entries slot).state ≠ .live) (hlive : e.state = .live) :
    let s' := s.insert slot e false
    (∀ i, (s.cache.entries i).state = .live ∨ (s'.cache.entries i).state = .live →
        s'.cache.entries i = s.cache.entries i) ∧
      s'.cache.count = s.cache.count ∧ s'.cache.codeBytes = s.cache.codeBytes ∧
      s'.continuationEntryCount = s.continuationEntryCount - e.continuations ∧
      s'.continuationCodeBytes = s.continuationCodeBytes - e.continuationBytes ∧
      s'.destroyed = s.destroyed ++ e.function.toList := by
  have he : (s.cache.fill slot e).entries slot = e := Function.update_self ..
  have hstate : ((s.cache.fill slot e).entries slot).state = .live := by
    rw [he]
    exact hlive
  have hcounters := Ledger.removeSlot_counters (s := { s with cache := s.cache.fill slot e }) hstate
  simp only [he] at hcounters
  obtain ⟨hentries, hcount, hbytes⟩ := fill_removeSlot s.cache slot hlive
  simp only [Ledger.insert, Bool.false_eq_true, if_false, removeSlot_cache]
  refine ⟨?_, hcount, hbytes, hcounters⟩
  intro i hi
  rw [hentries] at hi ⊢
  by_cases hslot : i = slot
  · subst hslot
    rw [Function.update_self] at hi
    rcases hi with hi | hi
    · exact absurd hi hfree
    · cases hi
  · exact Function.update_of_ne hslot ..

theorem Ledger.place_cases (s : Ledger) (native : NativeFunction)
    (findSlot : CodeCache → Option Nat) (entry : CodeCache → Nat → CacheEntry)
    (registered : Bool) :
    (∃ t status, s.Evicts t ∧
        (native.codeSize ≤ s.cache.maximumCodeBytes →
          (s.cache.makeRoom native.codeSize).1.full native.codeSize = false →
          findSlot (s.cache.makeRoom native.codeSize).1 = none) ∧
        s.place native findSlot entry registered = (t.reject native, some status)) ∨
      ∃ slot, native.codeSize ≤ s.cache.maximumCodeBytes ∧
        (s.cache.makeRoom native.codeSize).1.full native.codeSize = false ∧
        findSlot (s.cache.makeRoom native.codeSize).1 = some slot ∧
        s.place native findSlot entry registered =
          ((s.makeRoom native.codeSize).insert slot
              (entry (s.cache.makeRoom native.codeSize).1 slot) registered,
            if registered then none else some .outOfMemory) := by
  have hevicts := s.makeRoom_evicts native.codeSize
  unfold Ledger.place
  by_cases hbig : native.codeSize > s.cache.maximumCodeBytes
  · refine .inl ⟨s, .unsupported, .refl, fun hle => absurd hle (by omega), ?_⟩
    rw [if_pos hbig]
  simp only [if_neg hbig, makeRoom_cache]
  cases hfull : (s.cache.makeRoom native.codeSize).1.full native.codeSize with
  | true => exact .inl ⟨_, .unsupported, hevicts, nofun, by rw [if_pos rfl]⟩
  | false =>
    simp only [Bool.false_eq_true, if_false]
    cases hslot : findSlot (s.cache.makeRoom native.codeSize).1 with
    | none => exact .inl ⟨_, .outOfMemory, hevicts, fun _ _ => rfl, rfl⟩
    | some slot => exact .inr ⟨slot, Nat.le_of_not_lt hbig, trivial, rfl, rfl⟩

theorem parts_of_live {e e' : CacheEntry} (h : e.state = .live ∨ e'.state = .live → e' = e) :
    e'.continuations = e.continuations ∧ e'.continuationBytes = e.continuationBytes := by
  by_cases hlive : e.state = .live ∨ e'.state = .live
  · rw [h hlive]
    exact ⟨rfl, rfl⟩
  · rw [not_or] at hlive
    have hdead := continuations_of_dead hlive.1
    have hdead' := continuations_of_dead hlive.2
    exact ⟨hdead'.1.trans hdead.1.symm, hdead'.2.trans hdead.2.symm⟩

theorem Ledger.Agrees.balanced (h : s.Agrees t) (hslots : t.cache.slotCount = s.cache.slotCount)
    (hs : s.Balanced) : t.Balanced :=
  hs.congr hslots (fun i => parts_of_live (h.live i)) h.continuationEntryCount
    h.continuationCodeBytes

theorem Ledger.insert_slotCount (s : Ledger) (slot : Nat) (e : CacheEntry) (registered : Bool) :
    (s.insert slot e registered).cache.slotCount = s.cache.slotCount := by
  cases registered with
  | true => rfl
  | false =>
    simp only [Ledger.insert, Bool.false_eq_true, if_false, removeSlot_cache]
    exact (removeSlot_limits _ slot).1

theorem Ledger.insert_agrees {slot : Nat} {e : CacheEntry}
    (hfree : (s.cache.entries slot).state ≠ .live) (hlive : e.state = .live)
    (hcount : s.continuationEntryCount = 0 ∨ e.continuations = 0)
    (hbytes : s.continuationCodeBytes = 0 ∨ e.continuationBytes = 0) :
    s.Agrees (s.insert slot e false) := by
  obtain ⟨hentries, hc, hb, hce, hcb, -⟩ := s.insert_failed hfree hlive
  refine ⟨hentries, hc, hb, ?_, ?_⟩
  · rw [hce]
    omega
  · rw [hcb]
    omega

theorem Ledger.Evicts.reject (h : s.Evicts t) {native : NativeFunction} {op : CacheOp}
    (ho : op.offered = some native) : s.Undone (t.reject native) op := by
  refine ⟨t, h, ⟨fun _ _ => rfl, rfl, rfl, rfl, rfl⟩, ?_⟩
  rw [ho]
  rfl

theorem Ledger.Balanced.reject (hs : s.Balanced) (native : NativeFunction) :
    (s.reject native).Balanced := ⟨hs.1, hs.2⟩

theorem Ledger.Balanced.rewrite {c : CodeCache} {slot : Nat} {e : CacheEntry} (hs : s.Balanced)
    (hslots : c.slotCount = s.cache.slotCount)
    (hentries : c.entries = Function.update s.cache.entries slot e)
    (hcount : e.continuations = (s.cache.entries slot).continuations)
    (hbytes : e.continuationBytes = (s.cache.entries slot).continuationBytes) :
    Ledger.Balanced { s with cache := c } := by
  refine hs.congr hslots (fun i => ?_) rfl rfl
  simp only [hentries]
  by_cases hi : i = slot
  · subst hi
    rw [Function.update_self]
    exact ⟨hcount, hbytes⟩
  · rw [Function.update_of_ne hi]
    exact ⟨rfl, rfl⟩

theorem Ledger.Balanced.touchEntry (hs : s.Balanced) (slot : Nat) :
    Ledger.Balanced { s with cache := s.cache.touchEntry slot } :=
  hs.rewrite rfl rfl rfl rfl

structure Ledger.Sound (s : Ledger) : Prop where
  valid : ∃ m, s.cache.Valid m
  balanced : s.Balanced
  entries : 0 < s.cache.maximumEntries

theorem Ledger.Sound.compile (hs : s.Sound) (key : Word) (compiler : Compiler)
    (registered : Bool) :
    (s.compile key compiler registered).1.Balanced ∧
      ((s.compile key compiler registered).2.isSome →
        s.Undone (s.compile key compiler registered).1 (.compile key compiler registered)) := by
  have hnothing : s.Agrees s := ⟨fun _ _ => rfl, rfl, rfl, rfl, rfl⟩
  obtain ⟨m, hv⟩ := hs.valid
  unfold Ledger.compile
  by_cases hkey : key = 0
  · rw [if_pos hkey]
    refine ⟨hs.balanced, fun _ => ⟨s, .refl, hnothing, ?_⟩⟩
    simp [CacheOp.offered, hkey]
  rw [if_neg hkey]
  have hfind := hv.findLive_spec hkey
  cases hf : s.cache.findLive key with
  | some slot => exact ⟨hs.balanced.touchEntry slot, nofun⟩
  | none =>
    rw [hf] at hfind
    cases hr : compiler.result with
    | error status =>
      refine ⟨hs.balanced, fun _ => ⟨s, .refl, hnothing, ?_⟩⟩
      simp only [CacheOp.offered, if_neg hkey, hr, Except.toOption, Option.toList_none,
        List.append_nil]
    | ok native =>
      have ho : (CacheOp.compile key compiler registered).offered = some native := by
        simp only [CacheOp.offered, if_neg hkey, hr, Except.toOption]
      have hevicts := s.makeRoom_evicts native.codeSize
      rcases s.place_cases native (·.findSlot key true)
        (fun c slot => functionEntry c (c.entries slot) key native) registered with
        ⟨t, status, ht, -, hplace⟩ | ⟨slot, -, -, hslot, hplace⟩
      · simp only [hplace]
        exact ⟨(ht.balanced hs.balanced).reject native, fun _ => ht.reject ho⟩
      · simp only [hplace]
        obtain ⟨hv', -, hshrinks⟩ := hv.makeRoom native.codeSize
        obtain ⟨hlt, hfree, -⟩ := hv'.findSlot_insertable hkey (hshrinks key hfind) hslot
        have hbalanced := hevicts.balanced hs.balanced
        rw [← makeRoom_cache] at hlt hfree ⊢
        generalize s.makeRoom native.codeSize = t at *
        have hdead := continuations_of_dead hfree
        -- A function has no part in the accounts.
        have hnew : (functionEntry t.cache (t.cache.entries slot) key native).continuations = 0 ∧
            (functionEntry t.cache (t.cache.entries slot) key native).continuationBytes = 0 := by
          simp [CacheEntry.continuations, CacheEntry.continuationBytes, functionEntry]
        cases registered with
        | true =>
          refine ⟨hbalanced.write hlt rfl rfl ?_ ?_, nofun⟩
          · rw [hdead.1, hnew.1]
            rfl
          · rw [hdead.2, hnew.2]
            rfl
        | false =>
          have hagrees := Ledger.insert_agrees hfree
            (e := functionEntry t.cache (t.cache.entries slot) key native) rfl (.inr hnew.1)
            (.inr hnew.2)
          refine ⟨hagrees.balanced (t.insert_slotCount ..) hbalanced, fun _ =>
            ⟨t, hevicts, hagrees, ?_⟩⟩
          rw [ho]
          exact (t.insert_failed hfree rfl).2.2.2.2.2

theorem Ledger.Balanced.none_live (hs : s.Balanced)
    (h : ∀ i, i < s.cache.slotCount → (s.cache.entries i).continuations = 0) :
    s.continuationEntryCount = 0 ∧ s.continuationCodeBytes = 0 := by
  rw [hs.entries_eq, hs.bytes_eq]
  constructor
  · exact Finset.sum_eq_zero fun i hi => h i (Finset.mem_range.mp hi)
  · refine Finset.sum_eq_zero fun i hi => ?_
    have hzero := h i (Finset.mem_range.mp hi)
    simp only [CacheEntry.continuations, ite_eq_right_iff, one_ne_zero, imp_false] at hzero
    simp only [CacheEntry.continuationBytes, if_neg hzero]

/-- Storing a continuation keeps the accounts unless it slips. -/
theorem Ledger.Sound.storeContinuation_iff (hs : s.Sound) (k : Continuation) (prologueCount : Nat)
    (native : NativeFunction) (registered : Bool) :
    ((s.storeContinuation k prologueCount native registered).1.Balanced ∧
      ((s.storeContinuation k prologueCount native registered).2.isSome →
        s.Undone (s.storeContinuation k prologueCount native registered).1
          (.storeContinuation k prologueCount native registered))) ↔
      ¬ s.Slips (.storeContinuation k prologueCount native registered) := by
  obtain ⟨m, hv⟩ := hs.valid
  have hevicts := s.makeRoom_evicts native.codeSize
  unfold Ledger.storeContinuation Ledger.Slips
  by_cases hid : k.functionId = 0
  · simp only [hid, true_or, if_true, not_true_eq_false, iff_false]
    rintro ⟨-, hundone⟩
    -- Nothing is destroyed.
    obtain ⟨t, ht, -, hd⟩ := hundone rfl
    obtain ⟨l, hl⟩ := ht.destroyed
    rw [hl] at hd
    have hlength := congrArg List.length hd
    simp [CacheOp.offered] at hlength
  simp only [hid, if_false, false_or]
  cases hf : s.cache.findContinuation k with
  | some slot =>
    exact iff_of_true ⟨(hs.balanced.reject native).touchEntry slot, nofun⟩ (by simp)
  | none =>
    simp only [true_and]
    rcases s.place_cases native CodeCache.firstFree
      (fun c slot => continuationEntry c (c.entries slot) k prologueCount native) registered with
      ⟨t, status, ht, hturned, hplace⟩ | ⟨slot, hle, hfull, hslot, hplace⟩
    · simp only [hplace]
      refine iff_of_true ⟨(ht.balanced hs.balanced).reject native, fun _ => ht.reject rfl⟩ ?_
      rintro ⟨-, hle, hfree, -⟩
      exact hfree (hturned hle (hv.makeRoom_fits hle hs.entries))
    · simp only [hplace, hle, hslot, true_and]
      obtain ⟨hlt, hfree⟩ := firstFree_spec hslot
      have hbalanced := hevicts.balanced hs.balanced
      rw [← makeRoom_cache] at hlt hfree ⊢
      generalize s.makeRoom native.codeSize = t at *
      have hdead := continuations_of_dead hfree
      have hnew : (continuationEntry t.cache (t.cache.entries slot) k prologueCount
              native).continuations = 1 ∧
          (continuationEntry t.cache (t.cache.entries slot) k prologueCount
              native).continuationBytes = native.codeSize := by
        simp [CacheEntry.continuations, CacheEntry.continuationBytes, continuationEntry]
      cases registered with
      | true =>
        refine iff_of_true ⟨hbalanced.write hlt rfl rfl ?_ ?_, nofun⟩ nofun
        · rw [hdead.1, hnew.1]
          rfl
        · rw [hdead.2, hnew.2]
          rfl
      | false =>
        obtain ⟨hentries, -, -, hce, -, hd⟩ := t.insert_failed hfree
          (e := continuationEntry t.cache (t.cache.entries slot) k prologueCount native) rfl
        simp only [Bool.false_eq_true, if_false, Option.isSome_some, forall_const, true_and, ne_eq,
          reduceCtorEq, not_false_eq_true, not_exists, not_and, not_not]
        constructor
        · rintro ⟨hafter, -⟩ i hi
          -- The live entries are the same, and the counter has gone down.
          have hsum := hafter.entries_eq
          rw [t.insert_slotCount, Finset.sum_congr rfl fun i _ => (parts_of_live (hentries i)).1,
            ← hbalanced.entries_eq, hce, hnew.1] at hsum
          have := (hbalanced.part_le hi).1
          omega
        · intro hnone
          obtain ⟨hzero, hzero'⟩ := hbalanced.none_live hnone
          have hagrees := Ledger.insert_agrees hfree
            (e := continuationEntry t.cache (t.cache.entries slot) k prologueCount native) rfl
            (.inl hzero) (.inl hzero')
          exact ⟨hagrees.balanced (t.insert_slotCount ..) hbalanced, t, hevicts, hagrees, hd⟩

theorem Ledger.Balanced.lookup (hs : s.Balanced) (key : Word) :
    Ledger.Balanced { s with cache := (s.cache.lookup key).1 } := by
  unfold CodeCache.lookup
  split
  · exact hs
  split
  · cases s.cache.findLive key with
    | none => exact hs
    | some slot => exact hs.touchEntry slot
  · cases s.cache.findLive key with
    | none => exact hs
    | some slot => exact hs.rewrite rfl rfl rfl rfl

theorem Ledger.Balanced.attachEntryHandle (hs : s.Balanced) (key : Word) (handle : Nat)
    (kind : EntryKind) (argumentCount targetIdentity : Nat) :
    Ledger.Balanced { s with
      cache := (s.cache.attachEntryHandle key handle kind argumentCount targetIdentity).1 } := by
  unfold CodeCache.attachEntryHandle
  split
  · exact hs
  cases s.cache.findLive key with
  | none => exact hs
  | some slot => exact hs.rewrite rfl rfl rfl rfl

theorem Ledger.Sound.invalidate (hs : s.Sound) (key : Word) : (s.invalidate key).Balanced := by
  obtain ⟨m, hv⟩ := hs.valid
  have hfinds := hv.findSlot_finds key
  unfold Ledger.invalidate
  split
  · exact hs.balanced
  cases hf : s.cache.findSlot key false with
  | none => exact hs.balanced
  | some slot =>
    rw [hf] at hfinds
    obtain ⟨j, -, -, rfl, -⟩ := hfinds
    exact hs.balanced.removeSlot (probe_lt (slotCount_pos hv.slots))

theorem Ledger.Balanced.clear (hs : s.Balanced) : s.clear.Balanced := by
  have hloop : let t := forUp s.cache.slotCount (fun i t => Ledger.removeSlot t i) s
      t.Balanced ∧ t.cache.slotCount = s.cache.slotCount ∧
        ∀ i, i < s.cache.slotCount → (t.cache.entries i).state ≠ .live := by
    refine forUp_induction (P := fun n (t : Ledger) => t.Balanced ∧
      t.cache.slotCount = s.cache.slotCount ∧ ∀ i, i < n → (t.cache.entries i).state ≠ .live)
      ⟨hs, rfl, by simp⟩ ?_
    rintro n t hn ⟨ht, hslots, hdead⟩
    refine ⟨ht.removeSlot (hslots ▸ hn), ?_, ?_⟩
    · rw [removeSlot_cache, (removeSlot_limits t.cache n).1, hslots]
    · intro i hi hlive
      rw [removeSlot_cache] at hlive
      have hsame := removeSlot_live hlive
      rw [hsame] at hlive
      rcases Nat.lt_succ_iff_lt_or_eq.mp hi with hi | rfl
      · exact hdead i hi hlive
      · rw [removeSlot_entries hlive, Function.update_self] at hsame
        rw [← hsame] at hlive
        cases hlive
  obtain ⟨hbalanced, hslots, hdead⟩ := hloop
  obtain ⟨hzero, hzero'⟩ := hbalanced.none_live fun i hi =>
    (continuations_of_dead (hdead i (hslots ▸ hi))).1
  exact ⟨hzero.trans Finset.sum_const_zero.symm, hzero'.trans Finset.sum_const_zero.symm⟩

theorem makeRoomFrom_limits (codeSize fuel : Nat) (c : CodeCache) :
    SameLimits c (CodeCache.makeRoomFrom codeSize fuel c).1 := by
  induction fuel generalizing c with
  | zero => exact .refl c
  | succ fuel ih =>
    unfold CodeCache.makeRoomFrom CodeCache.evictLru
    split
    · cases c.victim with
      | none => exact .refl c
      | some slot => exact (removeSlot_limits c slot).trans (ih _)
    · exact .refl c

theorem insert_limits (c : CodeCache) (slot : Nat) (e : CacheEntry) (registered : Bool) :
    SameLimits c (c.insert slot e registered).1 := by
  cases registered with
  | true => exact ⟨rfl, rfl, rfl⟩
  | false =>
    have hremoved := removeSlot_limits (c.fill slot e) slot
    exact ⟨hremoved.1, hremoved.2, hremoved.3⟩

theorem Ledger.place_limits (s : Ledger) (native : NativeFunction)
    (findSlot : CodeCache → Option Nat) (entry : CodeCache → Nat → CacheEntry)
    (registered : Bool) :
    SameLimits s.cache (s.place native findSlot entry registered).1.cache := by
  have hroom : SameLimits s.cache (s.makeRoom native.codeSize).cache := by
    rw [makeRoom_cache]
    exact makeRoomFrom_limits ..
  unfold Ledger.place
  split
  · exact .refl _
  simp only
  split
  · exact hroom
  cases findSlot (s.makeRoom native.codeSize).cache with
  | none => exact hroom
  | some slot =>
    rw [insert_cache]
    exact hroom.trans (insert_limits ..)

theorem Ledger.perform_limits (s : Ledger) (op : CacheOp) :
    SameLimits s.cache (s.perform op).1.cache := by
  cases op with
  | lookup key =>
    simp only [Ledger.perform, CodeCache.perform, CodeCache.lookup]
    split
    · exact .refl _
    split
    · cases s.cache.findLive key <;> exact ⟨rfl, rfl, rfl⟩
    · cases s.cache.findLive key <;> exact ⟨rfl, rfl, rfl⟩
  | compile key compiler registered =>
    simp only [Ledger.perform, Ledger.compile]
    split
    · exact .refl _
    cases s.cache.findLive key with
    | some slot => exact ⟨rfl, rfl, rfl⟩
    | none =>
      cases compiler.result with
      | error status => exact .refl _
      | ok native =>
        have hplace := s.place_limits native (·.findSlot key true)
          (fun c slot => functionEntry c (c.entries slot) key native) registered
        revert hplace
        simp only
        generalize s.place _ _ _ _ = r
        rintro ⟨h, h', h''⟩
        rcases r with ⟨t, _ | status⟩ <;> exact ⟨h, h', h''⟩
  | storeContinuation k prologueCount native registered =>
    simp only [Ledger.perform, Ledger.storeContinuation]
    split
    · exact .refl _
    cases s.cache.findContinuation k with
    | some slot => exact ⟨rfl, rfl, rfl⟩
    | none =>
      have hplace := s.place_limits native CodeCache.firstFree
        (fun c slot => continuationEntry c (c.entries slot) k prologueCount native) registered
      revert hplace
      simp only
      generalize s.place _ _ _ _ = r
      rintro ⟨h, h', h''⟩
      rcases r with ⟨t, _ | status⟩ <;> exact ⟨h, h', h''⟩
  | lookupContinuation k =>
    simp only [Ledger.perform, CodeCache.perform, CodeCache.lookupContinuation]
    cases s.cache.findContinuation k <;> exact ⟨rfl, rfl, rfl⟩
  | attachEntryHandle key handle kind argumentCount targetIdentity =>
    simp only [Ledger.perform, CodeCache.perform, CodeCache.attachEntryHandle]
    split
    · exact .refl _
    cases s.cache.findLive key <;> exact ⟨rfl, rfl, rfl⟩
  | invalidate key =>
    simp only [Ledger.perform, Ledger.invalidate]
    split
    · exact .refl _
    cases s.cache.findSlot key false with
    | none => exact .refl _
    | some slot =>
      rw [removeSlot_cache]
      exact removeSlot_limits s.cache slot
  | clear =>
    have hloop : SameLimits s.cache (forUp s.cache.slotCount clearSlot (s.cache, [])).1 :=
      forUp_invariant (P := fun r : CodeCache × List CacheEvent => SameLimits s.cache r.1) (.refl _)
        fun i r _ hr => hr.trans (removeSlot_limits r.1 i)
    exact ⟨hloop.1, hloop.2, hloop.3⟩

theorem Ledger.Sound.keeps_iff (hs : s.Sound) (op : CacheOp) :
    s.KeepsAccounts op ↔ ¬ s.Slips op := by
  unfold Ledger.KeepsAccounts
  rw [and_iff_right hs.balanced]
  cases op with
  | compile key compiler registered =>
    exact iff_of_true (hs.compile key compiler registered) not_false
  | storeContinuation k prologueCount native registered =>
    exact hs.storeContinuation_iff k prologueCount native registered
  | lookup key => exact iff_of_true ⟨hs.balanced.lookup key, fun h => by cases h⟩ not_false
  | lookupContinuation k =>
    refine iff_of_true ⟨?_, fun h => by cases h⟩ not_false
    simp only [Ledger.perform, CodeCache.perform, CodeCache.lookupContinuation]
    cases s.cache.findContinuation k with
    | none => exact hs.balanced
    | some slot => exact hs.balanced.touchEntry slot
  | attachEntryHandle key handle kind argumentCount targetIdentity =>
    exact iff_of_true ⟨hs.balanced.attachEntryHandle .., fun h => by cases h⟩ not_false
  | invalidate key => exact iff_of_true ⟨hs.invalidate key, fun h => by cases h⟩ not_false
  | clear => exact iff_of_true ⟨hs.balanced.clear, fun h => by cases h⟩ not_false

theorem Ledger.Sound.perform (hs : s.Sound) (op : CacheOp) (h : ¬ s.Slips op) :
    (s.perform op).1.Sound := by
  obtain ⟨m, hv⟩ := hs.valid
  have hv' := hv.perform op
  rw [← s.perform_cache op] at hv'
  refine ⟨⟨_, hv'⟩, ((hs.keeps_iff op).mpr h).2.1, ?_⟩
  rw [(s.perform_limits op).2]
  exact hs.entries

theorem open_sound {maximumEntries maximumCodeBytes : Nat} {c : CodeCache}
    (h : CodeCache.create maximumEntries maximumCodeBytes = some c) :
    Ledger.Sound { cache := c } := by
  have hentries : ∀ i, c.entries i = {} ∧ 0 < c.maximumEntries := by
    unfold CodeCache.create at h
    simp only at h
    generalize nextPow2 _ = slots at h
    by_cases hzero : slots = 0
    · rw [if_pos hzero] at h
      cases h
    rw [if_neg hzero, Option.some.injEq] at h
    subst h
    intro i
    refine ⟨rfl, ?_⟩
    simp only
    split <;> omega
  refine ⟨⟨_, create_valid h⟩, ⟨?_, ?_⟩, (hentries 0).2⟩
  · exact (Finset.sum_eq_zero fun i _ => by rw [(hentries i).1]; rfl).symm
  · exact (Finset.sum_eq_zero fun i _ => by rw [(hentries i).1]; rfl).symm

end

/-- In every run of the cache the accounts are right after each operation, and every call that
fails leaves only its evictions behind, exactly when no operation slips. -/
theorem cache_accounts_kept_iff {maximumEntries maximumCodeBytes : Nat} {c : CodeCache}
    (hcreate : CodeCache.create maximumEntries maximumCodeBytes = some c) (ops : List CacheOp) :
    Along (fun (s : Ledger) op => (s.perform op).1) Ledger.KeepsAccounts { cache := c } ops ↔
      Along (fun (s : Ledger) op => (s.perform op).1) (fun s op => ¬ s.Slips op)
        { cache := c } ops :=
  along_iff_of_kept (I := Ledger.Sound) (K := fun _ => True)
    (fun _ op hs _ h => hs.perform op h) (fun _ op hs _ => hs.keeps_iff op) (open_sound hcreate)
    fun _ _ => trivial

/-- A continuation pushes a function out of the cache, fails to be registered while no other one is
live, and is stored at the next try. -/
theorem failed_registration_is_undone :
    ∃ c, CodeCache.create 1 4096 = some c ∧
      Along (fun (s : Ledger) op => (s.perform op).1) Ledger.KeepsAccounts { cache := c }
        [.compile 8 ⟨.ok ⟨1, 10⟩, none⟩ true, .storeContinuation ⟨1, 1, 3⟩ 2 ⟨2, 20⟩ false,
          .storeContinuation ⟨1, 1, 3⟩ 2 ⟨3, 20⟩ true] := by
  obtain ⟨c, hc⟩ : ∃ c, CodeCache.create 1 4096 = some c := ⟨_, rfl⟩
  refine ⟨c, hc, (cache_accounts_kept_iff hc _).mpr ⟨not_false, ?_, ?_, trivial⟩⟩
  · cases hc
    rintro (h | ⟨-, -, -, -, h⟩)
    · cases h
    · revert h
      decide +kernel
  · rintro (h | ⟨h, -⟩)
    · cases h
    · cases h

/-- The second continuation cannot be registered, and the first one is no longer counted. -/
theorem failed_registration_is_counted :
    ∃ c, CodeCache.create 4 4096 = some c ∧
      ¬ Along (fun (s : Ledger) op => (s.perform op).1) Ledger.KeepsAccounts { cache := c }
        [.storeContinuation ⟨1, 1, 3⟩ 2 ⟨2, 20⟩ true,
          .storeContinuation ⟨1, 1, 7⟩ 2 ⟨3, 20⟩ false] := by
  refine ⟨_, rfl, ?_⟩
  rintro ⟨-, ⟨-, h, -⟩, -⟩
  exact absurd h.entries_eq (by decide +kernel)

end TurboJS.Runtime
