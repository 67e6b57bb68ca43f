import TurboJS.Runtime.CodeCache
import TurboJS.Foundation.Probing

namespace TurboJS.Runtime
open IR Foundation

/-! The code cache as a bounded map. -/

def CacheEvent.apply (m : Word → Option NativeFunction) : CacheEvent → Word → Option NativeFunction
  | .compiled key function => Function.update m key (some function)
  | .removed key => Function.update m key none

def replayFrom (m : Word → Option NativeFunction) (events : List CacheEvent) :
    Word → Option NativeFunction :=
  events.foldl CacheEvent.apply m

def replay (events : List CacheEvent) : Word → Option NativeFunction :=
  replayFrom (fun _ => none) events

theorem replayFrom_append (m : Word → Option NativeFunction) (events rest : List CacheEvent) :
    replayFrom m (events ++ rest) = replayFrom (replayFrom m events) rest :=
  List.foldl_append

def CacheEntry.cell (e : CacheEntry) : Cell Word (Option NativeFunction) Continuation :=
  match e.state with
  | .empty => .empty
  | .tombstone => .tombstone
  | .live =>
    match e.cacheKind with
    | .function => .item e.key e.function
    | .continuation => .guest e.continuation

def CodeCache.cells (c : CodeCache) (i : Nat) : Cell Word (Option NativeFunction) Continuation :=
  (c.entries i).cell

def CodeCache.start (c : CodeCache) (key : Word) : Nat := (keyHash key).toNat &&& c.mask

def CacheEntry.weight (e : CacheEntry) : Nat := if e.state = .live then 1 else 0

def CacheEntry.bytes (e : CacheEntry) : Nat := if e.state = .live then e.codeSize else 0

structure CodeCache.Valid (c : CodeCache) (m : Word → Option NativeFunction) : Prop where
  slots : ∃ k, c.slotCount = 2 ^ k
  searchable : Searchable c.slotCount c.start c.cells
  represents : Represents c.slotCount c.cells (fun key => (m key).map some)
  null : m 0 = none
  continuation_key : ∀ i, i < c.slotCount → (c.entries i).cacheKind = .continuation →
    (c.entries i).key = 0
  last : c.lastKey ≠ 0 → c.lastFunction.isSome ∧ m c.lastKey = c.lastFunction
  count_eq : c.count = ∑ i ∈ Finset.range c.slotCount, (c.entries i).weight
  bytes_eq : c.codeBytes = ∑ i ∈ Finset.range c.slotCount, (c.entries i).bytes
  count_le : c.count ≤ c.maximumEntries
  bytes_le : c.codeBytes ≤ c.maximumCodeBytes

section

variable {c : CodeCache} {m : Word → Option NativeFunction} {key : Word}

theorem CacheEntry.cell_eq_item {e : CacheEntry} {f : Option NativeFunction} :
    e.cell = .item key f ↔
      e.state = .live ∧ e.cacheKind = .function ∧ e.key = key ∧ e.function = f := by
  unfold CacheEntry.cell
  split <;> rename_i hs <;> simp only [hs, reduceCtorEq, false_and, true_and]
  split <;> rename_i hk <;> simp [hk]

theorem CacheEntry.cell_eq_guest {e : CacheEntry} {k : Continuation} :
    e.cell = .guest k ↔
      e.state = .live ∧ e.cacheKind = .continuation ∧ e.continuation = k := by
  unfold CacheEntry.cell
  split <;> rename_i hs <;> simp only [hs, reduceCtorEq, false_and, true_and]
  split <;> rename_i hk <;> simp [hk]

theorem CacheEntry.cell_eq_empty {e : CacheEntry} : e.cell = .empty ↔ e.state = .empty := by
  unfold CacheEntry.cell
  split <;> rename_i hs <;> simp only [hs, reduceCtorEq]
  split <;> simp

theorem and_mask (hs : ∃ k, c.slotCount = 2 ^ k) (x : Nat) : x &&& c.mask = x % c.slotCount := by
  obtain ⟨k, hk⟩ := hs
  rw [CodeCache.mask, hk, Nat.and_two_pow_sub_one_eq_mod]

theorem slotCount_pos (hs : ∃ k, c.slotCount = 2 ^ k) : 0 < c.slotCount := by
  obtain ⟨k, hk⟩ := hs
  rw [hk]
  exact Nat.two_pow_pos k

def CodeCache.Stops (c : CodeCache) (key : Word) (slot : Nat) : Prop :=
  (c.entries slot).state = .empty ∨
    ((c.entries slot).state = .live ∧ (c.entries slot).key = key)

/-- What a search from probe `d` on has found out when it ends. -/
def CodeCache.Finds (c : CodeCache) (key : Word) (s d : Nat) : Option Nat → Prop
  | none => ∀ j, d ≤ j → j < c.slotCount → ¬ c.Stops key (probe c.slotCount s j)
  | some slot => ∃ j, d ≤ j ∧ j < c.slotCount ∧ slot = probe c.slotCount s j ∧
      c.Stops key slot ∧ ∀ i, d ≤ i → i < j → ¬ c.Stops key (probe c.slotCount s i)

theorem CodeCache.Finds.here {s d : Nat} (hd : d < c.slotCount)
    (hstop : c.Stops key (probe c.slotCount s d)) :
    c.Finds key s d (some (probe c.slotCount s d)) := by
  refine ⟨d, Nat.le_refl d, hd, rfl, hstop, ?_⟩
  intro i hi hlt
  omega

theorem CodeCache.Finds.skip {s d : Nat} {r : Option Nat}
    (hstop : ¬ c.Stops key (probe c.slotCount s d)) (h : c.Finds key s (d + 1) r) :
    c.Finds key s d r := by
  cases r with
  | none =>
    intro j hj hlt
    rcases Nat.eq_or_lt_of_le hj with rfl | hj
    · exact hstop
    · exact h j hj hlt
  | some slot =>
    obtain ⟨j, hj, hlt, hslot, hstops, hbefore⟩ := h
    refine ⟨j, by omega, hlt, hslot, hstops, ?_⟩
    intro i hi hij
    rcases Nat.eq_or_lt_of_le hi with rfl | hi
    · exact hstop
    · exact hbefore i hi hij

theorem findSlotFrom_lookup (hs : ∃ k, c.slotCount = 2 ^ k) (s : Nat) {fuel d : Nat}
    (hd : d + fuel = c.slotCount) :
    c.Finds key s d (c.findSlotFrom key false fuel (probe c.slotCount s d) none) := by
  induction fuel generalizing d with
  | zero =>
    intro j hj hlt
    omega
  | succ fuel ih =>
    rw [CodeCache.findSlotFrom]
    by_cases hempty : (c.entries (probe c.slotCount s d)).state = .empty
    · simp only [hempty, if_true, Option.getD_none]
      exact .here (by omega) (.inl hempty)
    · rw [if_neg hempty]
      by_cases hlive : (c.entries (probe c.slotCount s d)).state = .live ∧
          (c.entries (probe c.slotCount s d)).key = key
      · rw [if_pos hlive]
        exact .here (by omega) (.inr hlive)
      · rw [if_neg hlive, and_mask hs, probe_succ]
        simp only [Bool.false_eq_true, false_and, if_false]
        refine .skip ?_ (ih (by omega))
        rintro (he | hl)
        · exact hempty he
        · exact hlive hl

theorem start_eq_probe (hs : ∃ k, c.slotCount = 2 ^ k) (key : Word) :
    c.start key = probe c.slotCount (c.start key) 0 := by
  rw [CodeCache.start, and_mask hs, probe, Nat.add_zero, Nat.mod_mod]

theorem CodeCache.Valid.findSlot_finds (hv : c.Valid m) (key : Word) :
    c.Finds key (c.start key) 0 (c.findSlot key false) := by
  have h : c.Finds key (c.start key) 0 (c.findSlotFrom key false c.slotCount
      (probe c.slotCount (c.start key) 0) none) :=
    findSlotFrom_lookup hv.slots (c.start key) (Nat.zero_add c.slotCount)
  rwa [← start_eq_probe hv.slots] at h

theorem CodeCache.Valid.cell_of_key (hv : c.Valid m) (hkey : key ≠ 0) {slot : Nat}
    (hslot : slot < c.slotCount) (hlive : (c.entries slot).state = .live)
    (hk : (c.entries slot).key = key) : c.cells slot = .item key (c.entries slot).function := by
  refine CacheEntry.cell_eq_item.mpr ⟨hlive, ?_, hk, rfl⟩
  cases hkind : (c.entries slot).cacheKind with
  | function => rfl
  | continuation =>
    have := hv.continuation_key slot hslot hkind
    rw [hk] at this
    exact absurd this hkey

theorem CodeCache.Valid.findLive_spec (hv : c.Valid m) (hkey : key ≠ 0) :
    match c.findLive key with
    | some slot => slot < c.slotCount ∧ (c.entries slot).state = .live ∧
        (c.entries slot).key = key ∧ (c.entries slot).cacheKind = .function ∧
        (m key).isSome ∧ (c.entries slot).function = m key
    | none => m key = none := by
  have hfinds := hv.findSlot_finds key
  have hpos := slotCount_pos hv.slots
  -- No item for the key is behind a slot that ends the search, or anywhere if nothing ends it.
  have hmiss : (∀ j, j < c.slotCount → (∀ i, i < j → Occupied c.cells
      (probe c.slotCount (c.start key) i)) → ∀ f,
      c.cells (probe c.slotCount (c.start key) j) ≠ .item key f) → m key = none := by
    intro hall
    have hrep := hv.represents.none_iff (k := key)
    simp only [Option.map_eq_none_iff] at hrep
    rw [hrep]
    intro i f hi hc
    obtain ⟨d, hd, rfl, hbefore⟩ := hv.searchable.probed hi hc
    exact hall d hd hbefore f hc
  unfold CodeCache.findLive
  cases hslot : c.findSlot key false with
  | none =>
    rw [hslot] at hfinds
    refine hmiss ?_
    intro j hj _ f hc
    obtain ⟨hlive, -, hk, -⟩ := CacheEntry.cell_eq_item.mp hc
    exact hfinds j (Nat.zero_le j) hj (.inr ⟨hlive, hk⟩)
  | some slot =>
    rw [hslot] at hfinds
    obtain ⟨j, -, hj, rfl, hstop, hbefore⟩ := hfinds
    simp only
    by_cases hlive : (c.entries (probe c.slotCount (c.start key) j)).state = .live
    · rw [if_pos hlive]
      have hk : (c.entries (probe c.slotCount (c.start key) j)).key = key := by
        rcases hstop with he | hl
        · rw [hlive] at he
          cases he
        · exact hl.2
      have hlt : probe c.slotCount (c.start key) j < c.slotCount := probe_lt hpos
      have hc := hv.cell_of_key hkey hlt hlive hk
      have hm := (hv.represents key _).mpr ⟨_, hlt, hc⟩
      obtain ⟨f, hf, hf'⟩ := Option.map_eq_some_iff.mp hm
      refine ⟨hlt, hlive, hk, (CacheEntry.cell_eq_item.mp hc).2.1, ?_, ?_⟩
      · rw [hf]
        rfl
      · rw [hf, hf']
    · rw [if_neg hlive]
      have hempty : (c.entries (probe c.slotCount (c.start key) j)).state = .empty := by
        rcases hstop with he | hl
        · exact he
        · exact absurd hl.1 hlive
      refine hmiss ?_
      intro d hd hocc f hc
      obtain ⟨hlive', -, hk, -⟩ := CacheEntry.cell_eq_item.mp hc
      rcases Nat.lt_trichotomy d j with hlt | rfl | hgt
      · exact hbefore d (Nat.zero_le d) hlt (.inr ⟨hlive', hk⟩)
      · exact hlive hlive'
      · exact hocc j hgt (CacheEntry.cell_eq_empty.mpr hempty)

def CodeCache.Insertable (c : CodeCache) (s slot : Nat) : Prop :=
  (c.entries slot).state ≠ .live ∧ Probed (Occupied c.cells) c.slotCount s slot

theorem findSlotFrom_insert (hs : ∃ k, c.slotCount = 2 ^ k) (s : Nat)
    (hmiss : ∀ slot, slot < c.slotCount →
      ¬ ((c.entries slot).state = .live ∧ (c.entries slot).key = key))
    {fuel d : Nat} {tombstone : Option Nat} (hd : d + fuel = c.slotCount)
    (hocc : ∀ i, i < d → Occupied c.cells (probe c.slotCount s i))
    (ht : ∀ slot, tombstone = some slot → c.Insertable s slot) {slot : Nat}
    (h : c.findSlotFrom key true fuel (probe c.slotCount s d) tombstone = some slot) :
    c.Insertable s slot := by
  induction fuel generalizing d tombstone with
  | zero => exact ht slot h
  | succ fuel ih =>
    have hlt : probe c.slotCount s d < c.slotCount := probe_lt (slotCount_pos hs)
    have hhere : (c.entries (probe c.slotCount s d)).state ≠ .live →
        c.Insertable s (probe c.slotCount s d) := fun hl => ⟨hl, d, by omega, rfl, hocc⟩
    rw [CodeCache.findSlotFrom, if_neg (hmiss _ hlt)] at h
    by_cases hempty : (c.entries (probe c.slotCount s d)).state = .empty
    · rw [if_pos hempty] at h
      cases tombstone with
      | none =>
        cases h
        refine hhere ?_
        rw [hempty]
        simp
      | some t =>
        cases h
        exact ht _ rfl
    · rw [if_neg hempty, and_mask hs, probe_succ] at h
      refine ih (by omega) ?_ ?_ h
      · intro i hi
        rcases Nat.lt_succ_iff_lt_or_eq.mp hi with hi | rfl
        · exact hocc i hi
        · intro hc
          exact hempty (CacheEntry.cell_eq_empty.mp hc)
      · intro slot' hslot'
        split at hslot'
        · rename_i hnew
          cases hslot'
          refine hhere ?_
          rw [hnew.2.1]
          simp
        · exact ht slot' hslot'

theorem CodeCache.Valid.findSlot_insertable (hv : c.Valid m) (hkey : key ≠ 0)
    (hm : m key = none) {slot : Nat} (h : c.findSlot key true = some slot) :
    slot < c.slotCount ∧ c.Insertable (c.start key) slot := by
  have hins : c.Insertable (c.start key) slot := by
    rw [CodeCache.findSlot, ← CodeCache.start, start_eq_probe hv.slots] at h
    refine findSlotFrom_insert hv.slots _ ?_ (Nat.zero_add _) (by simp) (by simp) h
    rintro i hi ⟨hlive, hk⟩
    have hc := hv.cell_of_key hkey hi hlive hk
    have := (hv.represents key _).mpr ⟨i, hi, hc⟩
    simp [hm] at this
  obtain ⟨d, -, rfl, -⟩ := hins.2
  exact ⟨probe_lt (slotCount_pos hv.slots), hins⟩

theorem CodeCache.Valid.congr {c' : CodeCache} (hv : c.Valid m)
    (hentries : ∀ i, (c'.entries i).cell = (c.entries i).cell ∧
      (c'.entries i).bytes = (c.entries i).bytes ∧ (c'.entries i).weight = (c.entries i).weight ∧
      (c'.entries i).cacheKind = (c.entries i).cacheKind ∧
      (c'.entries i).key = (c.entries i).key)
    (hslots : c'.slotCount = c.slotCount) (hcount : c'.count = c.count)
    (hbytes : c'.codeBytes = c.codeBytes) (hmax : c'.maximumEntries = c.maximumEntries)
    (hmax' : c'.maximumCodeBytes = c.maximumCodeBytes)
    (hlast : c'.lastKey ≠ 0 → c'.lastFunction.isSome ∧ m c'.lastKey = c'.lastFunction) :
    c'.Valid m := by
  have hcells : c'.cells = c.cells := funext fun i => (hentries i).1
  have hstart : c'.start = c.start := by
    funext key
    simp only [CodeCache.start, CodeCache.mask, hslots]
  constructor
  · rw [hslots]
    exact hv.slots
  · rw [hslots, hstart, hcells]
    exact hv.searchable
  · rw [hslots, hcells]
    exact hv.represents
  · exact hv.null
  · intro i hi hk
    rw [hslots] at hi
    rw [(hentries i).2.2.2.1] at hk
    rw [(hentries i).2.2.2.2]
    exact hv.continuation_key i hi hk
  · exact hlast
  · rw [hcount, hv.count_eq, hslots]
    exact Finset.sum_congr rfl fun i _ => ((hentries i).2.2.1).symm
  · rw [hbytes, hv.bytes_eq, hslots]
    exact Finset.sum_congr rfl fun i _ => ((hentries i).2.1).symm
  · rw [hcount, hmax]
    exact hv.count_le
  · rw [hbytes, hmax']
    exact hv.bytes_le

theorem setEntry_same {slot : Nat} {e : CacheEntry} (hcell : e.cell = (c.entries slot).cell)
    (hbytes : e.bytes = (c.entries slot).bytes) (hweight : e.weight = (c.entries slot).weight)
    (hkind : e.cacheKind = (c.entries slot).cacheKind) (hkey : e.key = (c.entries slot).key)
    (i : Nat) :
    ((c.setEntry slot e).entries i).cell = (c.entries i).cell ∧
      ((c.setEntry slot e).entries i).bytes = (c.entries i).bytes ∧
      ((c.setEntry slot e).entries i).weight = (c.entries i).weight ∧
      ((c.setEntry slot e).entries i).cacheKind = (c.entries i).cacheKind ∧
      ((c.setEntry slot e).entries i).key = (c.entries i).key := by
  by_cases hi : i = slot
  · subst hi
    simp only [CodeCache.setEntry, Function.update_self]
    exact ⟨hcell, hbytes, hweight, hkind, hkey⟩
  · simp only [CodeCache.setEntry, Function.update_of_ne hi, and_self]

theorem CodeCache.Valid.touchEntry (hv : c.Valid m) (slot : Nat) : (c.touchEntry slot).Valid m :=
  hv.congr (setEntry_same rfl rfl rfl rfl rfl) rfl rfl rfl rfl rfl hv.last

theorem cells_update {c' : CodeCache} {slot : Nat} {e : CacheEntry}
    (h : c'.entries = Function.update c.entries slot e) :
    c'.cells = Function.update c.cells slot e.cell := by
  funext i
  by_cases hi : i = slot
  · subst hi
    simp [CodeCache.cells, h]
  · simp [CodeCache.cells, h, Function.update_of_ne hi]

theorem CodeCache.Valid.write {c' : CodeCache} {m' : Word → Option NativeFunction} {slot : Nat}
    {e : CacheEntry} (hv : c.Valid m) (hslot : slot < c.slotCount)
    (hentries : c'.entries = Function.update c.entries slot e)
    (hslots : c'.slotCount = c.slotCount)
    (hsearch : Searchable c.slotCount c.start (Function.update c.cells slot e.cell))
    (hrep : Represents c.slotCount (Function.update c.cells slot e.cell)
      (fun key => (m' key).map some))
    (hnull : m' 0 = none) (hkey : e.cacheKind = .continuation → e.key = 0)
    (hlast : c'.lastKey ≠ 0 → c'.lastFunction.isSome ∧ m' c'.lastKey = c'.lastFunction)
    (hcount : c'.count + (c.entries slot).weight = c.count + e.weight)
    (hbytes : c'.codeBytes + (c.entries slot).bytes = c.codeBytes + e.bytes)
    (hle : c'.count ≤ c'.maximumEntries) (hle' : c'.codeBytes ≤ c'.maximumCodeBytes) :
    c'.Valid m' := by
  have hstart : c'.start = c.start := by
    funext key
    simp only [CodeCache.start, CodeCache.mask, hslots]
  have hweight := sum_range_update CacheEntry.weight c.entries hslot e
  have hsize := sum_range_update CacheEntry.bytes c.entries hslot e
  constructor
  · rw [hslots]
    exact hv.slots
  · rw [hslots, hstart, cells_update hentries]
    exact hsearch
  · rw [hslots, cells_update hentries]
    exact hrep
  · exact hnull
  · intro i hi hk
    rw [hslots] at hi
    rw [hentries] at hk ⊢
    by_cases he : i = slot
    · subst he
      rw [Function.update_self] at hk ⊢
      exact hkey hk
    · rw [Function.update_of_ne he] at hk ⊢
      exact hv.continuation_key i hi hk
  · exact hlast
  · rw [hslots, hentries]
    have := hv.count_eq
    omega
  · rw [hslots, hentries]
    have := hv.bytes_eq
    omega
  · exact hle
  · exact hle'

theorem CodeCache.Valid.removeSlot (hv : c.Valid m) {slot : Nat} (hslot : slot < c.slotCount) :
    (c.removeSlot slot).1.Valid (replayFrom m (c.removeSlot slot).2) := by
  unfold CodeCache.removeSlot
  by_cases hlive : (c.entries slot).state = .live
  · simp only [ne_eq, hlive, not_true_eq_false, if_false]
    have hold : (c.entries slot).weight = 1 := by simp [CacheEntry.weight, hlive]
    have hbytes : (c.entries slot).bytes = (c.entries slot).codeSize := by
      simp [CacheEntry.bytes, hlive]
    -- The entry is part of both sums.
    have hsum := sum_range_update CacheEntry.weight c.entries hslot { state := .tombstone }
    have hsum' := sum_range_update CacheEntry.bytes c.entries hslot { state := .tombstone }
    have hw : ({ state := .tombstone } : CacheEntry).weight = 0 := rfl
    have hb : ({ state := .tombstone } : CacheEntry).bytes = 0 := rfl
    have hcount := hv.count_eq
    have hsize := hv.bytes_eq
    have hle := hv.count_le
    have hle' := hv.bytes_le
    have hcell : ({ state := .tombstone } : CacheEntry).cell = .tombstone := rfl
    have hkind : ({ state := .tombstone } : CacheEntry).cacheKind ≠ .continuation := by simp
    cases hk : (c.entries slot).cacheKind with
    | function =>
      have hitem : c.cells slot = .item (c.entries slot).key (c.entries slot).function :=
        CacheEntry.cell_eq_item.mpr ⟨hlive, hk, rfl, rfl⟩
      have hmap : ∀ key, ((Function.update m (c.entries slot).key none) key).map some =
          Function.update (fun key => (m key).map some) (c.entries slot).key none key := by
        intro key
        by_cases he : key = (c.entries slot).key
        · subst he
          simp
        · simp [Function.update_of_ne he]
      refine hv.write hslot rfl rfl ?_ ?_ ?_ (fun h => absurd h hkind) ?_ ?_ ?_ ?_ ?_
      · rw [hcell]
        exact hv.searchable.remove
      · rw [hcell]
        simp only [replayFrom, List.foldl_cons, List.foldl_nil, CacheEvent.apply, if_true, hmap]
        exact hv.represents.remove_item hv.searchable hslot hitem
      · simp only [replayFrom, List.foldl_cons, List.foldl_nil, CacheEvent.apply, if_true]
        by_cases he : (0 : Word) = (c.entries slot).key
        · rw [← he, Function.update_self]
        · rw [Function.update_of_ne he, hv.null]
      · simp only [replayFrom, List.foldl_cons, List.foldl_nil, CacheEvent.apply, if_true]
        intro hne
        split at hne
        · exact absurd rfl hne
        · rename_i hother
          rw [if_neg hother, if_neg hother, Function.update_of_ne hother]
          exact hv.last hne
      · simp only [hold, hw]
        omega
      · simp only [hbytes, hb]
        omega
      · simp only [CodeCache.setEntry]
        omega
      · simp only [CodeCache.setEntry]
        omega
    | continuation =>
      have hguest : ∀ k f, c.cells slot ≠ .item k f := by
        intro k f hc
        have := (CacheEntry.cell_eq_item.mp hc).2.1
        rw [hk] at this
        cases this
      refine hv.write hslot rfl rfl ?_ ?_ ?_ (fun h => absurd h hkind) ?_ ?_ ?_ ?_ ?_
      · rw [hcell]
        exact hv.searchable.remove
      · rw [hcell]
        exact hv.represents.other hguest (by simp)
      · exact hv.null
      · intro hne
        simp only at hne
        split at hne
        · exact absurd rfl hne
        · rename_i hother
          simp only [if_neg hother]
          exact hv.last hne
      · simp only [hold, hw]
        omega
      · simp only [hbytes, hb]
        omega
      · simp only [CodeCache.setEntry]
        omega
      · simp only [CodeCache.setEntry]
        omega
  · simp only [ne_eq, hlive, not_false_eq_true, if_true]
    exact hv

theorem victim_lt {slot : Nat} (h : c.victim = some slot) : slot < c.slotCount := by
  have hinv : ∀ i, (forUp c.slotCount c.considerVictim ⟨none, 0, sizeMax⟩).slot = some i →
      i < c.slotCount := by
    refine forUp_induction (P := fun n (v : Victim) => ∀ i, v.slot = some i → i < n) ?_ ?_
    · intro i hi
      cases hi
    · intro n v _ hv i hi
      unfold CodeCache.considerVictim at hi
      simp only at hi
      split at hi
      · exact Nat.lt_succ_of_lt (hv i hi)
      · split at hi
        · cases hi
          exact Nat.lt_succ_self n
        · exact Nat.lt_succ_of_lt (hv i hi)
  exact hinv slot h

theorem removeSlot_of_dead {slot : Nat} (h : (c.entries slot).state ≠ .live) :
    (c.removeSlot slot).1 = c := by
  unfold CodeCache.removeSlot
  simp only [if_pos h]

theorem removeSlot_entries {slot : Nat} (h : (c.entries slot).state = .live) :
    (c.removeSlot slot).1.entries =
      Function.update c.entries slot { state := .tombstone } := by
  unfold CodeCache.removeSlot
  simp only [ne_eq, h, not_true_eq_false, if_false, CodeCache.setEntry]

theorem removeSlot_handles {slot : Nat} (h : (c.entries slot).state = .live) :
    (c.removeSlot slot).1.handles = c.handlesWithout (c.entries slot) := by
  unfold CodeCache.removeSlot
  simp only [ne_eq, h, not_true_eq_false, if_false]

theorem removeSlot_live {slot i : Nat} (h : ((c.removeSlot slot).1.entries i).state = .live) :
    (c.removeSlot slot).1.entries i = c.entries i := by
  by_cases hlive : (c.entries slot).state = .live
  · rw [removeSlot_entries hlive] at h ⊢
    by_cases he : i = slot
    · subst he
      rw [Function.update_self] at h
      cases h
    · exact Function.update_of_ne he ..
  · rw [removeSlot_of_dead hlive]

structure SameLimits (c c' : CodeCache) : Prop where
  slotCount : c'.slotCount = c.slotCount
  maximumEntries : c'.maximumEntries = c.maximumEntries
  maximumCodeBytes : c'.maximumCodeBytes = c.maximumCodeBytes

theorem SameLimits.refl (c : CodeCache) : SameLimits c c := ⟨rfl, rfl, rfl⟩

theorem SameLimits.trans {c' c'' : CodeCache} (h : SameLimits c c') (h' : SameLimits c' c'') :
    SameLimits c c'' :=
  ⟨h'.1.trans h.1, h'.2.trans h.2, h'.3.trans h.3⟩

theorem removeSlot_limits (c : CodeCache) (slot : Nat) : SameLimits c (c.removeSlot slot).1 := by
  unfold CodeCache.removeSlot
  simp only
  split
  · exact .refl c
  · exact ⟨rfl, rfl, rfl⟩

def Shrinks (m m' : Word → Option NativeFunction) : Prop :=
  ∀ key, m key = none → m' key = none

theorem removeSlot_events (c : CodeCache) (slot : Nat) :
    (c.removeSlot slot).2 = [] ∨ (c.removeSlot slot).2 = [.removed (c.entries slot).key] := by
  unfold CodeCache.removeSlot
  by_cases hlive : (c.entries slot).state = .live
  · by_cases hk : (c.entries slot).cacheKind = .function
    · simp [hlive, hk]
    · simp [hlive, hk]
  · simp [hlive]

theorem removeSlot_shrinks (c : CodeCache) (slot : Nat) (m : Word → Option NativeFunction) :
    Shrinks m (replayFrom m (c.removeSlot slot).2) := by
  intro key hm
  rcases removeSlot_events c slot with he | he
  · rw [he]
    exact hm
  · rw [he]
    change Function.update m (c.entries slot).key none key = none
    by_cases hk : key = (c.entries slot).key
    · rw [hk, Function.update_self]
    · rw [Function.update_of_ne hk, hm]

theorem CodeCache.Valid.makeRoomFrom (codeSize : Nat) {fuel : Nat} (hv : c.Valid m) :
    let r := CodeCache.makeRoomFrom codeSize fuel c
    r.1.Valid (replayFrom m r.2) ∧ SameLimits c r.1 ∧ Shrinks m (replayFrom m r.2) := by
  induction fuel generalizing c m with
  | zero => exact ⟨hv, .refl c, fun _ h => h⟩
  | succ fuel ih =>
    unfold CodeCache.makeRoomFrom
    split
    · cases he : c.evictLru with
      | none => exact ⟨hv, .refl c, fun _ h => h⟩
      | some r =>
        obtain ⟨c', events⟩ := r
        obtain ⟨slot, hslot, hr⟩ := Option.map_eq_some_iff.mp he
        have hv' := hv.removeSlot (victim_lt hslot)
        have hlimits := removeSlot_limits c slot
        have hshrinks := removeSlot_shrinks c slot m
        rw [hr] at hv' hlimits hshrinks
        obtain ⟨hvalid, hlimits', hshrinks'⟩ := ih hv'
        simp only [replayFrom_append]
        exact ⟨hvalid, hlimits.trans hlimits', fun key h => hshrinks' key (hshrinks key h)⟩
    · exact ⟨hv, .refl c, fun _ h => h⟩

theorem CodeCache.Valid.makeRoom (hv : c.Valid m) (codeSize : Nat) :
    (c.makeRoom codeSize).1.Valid (replayFrom m (c.makeRoom codeSize).2) ∧
      SameLimits c (c.makeRoom codeSize).1 ∧
      Shrinks m (replayFrom m (c.makeRoom codeSize).2) :=
  hv.makeRoomFrom codeSize

theorem CodeCache.Valid.insert {slot : Nat} {e : CacheEntry} {m' : Word → Option NativeFunction}
    {registered : Bool} (hv : c.Valid m) (hslot : slot < c.slotCount)
    (hfree : (c.entries slot).state ≠ .live) (hlive : e.state = .live)
    (hfits : c.full e.codeSize = false)
    (hsearch : Searchable c.slotCount c.start (Function.update c.cells slot e.cell))
    (hrep : Represents c.slotCount (Function.update c.cells slot e.cell)
      (fun key => (m' key).map some))
    (hnull : m' 0 = none) (hkey : e.cacheKind = .continuation → e.key = 0)
    (hlast : c.lastKey ≠ 0 → m' c.lastKey = m c.lastKey) :
    (c.insert slot e registered).1.Valid (replayFrom m' (c.insert slot e registered).2) ∧
      SameLimits c (c.insert slot e registered).1 := by
  have hold : (c.entries slot).weight = 0 := by simp [CacheEntry.weight, hfree]
  have hold' : (c.entries slot).bytes = 0 := by simp [CacheEntry.bytes, hfree]
  have hnew : e.weight = 1 := by simp [CacheEntry.weight, hlive]
  have hnew' : e.bytes = e.codeSize := by simp [CacheEntry.bytes, hlive]
  have hle := hv.bytes_le
  simp only [CodeCache.full, ge_iff_le, gt_iff_lt, decide_eq_false_iff_not, not_or,
    Nat.not_le, Nat.not_lt] at hfits
  have hv' : ({ c.setEntry slot e with
      clock := c.tick
      count := c.count + 1
      codeBytes := c.codeBytes + e.codeSize } : CodeCache).Valid m' := by
    refine hv.write hslot rfl rfl hsearch hrep hnull hkey ?_ ?_ ?_ ?_ ?_
    · intro hne
      exact ⟨(hv.last hne).1, (hlast hne).trans (hv.last hne).2⟩
    · simp only [hold, hnew, Nat.add_zero]
    · simp only [hold', hnew', Nat.add_zero]
    · exact hfits.1
    · simp only [CodeCache.setEntry]
      omega
  unfold CodeCache.insert
  cases registered with
  | true => exact ⟨hv', rfl, rfl, rfl⟩
  | false =>
    have hlimits := removeSlot_limits { c.setEntry slot e with
      clock := c.tick
      count := c.count + 1
      codeBytes := c.codeBytes + e.codeSize } slot
    exact ⟨hv'.removeSlot hslot, hlimits.1, hlimits.2, hlimits.3⟩

theorem CodeCache.Valid.lookup (hv : c.Valid m) (key : Word) :
    (c.lookup key).1.Valid m ∧ (c.lookup key).2 = m key := by
  unfold CodeCache.lookup
  by_cases hkey : key = 0
  · rw [if_pos hkey, hkey, hv.null]
    exact ⟨hv, rfl⟩
  · rw [if_neg hkey]
    have hfind := hv.findLive_spec hkey
    by_cases hlast : c.lastKey = key ∧ c.lastFunction.isSome
    · rw [if_pos hlast]
      have hne : c.lastKey ≠ 0 := by
        rw [hlast.1]
        exact hkey
      refine ⟨?_, ?_⟩
      · cases c.findLive key with
        | none => exact hv
        | some slot => exact hv.touchEntry slot
      · rw [← hlast.1]
        exact (hv.last hne).2.symm
    · rw [if_neg hlast]
      cases hf : c.findLive key with
      | none =>
        rw [hf] at hfind
        exact ⟨hv, hfind.symm⟩
      | some slot =>
        rw [hf] at hfind
        obtain ⟨-, -, -, -, hsome, hfun⟩ := hfind
        refine ⟨?_, hfun⟩
        refine (hv.touchEntry slot).congr (fun _ => ⟨rfl, rfl, rfl, rfl, rfl⟩) rfl rfl rfl rfl rfl ?_
        intro _
        simp only [hfun]
        exact ⟨hsome, trivial⟩

theorem CodeCache.Valid.insert_function {slot : Nat} {native : NativeFunction}
    (hv : c.Valid m) (registered : Bool) (hkey : key ≠ 0) (hm : m key = none)
    (hfits : c.full native.codeSize = false) (hslot : c.findSlot key true = some slot) :
    let e := functionEntry c (c.entries slot) key native
    (c.insert slot e registered).1.Valid
        (replayFrom (Function.update m key (some native)) (c.insert slot e registered).2) ∧
      SameLimits c (c.insert slot e registered).1 := by
  obtain ⟨hlt, hfree, hprobed⟩ := hv.findSlot_insertable hkey hm hslot
  have hnone : ∀ i f, i < c.slotCount → c.cells i ≠ .item key f := by
    intro i f hi hc
    have := (hv.represents key f).mpr ⟨i, hi, hc⟩
    simp [hm] at this
  have hold : ∀ k f, c.cells slot ≠ .item k f := by
    intro k f hc
    exact hfree (CacheEntry.cell_eq_item.mp hc).1
  have hmap : (fun k => (Function.update m key (some native) k).map some) =
      Function.update (fun k => (m k).map some) key (some (some native)) := by
    funext k
    by_cases he : k = key
    · subst he
      simp
    · simp [Function.update_of_ne he]
  have hcell : (functionEntry c (c.entries slot) key native).cell = .item key (some native) := rfl
  refine hv.insert hlt hfree rfl hfits ?_ ?_ ?_ ?_ ?_
  · rw [hcell]
    exact hv.searchable.insert_item hnone hprobed
  · rw [hcell, hmap]
    exact hv.represents.insert_item hlt hnone hold
  · rw [Function.update_of_ne (Ne.symm hkey), hv.null]
  · intro hk
    cases hk
  · intro hne
    have hother : c.lastKey ≠ key := by
      intro he
      have := hv.last hne
      rw [he, hm] at this
      rw [← this.2] at this
      simp at this
    rw [Function.update_of_ne hother]

theorem CodeCache.Valid.compile (hv : c.Valid m) (key : Word) (compiler : Compiler)
    (registered : Bool) :
    let r := c.compile key compiler registered
    r.1.Valid (replayFrom m r.2.1) := by
  unfold CodeCache.compile
  by_cases hkey : key = 0
  · rw [if_pos hkey]
    exact hv
  rw [if_neg hkey]
  have hfind := hv.findLive_spec hkey
  cases hf : c.findLive key with
  | some slot => exact hv.touchEntry slot
  | none =>
    rw [hf] at hfind
    simp only
    cases hr : compiler.result with
    | error status => exact hv
    | ok native =>
      simp only
      split
      · exact hv
      obtain ⟨hv', -, hshrinks⟩ := hv.makeRoom native.codeSize
      generalize c.makeRoom native.codeSize = room at *
      obtain ⟨c', evicted⟩ := room
      simp only at hv' hshrinks ⊢
      cases hfull : c'.full native.codeSize with
      | true =>
        simp only [if_true]
        exact hv'
      | false =>
        simp only [Bool.false_eq_true, if_false]
        cases hslot : c'.findSlot key true with
        | none => exact hv'
        | some slot =>
          have hm : replayFrom m evicted key = none := hshrinks key hfind
          obtain ⟨hins, -⟩ := hv'.insert_function registered hkey hm hfull hslot
          cases registered with
          | false =>
            simp only [Bool.false_eq_true, if_false, replayFrom_append]
            exact hins
          | true =>
            simp only [if_true, replayFrom_append]
            refine hins.congr (fun _ => ⟨rfl, rfl, rfl, rfl, rfl⟩) rfl rfl rfl rfl rfl ?_
            intro _
            exact ⟨rfl, Function.update_self ..⟩

theorem CodeCache.Valid.attachEntryHandle (hv : c.Valid m) (key : Word) (handle : Nat)
    (kind : EntryKind) (argumentCount targetIdentity : Nat) :
    (c.attachEntryHandle key handle kind argumentCount targetIdentity).1.Valid m := by
  unfold CodeCache.attachEntryHandle
  split
  · exact hv
  · cases c.findLive key with
    | none => exact hv
    | some slot =>
      exact hv.congr (setEntry_same rfl rfl rfl rfl rfl) rfl rfl rfl rfl rfl hv.last

theorem CodeCache.Valid.invalidate (hv : c.Valid m) (key : Word) :
    (c.invalidate key).1.Valid (replayFrom m (c.invalidate key).2) := by
  unfold CodeCache.invalidate
  split
  · exact hv
  · have hfinds := hv.findSlot_finds key
    cases hf : c.findSlot key false with
    | none => exact hv
    | some slot =>
      rw [hf] at hfinds
      obtain ⟨j, -, -, rfl, -⟩ := hfinds
      exact hv.removeSlot (probe_lt (slotCount_pos hv.slots))

theorem clear_loop (hv : c.Valid m) :
    let r := forUp c.slotCount clearSlot (c, [])
    r.1.Valid (replayFrom m r.2) ∧ SameLimits c r.1 ∧
      ∀ i, i < c.slotCount → (r.1.entries i).state ≠ .live := by
  refine forUp_induction (P := fun n (s : CodeCache × List CacheEvent) =>
    s.1.Valid (replayFrom m s.2) ∧ SameLimits c s.1 ∧
      ∀ i, i < n → (s.1.entries i).state ≠ .live) ⟨hv, .refl c, by simp⟩ ?_
  rintro n ⟨c', events⟩ hn ⟨hv', hlimits, hdead⟩
  have hslot : n < c'.slotCount := by
    rw [hlimits.1]
    exact hn
  have hremoved := hv'.removeSlot hslot
  refine ⟨?_, hlimits.trans (removeSlot_limits c' n), ?_⟩
  · simp only [clearSlot, replayFrom_append]
    exact hremoved
  · intro i hi
    simp only [clearSlot]
    unfold CodeCache.removeSlot
    by_cases hlive : (c'.entries n).state = .live
    · simp only [ne_eq, hlive, not_true_eq_false, if_false, CodeCache.setEntry]
      by_cases he : i = n
      · subst he
        simp
      · rw [Function.update_of_ne he]
        exact hdead i (by omega)
    · simp only [ne_eq, hlive, not_false_eq_true, if_true]
      rcases Nat.lt_succ_iff_lt_or_eq.mp hi with hi | rfl
      · exact hdead i hi
      · exact hlive

theorem CodeCache.Valid.clear (hv : c.Valid m) :
    c.clear.1.Valid (replayFrom m c.clear.2) := by
  obtain ⟨hv', hlimits, hdead⟩ := clear_loop hv
  unfold CodeCache.clear
  generalize forUp c.slotCount clearSlot (c, []) = r at *
  obtain ⟨c', events⟩ := r
  simp only at hv' hlimits hdead ⊢
  have hnone : replayFrom m events = fun _ => none := by
    funext key
    have hrep := hv'.represents.none_iff (k := key)
    simp only [Option.map_eq_none_iff] at hrep
    rw [hrep]
    intro i f hi hc
    rw [hlimits.1] at hi
    exact hdead i hi (CacheEntry.cell_eq_item.mp hc).1
  rw [hnone]
  constructor
  · exact hv'.slots
  · exact searchable_empty
  · exact represents_empty
  · rfl
  · intro i _ hk
    cases hk
  · intro hne
    exact absurd rfl hne
  · exact (Finset.sum_const_zero).symm
  · exact (Finset.sum_const_zero).symm
  · exact Nat.zero_le _
  · exact Nat.zero_le _

theorem searchUp_some {α : Type} {n : Nat} {p : Nat → Option α} {x : α}
    (h : searchUp n p = some x) : ∃ i, i < n ∧ p i = some x := by
  obtain ⟨i, hi, hp⟩ := List.exists_of_findSome?_eq_some h
  exact ⟨i, List.mem_range.mp hi, hp⟩

theorem searchUp_none {α : Type} {n : Nat} {p : Nat → Option α} (h : searchUp n p = none) {i : Nat}
    (hi : i < n) : p i = none :=
  List.findSome?_eq_none_iff.mp h i (List.mem_range.mpr hi)

theorem firstFree_spec {slot : Nat} (h : c.firstFree = some slot) :
    slot < c.slotCount ∧ (c.entries slot).state ≠ .live := by
  obtain ⟨i, hi, hp⟩ := searchUp_some h
  split at hp
  · rename_i hfree
    cases hp
    exact ⟨hi, hfree⟩
  · cases hp

theorem removeSlot_guest {k : Continuation} (h : ∀ i, i < c.slotCount → c.cells i ≠ .guest k)
    (slot : Nat) : ∀ i, i < c.slotCount → (c.removeSlot slot).1.cells i ≠ .guest k := by
  intro i hi hc
  unfold CodeCache.removeSlot at hc
  by_cases hlive : (c.entries slot).state = .live
  · simp only [ne_eq, hlive, not_true_eq_false, if_false, CodeCache.cells,
      CodeCache.setEntry] at hc
    by_cases he : i = slot
    · subst he
      rw [Function.update_self] at hc
      cases hc
    · rw [Function.update_of_ne he] at hc
      exact h i hi hc
  · simp only [ne_eq, hlive, not_false_eq_true, if_true] at hc
    exact h i hi hc

theorem makeRoomFrom_guest {k : Continuation} (h : ∀ i, i < c.slotCount → c.cells i ≠ .guest k)
    (codeSize fuel : Nat) : ∀ i, i < c.slotCount →
    (CodeCache.makeRoomFrom codeSize fuel c).1.cells i ≠ .guest k := by
  induction fuel generalizing c with
  | zero => exact h
  | succ fuel ih =>
    unfold CodeCache.makeRoomFrom
    split
    · cases he : c.evictLru with
      | none => exact h
      | some r =>
        obtain ⟨slot, -, hr⟩ := Option.map_eq_some_iff.mp he
        have hguest := removeSlot_guest h slot
        have hlimits := removeSlot_limits c slot
        rw [hr] at hguest hlimits
        rw [← hlimits.1] at hguest ⊢
        exact ih hguest
    · exact h

theorem makeRoom_guest {k : Continuation} (h : ∀ i, i < c.slotCount → c.cells i ≠ .guest k)
    (codeSize : Nat) : ∀ i, i < c.slotCount → (c.makeRoom codeSize).1.cells i ≠ .guest k :=
  makeRoomFrom_guest h codeSize c.count

theorem CodeCache.Valid.storeContinuation (hv : c.Valid m) (k : Continuation)
    (prologueCount : Nat) (native : NativeFunction) (registered : Bool) :
    let r := c.storeContinuation k prologueCount native registered
    r.1.Valid (replayFrom m r.2.1) := by
  unfold CodeCache.storeContinuation
  split
  · exact hv
  cases hf : c.findContinuation k with
  | some slot => exact hv.touchEntry slot
  | none =>
    simp only
    split
    · exact hv
    have hguest : ∀ i, i < c.slotCount → c.cells i ≠ .guest k := by
      intro i hi hc
      have := searchUp_none hf hi
      rw [if_pos (CacheEntry.cell_eq_guest.mp hc)] at this
      cases this
    obtain ⟨hv', hlimits, -⟩ := hv.makeRoom native.codeSize
    have hguest' := makeRoom_guest hguest native.codeSize
    generalize c.makeRoom native.codeSize = room at *
    obtain ⟨c', evicted⟩ := room
    simp only at hv' hlimits hguest' ⊢
    cases hfull : c'.full native.codeSize with
    | true =>
      simp only [if_true]
      exact hv'
    | false =>
      simp only [Bool.false_eq_true, if_false]
      cases hslot : c'.firstFree with
      | none => exact hv'
      | some slot =>
        obtain ⟨hlt, hfree⟩ := firstFree_spec hslot
        have hold : ∀ key f, c'.cells slot ≠ .item key f := by
          intro key f hc
          exact hfree (CacheEntry.cell_eq_item.mp hc).1
        have hcell : (continuationEntry c' (c'.entries slot) k prologueCount native).cell =
            .guest k := rfl
        simp only [replayFrom_append]
        refine (hv'.insert hlt hfree rfl hfull ?_ ?_ hv'.null (fun _ => rfl) (fun _ => rfl)).1
        · rw [hcell]
          refine hv'.searchable.insert_guest ?_
          intro i hi
          rw [hlimits.1] at hi
          exact hguest' i hi
        · rw [hcell]
          exact hv'.represents.other hold (by simp)

theorem CodeCache.Valid.perform (hv : c.Valid m) (op : CacheOp) :
    (c.perform op).1.Valid (replayFrom m (c.perform op).2) := by
  cases op with
  | lookup key => exact (hv.lookup key).1
  | compile key compiler registered => exact hv.compile key compiler registered
  | storeContinuation k prologueCount native registered =>
    exact hv.storeContinuation k prologueCount native registered
  | lookupContinuation k =>
    simp only [CodeCache.perform, CodeCache.lookupContinuation]
    cases c.findContinuation k with
    | none => exact hv
    | some slot => exact hv.touchEntry slot
  | attachEntryHandle key handle kind argumentCount targetIdentity =>
    exact hv.attachEntryHandle key handle kind argumentCount targetIdentity
  | invalidate key => exact hv.invalidate key
  | clear => exact hv.clear

def CodeCache.logged (s : CodeCache × List CacheEvent) (op : CacheOp) :
    CodeCache × List CacheEvent :=
  ((s.1.perform op).1, s.2 ++ (s.1.perform op).2)

def CodeCache.run (c : CodeCache) (ops : List CacheOp) : CodeCache × List CacheEvent :=
  ops.foldl CodeCache.logged (c, [])

theorem CodeCache.Valid.run (hv : c.Valid (fun _ => none)) (ops : List CacheOp) :
    (c.run ops).1.Valid (replay (c.run ops).2) := by
  have hinv : ∀ s : CodeCache × List CacheEvent, s.1.Valid (replay s.2) →
      (ops.foldl CodeCache.logged s).1.Valid (replay (ops.foldl CodeCache.logged s).2) := by
    induction ops with
    | nil => exact fun s hs => hs
    | cons op ops ih =>
      intro s hs
      refine ih (CodeCache.logged s op) ?_
      simp only [CodeCache.logged, replay, replayFrom_append]
      exact hs.perform op
  exact hinv (c, []) hv

end

theorem nextPow2From_spec {value fuel k : Nat} :
    nextPow2From value fuel (2 ^ k) = 0 ∨ ∃ k', nextPow2From value fuel (2 ^ k) = 2 ^ k' := by
  induction fuel generalizing k with
  | zero => exact .inr ⟨k, rfl⟩
  | succ fuel ih =>
    unfold nextPow2From
    split
    · split
      · exact .inl rfl
      · rw [← Nat.pow_succ]
        exact ih
    · exact .inr ⟨k, rfl⟩

theorem nextPow2_spec (value : Nat) : nextPow2 value = 0 ∨ ∃ k, nextPow2 value = 2 ^ k := by
  unfold nextPow2
  split
  · exact .inl rfl
  · exact nextPow2From_spec (k := 3)

theorem create_valid {maximumEntries maximumCodeBytes : Nat} {c : CodeCache}
    (h : CodeCache.create maximumEntries maximumCodeBytes = some c) :
    c.Valid (fun _ => none) := by
  unfold CodeCache.create at h
  simp only at h
  generalize hslots : nextPow2 _ = slots at h
  by_cases hzero : slots = 0
  · rw [if_pos hzero] at h
    cases h
  rw [if_neg hzero] at h
  simp only [Option.some.injEq] at h
  subst h
  constructor
  · rw [← hslots] at hzero ⊢
    exact (nextPow2_spec _).resolve_left hzero
  · exact searchable_empty
  · exact represents_empty
  · rfl
  · intro i _ hk
    cases hk
  · intro hne
    exact absurd rfl hne
  · exact (Finset.sum_const_zero).symm
  · exact (Finset.sum_const_zero).symm
  · exact Nat.zero_le _
  · exact Nat.zero_le _

end TurboJS.Runtime
