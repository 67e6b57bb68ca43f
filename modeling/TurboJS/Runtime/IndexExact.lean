import TurboJS.Runtime.DependencyIndex

namespace TurboJS.Runtime
open IR Foundation

/-! The reverse indexes lead to every call site of the live functions. -/

namespace LinkedCache

structure Indexed (l : LinkedCache) : Prop where
  dependencies : l.dependencies.WellLinked (dependencyHash l.dependencyBucketCount)
  repatches : l.repatches.WellLinked (identityHash l.repatchBucketCount)
  target : ∀ slot, (l.cache.entries slot).state = .live → ∀ site ∈ l.sites slot, ∀ h,
    site.target = some h → h ∈ l.dependencies.keysOf slot
  identity : ∀ slot, (l.cache.entries slot).state = .live → ∀ site ∈ l.sites slot,
    site.targetIdentity ≠ 0 → site.targetIdentity ∈ l.repatches.keysOf slot
  dependency_owner : ∀ slot, l.dependencies.owned slot ≠ [] →
    slot < l.cache.slotCount ∧ (l.cache.entries slot).state = .live
  repatch_owner : ∀ slot, l.repatches.owned slot ≠ [] →
    slot < l.cache.slotCount ∧ (l.cache.entries slot).state = .live

section

variable {l : LinkedCache} {slot : Nat}

theorem removeSlot_cache (l : LinkedCache) (slot : Nat) :
    (l.removeSlot slot).cache = (l.cache.removeSlot slot).1 := by
  unfold removeSlot
  split
  · rename_i hdead
    unfold CodeCache.removeSlot
    simp only [if_pos hdead]
  · rfl

theorem makeRoomFrom_cache (codeSize fuel : Nat) (l : LinkedCache) :
    (makeRoomFrom codeSize fuel l).cache = (CodeCache.makeRoomFrom codeSize fuel l.cache).1 := by
  induction fuel generalizing l with
  | zero => rfl
  | succ fuel ih =>
    unfold makeRoomFrom CodeCache.makeRoomFrom
    by_cases hfull : l.cache.count ≠ 0 ∧ l.cache.full codeSize
    · rw [if_pos hfull, if_pos hfull]
      simp only [evictLru, CodeCache.evictLru]
      cases l.cache.victim with
      | none => rfl
      | some slot =>
        simp only [Option.map_some]
        rw [ih, removeSlot_cache]
    · rw [if_neg hfull, if_neg hfull]

theorem makeRoom_cache (l : LinkedCache) (codeSize : Nat) :
    (l.makeRoom codeSize).cache = (l.cache.makeRoom codeSize).1 :=
  makeRoomFrom_cache codeSize l.cache.count l

theorem insert_cache (l : LinkedCache) (slot : Nat) (e : CacheEntry) (sites : List LinkedSite) :
    (l.insert slot e sites).cache = (l.cache.insert slot e true).1 := rfl

theorem compile_cache (l : LinkedCache) (key : Word) (compiler : Compiler)
    (sites : List LinkedSite) :
    (l.compile key compiler sites).cache = (l.cache.compile key compiler true).1 := by
  unfold compile CodeCache.compile
  by_cases hkey : key = 0
  · rw [if_pos hkey, if_pos hkey]
  rw [if_neg hkey, if_neg hkey]
  cases l.cache.findLive key with
  | some slot => rfl
  | none =>
    cases compiler.result with
    | error status => rfl
    | ok native =>
      simp only
      by_cases hsize : native.codeSize > l.cache.maximumCodeBytes
      · rw [if_pos hsize, if_pos hsize]
      rw [if_neg hsize, if_neg hsize]
      simp only [makeRoom_cache]
      by_cases hfull : (l.cache.makeRoom native.codeSize).1.full native.codeSize
      · rw [if_pos hfull, if_pos hfull]
        exact makeRoom_cache l native.codeSize
      rw [if_neg hfull, if_neg hfull]
      cases (l.cache.makeRoom native.codeSize).1.findSlot key true with
      | none => exact makeRoom_cache l native.codeSize
      | some slot =>
        simp only [insert_cache, makeRoom_cache, if_true]

theorem storeContinuation_cache (l : LinkedCache) (k : Continuation) (prologueCount : Nat)
    (native : NativeFunction) (sites : List LinkedSite) :
    (l.storeContinuation k prologueCount native sites).cache =
      (l.cache.storeContinuation k prologueCount native true).1 := by
  unfold storeContinuation CodeCache.storeContinuation
  by_cases hid : k.functionId = 0
  · rw [if_pos hid, if_pos hid]
  rw [if_neg hid, if_neg hid]
  cases l.cache.findContinuation k with
  | some slot => rfl
  | none =>
    simp only
    by_cases hsize : native.codeSize > l.cache.maximumCodeBytes
    · rw [if_pos hsize, if_pos hsize]
    rw [if_neg hsize, if_neg hsize]
    simp only [makeRoom_cache]
    by_cases hfull : (l.cache.makeRoom native.codeSize).1.full native.codeSize
    · rw [if_pos hfull, if_pos hfull]
      exact makeRoom_cache l native.codeSize
    rw [if_neg hfull, if_neg hfull]
    cases (l.cache.makeRoom native.codeSize).1.firstFree with
    | none => exact makeRoom_cache l native.codeSize
    | some slot => simp only [insert_cache, makeRoom_cache]

theorem repatchOwner_cache (targetIdentity handle : Nat) (kind : EntryKind)
    (argumentCount : Nat) (l : LinkedCache) (owner : Nat) :
    (repatchOwner targetIdentity handle kind argumentCount l owner).cache = l.cache := by
  unfold repatchOwner
  simp only
  split
  · rfl
  · rfl

theorem repatchIdentityDependents_cache (l : LinkedCache) (targetIdentity handle : Nat)
    (kind : EntryKind) (argumentCount : Nat) :
    (l.repatchIdentityDependents targetIdentity handle kind argumentCount).cache = l.cache := by
  unfold repatchIdentityDependents
  split
  · rfl
  · simp only
    generalize List.map _ _ = owners
    induction owners generalizing l with
    | nil => rfl
    | cons owner owners ih =>
      rw [List.foldl_cons, ih, repatchOwner_cache]

theorem invalidate_cache (l : LinkedCache) (key : Word) :
    (l.invalidate key).cache = (l.cache.invalidate key).1 := by
  unfold invalidate CodeCache.invalidate
  by_cases hkey : key = 0
  · rw [if_pos hkey, if_pos hkey]
  rw [if_neg hkey, if_neg hkey]
  cases l.cache.findSlot key false with
  | none => rfl
  | some slot => exact removeSlot_cache l slot

def Narrows (sites sites' : Nat → List LinkedSite) : Prop :=
  ∀ slot, ∀ site' ∈ sites' slot, ∃ site ∈ sites slot,
    site'.targetIdentity = site.targetIdentity ∧
      (site'.target = site.target ∨ site'.target = none)

theorem Narrows.refl (sites : Nat → List LinkedSite) : Narrows sites sites :=
  fun _ site h => ⟨site, h, rfl, .inl rfl⟩

theorem invalidateClutchTarget_idem (target : Nat) (sites : List LinkedSite) :
    invalidateClutchTarget target (invalidateClutchTarget target sites) =
      invalidateClutchTarget target sites := by
  rw [invalidateClutchTarget, invalidateClutchTarget, List.map_map]
  refine List.map_congr_left fun site _ => ?_
  by_cases h : site.target = some target
  · simp [h]
  · simp [h]

theorem invalidateClutchTarget_absent {target : Nat} {sites : List LinkedSite}
    (h : ∀ site ∈ sites, site.target ≠ some target) :
    invalidateClutchTarget target sites = sites := by
  refine (List.map_congr_left fun site hsite => ?_).trans (List.map_id sites)
  exact if_neg (h site hsite)

theorem invalidateNodes_eq (c : CodeCache) (target slot : Nat)
    (nodes : List (IndexNode Nat Nat)) (sites : Nat → List LinkedSite) :
    nodes.foldl (invalidateNode c target) sites slot =
      if (c.entries slot).state = .live ∧ ∃ node ∈ nodes, node.key = target ∧ node.owner = slot then
        invalidateClutchTarget target (sites slot)
      else sites slot := by
  induction nodes generalizing sites with
  | nil => simp
  | cons first rest ih =>
    rw [List.foldl_cons, ih, invalidateNode]
    by_cases hfirst : first.key = target ∧ (c.entries first.owner).state = .live
    · rw [if_pos hfirst]
      by_cases hslot : slot = first.owner
      · subst hslot
        rw [Function.update_self, invalidateClutchTarget_idem, ite_self, if_pos]
        exact ⟨hfirst.2, first, List.mem_cons_self, hfirst.1, rfl⟩
      · rw [Function.update_of_ne hslot]
        simp [Ne.symm hslot]
    · rw [if_neg hfirst]
      have hsame : ((c.entries slot).state = .live ∧
          ∃ node ∈ first :: rest, node.key = target ∧ node.owner = slot) ↔
          ((c.entries slot).state = .live ∧
            ∃ node ∈ rest, node.key = target ∧ node.owner = slot) := by
        refine and_congr_right fun hlive => ?_
        simp only [List.mem_cons, exists_eq_or_imp]
        refine or_iff_right ?_
        rintro ⟨hkey, rfl⟩
        exact hfirst ⟨hkey, hlive⟩
      simp only [hsame]

theorem Indexed.invalidated (h : l.Indexed) (target : Nat)
    (hlive : (l.cache.entries slot).state = .live) :
    (l.invalidateIndexedDependents target).sites slot =
      invalidateClutchTarget target (l.sites slot) := by
  simp only [invalidateIndexedDependents, invalidateNodes_eq]
  split
  · rfl
  · rename_i hnone
    refine (invalidateClutchTarget_absent ?_).symm
    intro site hsite htarget
    have hkey := h.target slot hlive site hsite target htarget
    obtain ⟨node, ⟨hnode, howner, hnodekey⟩, -⟩ := h.dependencies.exists_unique_node hkey
    exact hnone ⟨hlive, node, hnode, hnodekey, howner⟩

theorem invalidateClutchTarget_narrows {target : Nat} {sites : List LinkedSite}
    {site' : LinkedSite} (h : site' ∈ invalidateClutchTarget target sites) :
    ∃ site ∈ sites, site'.targetIdentity = site.targetIdentity ∧
      (site'.target = site.target ∨ site'.target = none) := by
  obtain ⟨site, hsite, rfl⟩ := List.mem_map.mp h
  split
  · exact ⟨site, hsite, rfl, .inr rfl⟩
  · exact ⟨site, hsite, rfl, .inl rfl⟩

theorem invalidateIndexedDependents_narrows (l : LinkedCache) (target : Nat) :
    Narrows l.sites (l.invalidateIndexedDependents target).sites := by
  intro slot site' hsite'
  simp only [invalidateIndexedDependents, invalidateNodes_eq] at hsite'
  split at hsite'
  · exact invalidateClutchTarget_narrows hsite'
  · exact ⟨site', hsite', rfl, .inl rfl⟩

theorem Indexed.withCache (h : l.Indexed) {c : CodeCache}
    (hslots : c.slotCount = l.cache.slotCount)
    (hstate : ∀ i, (c.entries i).state = (l.cache.entries i).state) :
    Indexed { l with cache := c } := by
  refine ⟨h.dependencies, h.repatches, ?_, ?_, ?_, ?_⟩
  · intro slot hlive
    exact h.target slot ((hstate slot).symm.trans hlive)
  · intro slot hlive
    exact h.identity slot ((hstate slot).symm.trans hlive)
  · intro slot howned
    rw [hstate, hslots]
    exact h.dependency_owner slot howned
  · intro slot howned
    rw [hstate, hslots]
    exact h.repatch_owner slot howned

theorem touchEntry_state (c : CodeCache) (slot i : Nat) :
    ((c.touchEntry slot).entries i).state = (c.entries i).state := by
  simp only [CodeCache.touchEntry, CodeCache.setEntry]
  by_cases he : i = slot
  · subst he
    rw [Function.update_self]
  · rw [Function.update_of_ne he]

theorem Indexed.touchEntry (h : l.Indexed) (slot : Nat) :
    Indexed { l with cache := l.cache.touchEntry slot } :=
  h.withCache rfl (touchEntry_state l.cache slot)

theorem unregister_owned {hash : Nat → Nat} {ix : ReverseIndex Nat Nat} (h : ix.WellLinked hash)
    (slot : Nat) {i : Nat} (hne : i ≠ slot) :
    (ix.unregister hash slot).owned i = ix.owned i := by
  rw [(h.unregister slot).2, Function.update_of_ne hne]

theorem unregister_nonempty {hash : Nat → Nat} {ix : ReverseIndex Nat Nat}
    (h : ix.WellLinked hash) {slot i : Nat} (howned : (ix.unregister hash slot).owned i ≠ []) :
    i ≠ slot ∧ ix.owned i ≠ [] := by
  rw [(h.unregister slot).2] at howned
  by_cases he : i = slot
  · subst he
    rw [Function.update_self] at howned
    exact absurd rfl howned
  · rw [Function.update_of_ne he] at howned
    exact ⟨he, howned⟩

theorem detach_spec (l : LinkedCache) (slot : Nat) :
    Narrows l.sites (l.detach slot).sites ∧ (l.detach slot).cache = l.cache ∧
      (l.detach slot).dependencies =
        l.dependencies.unregister (dependencyHash l.dependencyBucketCount) slot ∧
      (l.detach slot).repatches =
        l.repatches.unregister (identityHash l.repatchBucketCount) slot ∧
      (l.detach slot).dependencyBucketCount = l.dependencyBucketCount ∧
      (l.detach slot).repatchBucketCount = l.repatchBucketCount := by
  unfold detach
  simp only
  cases (l.cache.entries slot).entryHandle with
  | none => exact ⟨.refl _, rfl, rfl, rfl, rfl, rfl⟩
  | some handle =>
    simp only
    split
    · exact ⟨invalidateIndexedDependents_narrows l handle, rfl, rfl, rfl, rfl, rfl⟩
    · exact ⟨.refl _, rfl, rfl, rfl, rfl, rfl⟩

theorem Indexed.removeSlot (h : l.Indexed) (slot : Nat) : (l.removeSlot slot).Indexed := by
  have hslots : (l.removeSlot slot).cache.slotCount = l.cache.slotCount := by
    rw [removeSlot_cache]
    exact (removeSlot_limits l.cache slot).1
  by_cases hlive : (l.cache.entries slot).state = .live
  · have hentries : (l.removeSlot slot).cache.entries =
        Function.update l.cache.entries slot { state := .tombstone } := by
      rw [removeSlot_cache]
      exact removeSlot_entries hlive
    obtain ⟨hnarrows, -, hdep, hrep, hbuckets, hbuckets'⟩ := detach_spec l slot
    have hkept : ∀ i, ((l.removeSlot slot).cache.entries i).state = .live →
        i ≠ slot ∧ (l.cache.entries i).state = .live := by
      intro i hi
      rw [hentries] at hi
      by_cases he : i = slot
      · subst he
        rw [Function.update_self] at hi
        cases hi
      · rw [Function.update_of_ne he] at hi
        exact ⟨he, hi⟩
    have hstill : ∀ i, i ≠ slot → (l.cache.entries i).state = .live →
        ((l.removeSlot slot).cache.entries i).state = .live := by
      intro i he hi
      rw [hentries, Function.update_of_ne he]
      exact hi
    have hsites : ∀ i, i ≠ slot → ∀ site ∈ (l.removeSlot slot).sites i,
        ∃ site₀ ∈ l.sites i, site.targetIdentity = site₀.targetIdentity ∧
          (site.target = site₀.target ∨ site.target = none) := by
      intro i he site hsite
      simp only [LinkedCache.removeSlot, ne_eq, hlive, not_true_eq_false, if_false,
        Function.update_of_ne he] at hsite
      exact hnarrows i site hsite
    have hdep' : (l.removeSlot slot).dependencies =
        l.dependencies.unregister (dependencyHash l.dependencyBucketCount) slot := by
      simp only [LinkedCache.removeSlot, ne_eq, hlive, not_true_eq_false, if_false, hdep]
    have hrep' : (l.removeSlot slot).repatches =
        l.repatches.unregister (identityHash l.repatchBucketCount) slot := by
      simp only [LinkedCache.removeSlot, ne_eq, hlive, not_true_eq_false, if_false, hrep]
    have hcount : (l.removeSlot slot).dependencyBucketCount = l.dependencyBucketCount := by
      simp only [LinkedCache.removeSlot, ne_eq, hlive, not_true_eq_false, if_false, hbuckets]
    have hcount' : (l.removeSlot slot).repatchBucketCount = l.repatchBucketCount := by
      simp only [LinkedCache.removeSlot, ne_eq, hlive, not_true_eq_false, if_false, hbuckets']
    refine ⟨?_, ?_, ?_, ?_, ?_, ?_⟩
    · rw [hdep', hcount]
      exact (h.dependencies.unregister slot).1
    · rw [hrep', hcount']
      exact (h.repatches.unregister slot).1
    · intro i hi site hsite target htarget
      obtain ⟨hne, hi₀⟩ := hkept i hi
      obtain ⟨site₀, hsite₀, -, hsame⟩ := hsites i hne site hsite
      have htarget₀ : site₀.target = some target := by
        rcases hsame with hsame | hsame
        · exact hsame.symm.trans htarget
        · rw [hsame] at htarget
          cases htarget
      rw [ReverseIndex.keysOf, hdep', unregister_owned h.dependencies slot hne]
      exact h.target i hi₀ site₀ hsite₀ target htarget₀
    · intro i hi site hsite hid
      obtain ⟨hne, hi₀⟩ := hkept i hi
      obtain ⟨site₀, hsite₀, hsame, -⟩ := hsites i hne site hsite
      rw [hsame] at hid ⊢
      rw [ReverseIndex.keysOf, hrep', unregister_owned h.repatches slot hne]
      exact h.identity i hi₀ site₀ hsite₀ hid
    · intro i howned
      rw [hdep'] at howned
      obtain ⟨hne, howned₀⟩ := unregister_nonempty h.dependencies howned
      obtain ⟨hlt, hi⟩ := h.dependency_owner i howned₀
      exact ⟨hslots ▸ hlt, hstill i hne hi⟩
    · intro i howned
      rw [hrep'] at howned
      obtain ⟨hne, howned₀⟩ := unregister_nonempty h.repatches howned
      obtain ⟨hlt, hi⟩ := h.repatch_owner i howned₀
      exact ⟨hslots ▸ hlt, hstill i hne hi⟩
  · have hsame : l.removeSlot slot = l := by
      unfold LinkedCache.removeSlot
      rw [if_pos hlive]
    rw [hsame]
    exact h

theorem Indexed.registered (h : l.Indexed) {c : CodeCache} {slot : Nat} (sites : List LinkedSite)
    (hslots : c.slotCount = l.cache.slotCount) (hlt : slot < c.slotCount)
    (hlive : (c.entries slot).state = .live)
    (hstate : ∀ i, i ≠ slot → (c.entries i).state = (l.cache.entries i).state) :
    Indexed (registerEntryDependencies
      { l with cache := c, sites := Function.update l.sites slot sites } slot) := by
  have hself : (Function.update l.sites slot sites) slot = sites := Function.update_self ..
  obtain ⟨hdep, hdep_other, hdep_keys⟩ := h.dependencies.register slot (sites.filterMap (·.target))
  obtain ⟨hrep, hrep_other, hrep_keys⟩ := h.repatches.register slot
    ((sites.map (·.targetIdentity)).filter (· ≠ 0))
  refine ⟨?_, ?_, ?_, ?_, ?_, ?_⟩
  · simp only [registerEntryDependencies, registerEntryRepatchDependencies, hself]
    exact hdep
  · simp only [registerEntryDependencies, registerEntryRepatchDependencies, hself]
    exact hrep
  · intro i hi site hsite target htarget
    simp only [registerEntryDependencies, registerEntryRepatchDependencies, hself] at hi hsite ⊢
    by_cases he : i = slot
    · subst he
      rw [hself] at hsite
      exact (hdep_keys target).mpr (List.mem_filterMap.mpr ⟨site, hsite, htarget⟩)
    · rw [Function.update_of_ne he] at hsite
      rw [ReverseIndex.keysOf, hdep_other i he]
      exact h.target i ((hstate i he).symm.trans hi) site hsite target htarget
  · intro i hi site hsite hid
    simp only [registerEntryDependencies, registerEntryRepatchDependencies, hself] at hi hsite ⊢
    by_cases he : i = slot
    · subst he
      rw [hself] at hsite
      refine (hrep_keys site.targetIdentity).mpr (List.mem_filter.mpr ⟨?_, by simpa using hid⟩)
      exact List.mem_map_of_mem hsite
    · rw [Function.update_of_ne he] at hsite
      rw [ReverseIndex.keysOf, hrep_other i he]
      exact h.identity i ((hstate i he).symm.trans hi) site hsite hid
  · intro i howned
    simp only [registerEntryDependencies, registerEntryRepatchDependencies, hself] at howned ⊢
    by_cases he : i = slot
    · subst he
      exact ⟨hlt, hlive⟩
    · rw [hdep_other i he] at howned
      rw [hslots, hstate i he]
      exact h.dependency_owner i howned
  · intro i howned
    simp only [registerEntryDependencies, registerEntryRepatchDependencies, hself] at howned ⊢
    by_cases he : i = slot
    · subst he
      exact ⟨hlt, hlive⟩
    · rw [hrep_other i he] at howned
      rw [hslots, hstate i he]
      exact h.repatch_owner i howned

theorem Indexed.makeRoomFrom (codeSize fuel : Nat) (h : l.Indexed) :
    (makeRoomFrom codeSize fuel l).Indexed := by
  induction fuel generalizing l with
  | zero => exact h
  | succ fuel ih =>
    unfold LinkedCache.makeRoomFrom
    split
    · cases hevict : l.evictLru with
      | none => exact h
      | some l' =>
        obtain ⟨slot, -, rfl⟩ := Option.map_eq_some_iff.mp hevict
        exact ih (h.removeSlot slot)
    · exact h

theorem Indexed.makeRoom (h : l.Indexed) (codeSize : Nat) : (l.makeRoom codeSize).Indexed :=
  h.makeRoomFrom codeSize l.cache.count

theorem Indexed.insert (h : l.Indexed) {e : CacheEntry} (hlt : slot < l.cache.slotCount)
    (hlive : e.state = .live) (sites : List LinkedSite) : (l.insert slot e sites).Indexed := by
  refine h.registered sites rfl hlt ?_ ?_
  · simpa [CodeCache.insert, CodeCache.setEntry] using hlive
  · intro i hi
    simp [CodeCache.insert, CodeCache.setEntry, Function.update_of_ne hi]

theorem Indexed.compile {m : Word → Option NativeFunction} (h : l.Indexed) (hv : l.cache.Valid m)
    (key : Word) (compiler : Compiler) (sites : List LinkedSite) :
    (l.compile key compiler sites).Indexed := by
  unfold LinkedCache.compile
  by_cases hkey : key = 0
  · rw [if_pos hkey]
    exact h
  rw [if_neg hkey]
  have hfind := hv.findLive_spec hkey
  cases hf : l.cache.findLive key with
  | some slot => exact h.touchEntry slot
  | none =>
    rw [hf] at hfind
    cases compiler.result with
    | error status => exact h
    | ok native =>
      simp only
      split
      · exact h
      have hroom := h.makeRoom native.codeSize
      obtain ⟨hv', -, hshrinks⟩ := hv.makeRoom native.codeSize
      rw [← makeRoom_cache] at hv'
      generalize l.makeRoom native.codeSize = l' at *
      split
      · exact hroom
      cases hslot : l'.cache.findSlot key true with
      | none => exact hroom
      | some slot =>
        obtain ⟨hlt, -, -⟩ := hv'.findSlot_insertable hkey (hshrinks key hfind) hslot
        exact (hroom.insert hlt rfl sites).withCache rfl fun _ => rfl

theorem Indexed.storeContinuation (h : l.Indexed) (k : Continuation) (prologueCount : Nat)
    (native : NativeFunction) (sites : List LinkedSite) :
    (l.storeContinuation k prologueCount native sites).Indexed := by
  unfold LinkedCache.storeContinuation
  split
  · exact h
  cases l.cache.findContinuation k with
  | some slot => exact h.touchEntry slot
  | none =>
    simp only
    split
    · exact h
    have hroom := h.makeRoom native.codeSize
    generalize l.makeRoom native.codeSize = l' at *
    split
    · exact hroom
    cases hslot : l'.cache.firstFree with
    | none => exact hroom
    | some slot => exact hroom.insert (firstFree_spec hslot).1 rfl sites

theorem Indexed.repatchOwner (h : l.Indexed) (targetIdentity handle : Nat) (kind : EntryKind)
    (argumentCount : Nat) {owner : Nat} (hlt : owner < l.cache.slotCount)
    (hlive : (l.cache.entries owner).state = .live) :
    (LinkedCache.repatchOwner targetIdentity handle kind argumentCount l owner).Indexed := by
  unfold LinkedCache.repatchOwner
  simp only
  split
  · exact h.registered _ rfl hlt hlive fun _ _ => rfl
  · exact h

theorem Indexed.repatchIdentityDependents (h : l.Indexed) (targetIdentity handle : Nat)
    (kind : EntryKind) (argumentCount : Nat) :
    (l.repatchIdentityDependents targetIdentity handle kind argumentCount).Indexed := by
  unfold LinkedCache.repatchIdentityDependents
  split
  · exact h
  -- The owners are live; the patches do not change the cache.
  have howners : ∀ owners : List Nat, ∀ l : LinkedCache, l.Indexed →
      (∀ o ∈ owners, o < l.cache.slotCount ∧ (l.cache.entries o).state = .live) →
      (owners.foldl (LinkedCache.repatchOwner targetIdentity handle kind argumentCount) l).Indexed := by
    intro owners
    induction owners with
    | nil => exact fun _ hl _ => hl
    | cons owner owners ih =>
      intro l hl hall
      obtain ⟨hlt, hlive⟩ := hall owner List.mem_cons_self
      refine ih _ (hl.repatchOwner targetIdentity handle kind argumentCount hlt hlive) ?_
      intro o ho
      rw [repatchOwner_cache]
      exact hall o (List.mem_cons_of_mem owner ho)
  refine howners _ l h ?_
  intro o ho
  obtain ⟨node, hnode, rfl⟩ := List.mem_map.mp ho
  have hmem := (h.repatches.mem_bucket _ node).mp (List.mem_of_mem_filter hnode)
  exact h.repatch_owner node.owner (List.ne_nil_of_mem hmem.2)

theorem Indexed.attachEntryHandle (h : l.Indexed) (key : Word) (handle : Nat) (kind : EntryKind)
    (argumentCount targetIdentity : Nat) :
    (l.attachEntryHandle key handle kind argumentCount targetIdentity).Indexed := by
  unfold LinkedCache.attachEntryHandle
  simp only
  split
  · refine Indexed.repatchIdentityDependents (h.withCache ?_ ?_) targetIdentity handle kind
      argumentCount
    · unfold CodeCache.attachEntryHandle
      split
      · rfl
      · cases l.cache.findLive key with
        | none => rfl
        | some slot => rfl
    · intro i
      unfold CodeCache.attachEntryHandle
      split
      · rfl
      · cases l.cache.findLive key with
        | none => rfl
        | some slot =>
          simp only [CodeCache.setEntry]
          by_cases he : i = slot
          · subst he
            rw [Function.update_self]
          · rw [Function.update_of_ne he]
  · exact h

theorem Indexed.invalidate (h : l.Indexed) (key : Word) : (l.invalidate key).Indexed := by
  unfold LinkedCache.invalidate
  split
  · exact h
  · cases l.cache.findSlot key false with
    | none => exact h
    | some slot => exact h.removeSlot slot

theorem Indexed.clear_loop {m : Word → Option NativeFunction} (h : l.Indexed)
    (hv : l.cache.Valid m) :
    let l' := forUp l.cache.slotCount (fun i l => l.removeSlot i) l
    l'.Indexed ∧ ∀ i, i < l'.cache.slotCount → (l'.cache.entries i).state ≠ .live := by
  obtain ⟨-, hlimits, hdead⟩ := Runtime.clear_loop hv
  have hloop : ∀ n, (forUp n (fun i (l : LinkedCache) => l.removeSlot i) l).Indexed ∧
      (forUp n (fun i (l : LinkedCache) => l.removeSlot i) l).cache =
        (forUp n clearSlot (l.cache, [])).1 := by
    intro n
    induction n with
    | zero => exact ⟨h, rfl⟩
    | succ n ih =>
      rw [forUp_succ, forUp_succ]
      refine ⟨ih.1.removeSlot n, ?_⟩
      rw [removeSlot_cache, ih.2]
      rfl
  refine ⟨(hloop l.cache.slotCount).1, ?_⟩
  intro i hi
  rw [(hloop l.cache.slotCount).2] at hi ⊢
  rw [hlimits.1] at hi
  exact hdead i hi

theorem Indexed.clear {m : Word → Option NativeFunction} (h : l.Indexed) (hv : l.cache.Valid m) :
    l.clear.Indexed := by
  obtain ⟨hend, hdead⟩ := h.clear_loop hv
  unfold LinkedCache.clear
  simp only
  generalize forUp l.cache.slotCount (fun i (l : LinkedCache) => l.removeSlot i) l = l' at *
  have hnone : ∀ i, l'.repatches.owned i = [] := by
    intro i
    by_contra hne
    obtain ⟨hlt, hlive⟩ := hend.repatch_owner i hne
    exact hdead i hlt hlive
  have hbuckets : ∀ b, l'.repatches.buckets b = [] := by
    intro b
    refine List.eq_nil_iff_forall_not_mem.mpr ?_
    intro node hnode
    have hmem := ((hend.repatches.mem_bucket b node).mp hnode).2
    rw [hnone] at hmem
    cases hmem
  refine ⟨?_, ?_, ?_, ?_, ?_, ?_⟩
  · constructor <;> simp [ReverseIndex.keysOf]
  · constructor <;> simp [ReverseIndex.keysOf, hbuckets]
  · intro i hi site hsite
    cases hsite
  · intro i hi site hsite
    cases hsite
  · intro i howned
    exact absurd rfl howned
  · intro i howned
    exact absurd rfl howned

theorem Indexed.lookup (h : l.Indexed) (key : Word) :
    Indexed { l with cache := (l.cache.lookup key).1 } := by
  unfold CodeCache.lookup
  split
  · exact h
  split
  · cases l.cache.findLive key with
    | none => exact h
    | some slot => exact h.touchEntry slot
  · cases l.cache.findLive key with
    | none => exact h
    | some slot => exact h.withCache rfl (touchEntry_state l.cache slot)

theorem Indexed.lookupContinuation (h : l.Indexed) (k : Continuation) :
    Indexed { l with cache := (l.cache.lookupContinuation k).1 } := by
  unfold CodeCache.lookupContinuation
  cases l.cache.findContinuation k with
  | none => exact h
  | some slot => exact h.touchEntry slot

theorem attachEntryHandle_cache (l : LinkedCache) (key : Word) (handle : Nat) (kind : EntryKind)
    (argumentCount targetIdentity : Nat) :
    (l.attachEntryHandle key handle kind argumentCount targetIdentity).cache =
      (l.cache.attachEntryHandle key handle kind argumentCount targetIdentity).1 := by
  unfold LinkedCache.attachEntryHandle
  simp only
  split
  · exact repatchIdentityDependents_cache ..
  · rename_i hstatus
    unfold CodeCache.attachEntryHandle at hstatus ⊢
    split
    · rfl
    · rename_i harg
      rw [if_neg harg] at hstatus
      cases hfind : l.cache.findLive key with
      | none => rfl
      | some slot =>
        rw [hfind] at hstatus
        exact absurd rfl hstatus

theorem sound_perform (hv : ∃ m, l.cache.Valid m) (h : l.Indexed) (op : Op) :
    (∃ m, (l.perform op).cache.Valid m) ∧ (l.perform op).Indexed := by
  obtain ⟨m, hv⟩ := hv
  cases op with
  | lookup key => exact ⟨⟨m, (hv.lookup key).1⟩, h.lookup key⟩
  | compile key compiler sites =>
    refine ⟨?_, h.compile hv key compiler sites⟩
    simp only [perform, compile_cache]
    exact ⟨_, hv.compile key compiler true⟩
  | storeContinuation k prologueCount native sites =>
    refine ⟨?_, h.storeContinuation k prologueCount native sites⟩
    simp only [perform, storeContinuation_cache]
    exact ⟨_, hv.storeContinuation k prologueCount native true⟩
  | lookupContinuation k =>
    exact ⟨⟨_, hv.perform (.lookupContinuation k)⟩, h.lookupContinuation k⟩
  | attachEntryHandle key handle kind argumentCount targetIdentity =>
    refine ⟨?_, h.attachEntryHandle key handle kind argumentCount targetIdentity⟩
    simp only [perform, attachEntryHandle_cache]
    exact ⟨m, hv.attachEntryHandle key handle kind argumentCount targetIdentity⟩
  | removeSlot slot =>
    simp only [perform]
    split
    · rename_i hlt
      refine ⟨?_, h.removeSlot slot⟩
      rw [removeSlot_cache]
      exact ⟨_, hv.removeSlot hlt⟩
    · exact ⟨⟨m, hv⟩, h⟩
  | invalidate key =>
    refine ⟨?_, h.invalidate key⟩
    simp only [perform, invalidate_cache]
    exact ⟨_, hv.invalidate key⟩
  | clear => exact ⟨⟨_, hv.clear⟩, h.clear hv⟩

theorem sound_run (hv : ∃ m, l.cache.Valid m) (h : l.Indexed) (ops : List Op) :
    (l.run ops).Indexed := by
  induction ops generalizing l with
  | nil => exact h
  | cons op ops ih =>
    obtain ⟨hv', h'⟩ := sound_perform hv h op
    exact ih hv' h'

theorem create_indexed {maximumEntries maximumCodeBytes : Nat}
    (h : create maximumEntries maximumCodeBytes = some l) :
    (∃ m, l.cache.Valid m) ∧ l.Indexed := by
  obtain ⟨c, hc, rfl⟩ := Option.map_eq_some_iff.mp h
  refine ⟨⟨_, create_valid hc⟩, wellLinked_empty, wellLinked_empty, ?_, ?_, ?_, ?_⟩
  · intro slot _ site hsite
    cases hsite
  · intro slot _ site hsite
    cases hsite
  · intro slot howned
    exact absurd rfl howned
  · intro slot howned
    exact absurd rfl howned

/-- The entry in `slot` publishes its function in `handle`. -/
def Publishes (l : LinkedCache) (slot handle : Nat) : Prop :=
  (l.cache.entries slot).state = .live ∧ (l.cache.entries slot).cacheKind = .function ∧
    (l.cache.entries slot).entryHandle = some handle ∧
    (l.cache.handles handle).function = (l.cache.entries slot).function.map (·.id)

theorem Indexed.detached (h : l.Indexed) {handle i : Nat} (hpub : l.Publishes slot handle)
    (hlive : (l.cache.entries i).state = .live) :
    (l.detach slot).sites i = invalidateClutchTarget handle (l.sites i) := by
  obtain ⟨-, hkind, hhandle, hfunction⟩ := hpub
  have hsites : (l.detach slot).sites = (l.invalidateIndexedDependents handle).sites := by
    unfold detach
    simp only [hhandle, if_pos (And.intro hkind hfunction)]
    rfl
  rw [hsites]
  exact h.invalidated handle hlive

end

end LinkedCache

def calleeAndCaller : List LinkedCache.Op :=
  [.compile 8 ⟨.ok ⟨1, 10⟩, none⟩ [], .attachEntryHandle 8 5 .int32 1 7,
    .compile 16 ⟨.ok ⟨2, 10⟩, none⟩ [⟨some 5, 1, .int32, 1, 7⟩, ⟨some 6, 1, .int32, 1, 0⟩],
    .attachEntryHandle 16 6 .int32 1 0]

end TurboJS.Runtime
