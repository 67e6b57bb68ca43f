import TurboJS.Objects.PropertyCache

namespace TurboJS.Objects
open Foundation

/-! A hit of an inline cache is what a lookup on the object would find, as long as no shape with
several owners is changed in place. -/

def ICEntry.shapes (e : ICEntry) : List Nat := e.ways.map ICWay.shape

def wayHolders (entries : List ICEntry) : List Nat := entries.flatMap ICEntry.shapes

def WayValid (shapes : Nat → Option Shape) (kind : SiteKind) (atom : Nat) (w : ICWay) : Prop :=
  ∃ sh p, shapes w.shape = some sh ∧ findOwnProperty sh atom = some w.propertyIndex ∧
    sh.props[w.propertyIndex]? = some p ∧ kind.caches p.flags = true

structure EntryValid (shapes : Nat → Option Shape) (code : Nat → SiteKind) (e : ICEntry) :
    Prop where
  ways : ∀ w ∈ e.ways, WayValid shapes (code e.bytecodeOffset) e.atom w
  last : ∀ o, e.lastObject = some o → ICWay.mk e.lastShape e.lastPropertyIndex ∈ e.ways

structure CacheSound (code : Nat → Nat → SiteKind) (m : Machine) : Prop where
  accounted : Accounted m.rt.shapes (objectHolders m.rt.objects ++ wayHolders m.entries)
  valid : ∀ j e, m.entries[j]? = some e → EntryValid m.rt.shapes (code (j / icSize)) e

variable {rt rt' : Runtime} {shapes shapes' : Nat → Option Shape} {hs : List Nat}
  {code : Nat → SiteKind} {kind : SiteKind} {e e' : ICEntry} {w : ICWay}
  {a o atom index bytecodeOffset : Nat}

theorem findOwnProperty_congr {sh sh' : Shape} (h : sh'.props = sh.props) :
    findOwnProperty sh' atom = findOwnProperty sh atom := by
  unfold findOwnProperty
  rw [h]

theorem WayValid.frozen (h : WayValid shapes kind atom w) (hf : Frozen hs shapes shapes')
    (hm : w.shape ∈ hs) : WayValid shapes' kind atom w := by
  obtain ⟨sh, p, hsh, hfind, hp, hk⟩ := h
  obtain ⟨sh', hsh', hprops⟩ := hf w.shape hm sh hsh
  exact ⟨sh', p, hsh', by rw [findOwnProperty_congr hprops, hfind], by rw [hprops, hp], hk⟩

theorem EntryValid.frozen (h : EntryValid shapes code e) (hf : Frozen hs shapes shapes')
    (hm : ∀ b ∈ e.shapes, b ∈ hs) : EntryValid shapes' code e where
  ways := by
    intro w hw
    exact (h.ways w hw).frozen hf (hm _ (List.mem_map_of_mem hw))
  last := h.last

theorem EntryValid.remember (h : EntryValid shapes code e) (hw : ICWay.mk a index ∈ e.ways) :
    EntryValid shapes code (e.remember o a index) where
  ways := h.ways
  last := fun _ _ => hw

theorem EntryValid.hot (h : EntryValid shapes code e) (i : Nat) :
    EntryValid shapes code { e with hotWay := i } where
  ways := h.ways
  last := h.last

theorem scan_valid {i : Nat} (h : EntryValid shapes code e) (hr : e.scan o a = some (i, e')) :
    ICWay.mk a i ∈ e.ways ∧ EntryValid shapes code e' ∧ e'.ways = e.ways := by
  unfold ICEntry.scan at hr
  split at hr
  · rename_i j hj
    obtain ⟨w, hw, hres⟩ := Option.map_eq_some_iff.mp hr
    cases hres
    obtain ⟨hlt, hshape, -⟩ := List.findIdx?_eq_some_iff_getElem.mp hj
    obtain ⟨hlt', hget⟩ := List.getElem?_eq_some_iff.mp hw
    have ha : w.shape = a := by
      rw [← hget]
      simpa using hshape
    subst ha
    have hm : w ∈ e.ways := List.mem_of_getElem? hw
    exact ⟨hm, (h.hot j).remember hm, rfl⟩
  · cases hr

theorem icLookup_valid {i : Nat} (h : EntryValid shapes code e)
    (hr : icLookup e bytecodeOffset o a atom = some (i, e')) :
    WayValid shapes (code bytecodeOffset) atom (ICWay.mk a i) ∧ EntryValid shapes code e' ∧
      e'.ways = e.ways := by
  unfold icLookup at hr
  split at hr
  · cases hr
  · rename_i hsite
    have hoff : e.bytecodeOffset = bytecodeOffset := by
      by_contra hne
      exact hsite (.inl hne)
    have hatom : e.atom = atom := by
      by_contra hne
      exact hsite (.inr hne)
    have hscan : e.scan o a = some (i, e') → WayValid shapes (code bytecodeOffset) atom (ICWay.mk a i) ∧
        EntryValid shapes code e' ∧ e'.ways = e.ways := by
      intro hs
      obtain ⟨hm, hv, hways⟩ := scan_valid h hs
      refine ⟨?_, hv, hways⟩
      rw [← hoff, ← hatom]
      exact h.ways _ hm
    split at hr
    · rename_i hlast
      cases hr
      refine ⟨?_, h, rfl⟩
      rw [← hoff, ← hatom, ← hlast.2]
      exact h.ways _ (h.last o hlast.1)
    · split at hr
      · rename_i hot hhot
        split at hr
        · rename_i hshape
          cases hr
          subst hshape
          have hm : hot ∈ e.ways := List.mem_of_getElem? hhot
          refine ⟨?_, h.remember hm, rfl⟩
          rw [← hoff, ← hatom]
          exact h.ways _ hm
        · exact hscan hr
      · exact hscan hr

theorem lookup_eq (kind : SiteKind) : kind.lookup = icLookup := by
  cases kind with
  | getField => rfl
  | putField => rfl

theorem freeWays_accounted {ways : List ICWay}
    (h : Accounted rt.shapes (ways.map ICWay.shape ++ hs)) (hr : freeWays rt ways = some rt') :
    Accounted rt'.shapes hs ∧ Frozen hs rt.shapes rt'.shapes ∧ rt'.objects = rt.objects := by
  induction ways generalizing rt with
  | nil =>
    cases hr
    exact ⟨h, .refl, rfl⟩
  | cons w ways ih =>
    obtain ⟨rt1, h1, hrest⟩ := Option.bind_eq_some_iff.mp hr
    obtain ⟨hacc, hfrozen, hobj, -⟩ := h.free h1
    obtain ⟨hacc2, hfrozen2, hobj2⟩ := ih hacc hrest
    have hsub : ∀ b ∈ hs, b ∈ ways.map ICWay.shape ++ hs :=
      fun b hb => List.mem_append_right _ hb
    exact ⟨hacc2, (hfrozen.mono hsub).trans hfrozen2, hobj2.trans hobj⟩

/-- What a fill does to an entry, with the references of all others in `hs`. -/
structure Fills (code : Nat → SiteKind) (hs : List Nat) (rt : Runtime) (e : ICEntry)
    (rt' : Runtime) (e' : ICEntry) : Prop where
  within : ∀ b ∈ e'.shapes ++ hs, b ∈ e.shapes ++ hs
  accounted : Accounted rt'.shapes (e'.shapes ++ hs)
  frozen : Frozen (e'.shapes ++ hs) rt.shapes rt'.shapes
  objects : rt'.objects = rt.objects
  valid : EntryValid rt'.shapes code e'

theorem resetEntry_fills (h : Accounted rt.shapes (e.shapes ++ hs))
    (hv : EntryValid rt.shapes code e)
    (hr : resetEntry rt e bytecodeOffset atom = some (rt', e')) :
    Fills code hs rt e rt' e' ∧ e'.bytecodeOffset = bytecodeOffset ∧ e'.atom = atom := by
  unfold resetEntry at hr
  split at hr
  · obtain ⟨rt1, h1, hres⟩ := Option.bind_eq_some_iff.mp hr
    cases hres
    obtain ⟨hacc, hfrozen, hobj⟩ := freeWays_accounted h h1
    refine ⟨⟨fun b hb => List.mem_append_right _ hb, hacc, hfrozen, hobj, ⟨?_, ?_⟩⟩, rfl, rfl⟩
    · intro w hw
      cases hw
    · intro o ho
      cases ho
  · rename_i hsite
    cases hr
    refine ⟨⟨fun _ hb => hb, h, .refl, rfl, hv⟩, ?_, ?_⟩
    · by_contra hne
      exact hsite (.inl hne)
    · by_contra hne
      exact hsite (.inr hne)

theorem shapes_set {i : Nat} (hw : e.ways[i]? = some w) (w' : ICWay) :
    e.shapes.Perm (w.shape :: (e.ways.eraseIdx i).map ICWay.shape) ∧
      (e.ways.set i w').Perm (w' :: e.ways.eraseIdx i) := by
  obtain ⟨hlt, hget⟩ := List.getElem?_eq_some_iff.mp hw
  constructor
  · have hp := ((List.getElem_cons_eraseIdx_perm hlt).map ICWay.shape).symm
    rw [hget] at hp
    exact hp
  · exact List.set_perm_cons_eraseIdx hlt w'

theorem placed_valid (e' : ICEntry) {kept : List ICWay}
    (hacc : Accounted rt.shapes (a :: (kept.map ICWay.shape ++ hs))) (ha : a ∈ hs)
    (hkept : ∀ w ∈ kept, WayValid rt.shapes (code e'.bytecodeOffset) e'.atom w)
    (hnew : WayValid rt.shapes (code e'.bytecodeOffset) e'.atom (.mk a index))
    (hways : e'.ways.Perm (.mk a index :: kept)) (hlast : e'.lastShape = a)
    (hindex : e'.lastPropertyIndex = index) :
    Accounted rt.shapes (e'.shapes ++ hs) ∧ EntryValid rt.shapes code e' ∧
      ∀ b ∈ e'.shapes ++ hs, b ∈ kept.map ICWay.shape ++ hs := by
  have hp : e'.shapes.Perm (a :: kept.map ICWay.shape) := hways.map ICWay.shape
  refine ⟨hacc.perm (hp.symm.append_right hs), ⟨?_, ?_⟩, ?_⟩
  · intro w hw
    rcases List.mem_cons.mp (hways.mem_iff.mp hw) with rfl | hw
    · exact hnew
    · exact hkept w hw
  · intro o _
    rw [hlast, hindex]
    exact hways.mem_iff.mpr (by simp)
  · intro b hb
    rcases List.mem_append.mp hb with hb | hb
    · rcases List.mem_cons.mp (hp.mem_iff.mp hb) with rfl | hb
      · exact List.mem_append_right _ ha
      · exact List.mem_append_left _ hb
    · exact List.mem_append_right _ hb

theorem placeWay_fills (h : Accounted rt.shapes (e.shapes ++ hs))
    (hv : EntryValid rt.shapes code e) (ha : a ∈ hs)
    (hnew : WayValid rt.shapes (code e.bytecodeOffset) e.atom (.mk a index))
    (hr : placeWay rt e o a index = some (rt', e')) : Fills code hs rt e rt' e' := by
  unfold placeWay at hr
  split at hr
  · rename_i i hi
    obtain ⟨hlt, hshape, -⟩ := List.findIdx?_eq_some_iff_getElem.mp hi
    obtain ⟨hp, hset⟩ := shapes_set (List.getElem?_eq_getElem hlt) (.mk a index)
    have hsh : e.ways[i].shape = a := by simpa using hshape
    rw [hsh] at hp
    have hkept : ∀ w ∈ e.ways.eraseIdx i, WayValid rt.shapes (code e.bytecodeOffset) e.atom w :=
      fun w hw => hv.ways w (List.mem_of_mem_eraseIdx hw)
    cases hr
    obtain ⟨hacc, hvalid, hsub⟩ := placed_valid
      ({ e with ways := e.ways.set i (ICWay.mk a index), hotWay := i }.remember o a index)
      (h.perm (hp.append_right hs)) ha hkept hnew hset rfl rfl
    refine ⟨fun b hb => ?_, hacc, .refl, rfl, hvalid⟩
    apply (hp.append_right hs).mem_iff.mpr
    exact List.mem_cons_of_mem a (hsub b hb)
  · split at hr
    · obtain ⟨sh, hsh, hres⟩ := Option.bind_eq_some_iff.mp hr
      obtain ⟨hdup, hfrozen⟩ := h.dup hsh
      have hkept : ∀ w ∈ e.ways,
          WayValid (jsDupShape rt a sh).shapes (code e.bytecodeOffset) e.atom w := by
        intro w hw
        exact (hv.ways w hw).frozen hfrozen (List.mem_append_left _ (List.mem_map_of_mem hw))
      have hnew' := hnew.frozen hfrozen (List.mem_append_right _ ha)
      cases hres
      obtain ⟨hacc, hvalid, hsub⟩ := placed_valid
        ({ e with
          ways := e.ways ++ [ICWay.mk a index]
          hotWay := e.ways.length }.remember o a index)
        hdup ha hkept hnew' (List.perm_append_singleton _ _) rfl rfl
      exact ⟨hsub, hacc, hfrozen.mono hsub, rfl, hvalid⟩
    · -- The way whose turn it is gives its reference back first.
      obtain ⟨old, hold, hfree⟩ := Option.bind_eq_some_iff.mp hr
      obtain ⟨rt1, h1, hrest⟩ := Option.bind_eq_some_iff.mp hfree
      obtain ⟨sh, hsh, hres⟩ := Option.bind_eq_some_iff.mp hrest
      obtain ⟨hp, hset⟩ := shapes_set hold (.mk a index)
      obtain ⟨hacc1, hfrozen1, hobj1, -⟩ := (h.perm (hp.append_right hs)).free h1
      obtain ⟨hdup, hfrozen2⟩ := hacc1.dup hsh
      have hfrozen := hfrozen1.trans hfrozen2
      have hkept : ∀ w ∈ e.ways.eraseIdx (e.replacementWay % icWays),
          WayValid (jsDupShape rt1 a sh).shapes (code e.bytecodeOffset) e.atom w := by
        intro w hw
        exact (hv.ways w (List.mem_of_mem_eraseIdx hw)).frozen hfrozen
          (List.mem_append_left _ (List.mem_map_of_mem hw))
      have hnew' := hnew.frozen hfrozen (List.mem_append_right _ ha)
      cases hres
      obtain ⟨hacc, hvalid, hsub⟩ := placed_valid
        ({ e with
          ways := e.ways.set (e.replacementWay % icWays) (ICWay.mk a index)
          hotWay := e.replacementWay % icWays
          replacementWay := e.replacementWay + 1 }.remember o a index)
        hdup ha hkept hnew' hset rfl rfl
      refine ⟨fun b hb => ?_, hacc, hfrozen.mono hsub, hobj1, hvalid⟩
      apply (hp.append_right hs).mem_iff.mpr
      exact List.mem_cons_of_mem old.shape (hsub b hb)

theorem icFill_fills (h : Accounted rt.shapes (e.shapes ++ hs))
    (hv : EntryValid rt.shapes code e) (ha : a ∈ hs)
    (hnew : WayValid rt.shapes (code bytecodeOffset) atom (.mk a index))
    (hr : icFill rt e bytecodeOffset o a atom index = some (rt', e')) :
    Fills code hs rt e rt' e' := by
  unfold icFill at hr
  obtain ⟨sh, -, hfill⟩ := Option.bind_eq_some_iff.mp hr
  split at hfill
  · cases hfill
    exact ⟨fun _ hb => hb, h, .refl, rfl, hv⟩
  · obtain ⟨⟨rt1, e1⟩, h1, hplace⟩ := Option.bind_eq_some_iff.mp hfill
    obtain ⟨hf1, hoff, hatom⟩ := resetEntry_fills h hv h1
    have hnew1 : WayValid rt1.shapes (code e1.bytecodeOffset) e1.atom (.mk a index) := by
      rw [hoff, hatom]
      exact hnew.frozen hf1.frozen (List.mem_append_right _ ha)
    have hf2 := placeWay_fills hf1.accounted hf1.valid ha hnew1 hplace
    exact ⟨fun b hb => hf1.within b (hf2.within b hb), hf2.accounted,
      (hf1.frozen.mono hf2.within).trans hf2.frozen, hf2.objects.trans hf1.objects, hf2.valid⟩

def CacheSafe (m : Machine) : Action → Prop
  | .op op => ReferenceSafe (wayHolders m.entries) m.rt op
  | .access _ _ _ _ => True

/-- Whenever the lookup of a site reports a hit, it gives the index that a lookup on the object
finds, of a property that the site may cache. -/
def HitsSound (code : Nat → Nat → SiteKind) (m : Machine) : Prop :=
  ∀ f bytecodeOffset o atom a e i e', m.rt.shapeOf o = some a →
    m.entries[icIndex f bytecodeOffset]? = some e →
    (code f bytecodeOffset).lookup e bytecodeOffset o a atom = some (i, e') →
    ∃ sh p, m.rt.shapes a = some sh ∧ findOwnProperty sh atom = some i ∧
      sh.props[i]? = some p ∧ (code f bytecodeOffset).caches p.flags = true

def RetainedKept (m m' : Machine) : Prop :=
  ∀ a, a ∈ wayHolders m.entries → a ∈ wayHolders m'.entries →
    ∃ sh sh', m.rt.shapes a = some sh ∧ m'.rt.shapes a = some sh' ∧ sh'.props = sh.props

theorem icIndex_div (f bytecodeOffset : Nat) : icIndex f bytecodeOffset / icSize = f := by
  have hlt : icSlot bytecodeOffset < icSize := Nat.mod_lt _ (by decide)
  unfold icIndex
  rw [Nat.mul_add_div (by decide), Nat.div_eq_of_lt hlt, Nat.add_zero]

section

variable {m m' : Machine} {code : Nat → Nat → SiteKind} {act : Action}

theorem CacheSound.hits (h : CacheSound code m) : HitsSound code m := by
  intro f bytecodeOffset o atom a e i e' _ he hl
  rw [lookup_eq] at hl
  have hv := h.valid _ e he
  rw [icIndex_div] at hv
  obtain ⟨sh, p, hrest⟩ := (icLookup_valid hv hl).1
  exact ⟨sh, p, hrest⟩

theorem wayHolders_set {entries : List ICEntry} {j : Nat} {e : ICEntry}
    (hj : entries[j]? = some e) :
    ∃ rest, (wayHolders entries).Perm (e.shapes ++ rest) ∧
      (∀ e', (wayHolders (entries.set j e')).Perm (e'.shapes ++ rest)) ∧
      ∀ j' e1, j' ≠ j → entries[j']? = some e1 → ∀ b ∈ e1.shapes, b ∈ rest := by
  obtain ⟨hlt, hget⟩ := List.getElem?_eq_some_iff.mp hj
  refine ⟨wayHolders (entries.eraseIdx j), ?_, ?_, ?_⟩
  · have hp := (List.getElem_cons_eraseIdx_perm hlt).symm.flatMap_right ICEntry.shapes
    rw [hget] at hp
    exact hp
  · intro e'
    exact (List.set_perm_cons_eraseIdx hlt e').flatMap_right ICEntry.shapes
  · intro j' e1 hne h1 b hb
    have hm : e1 ∈ entries.eraseIdx j := List.mem_eraseIdx_iff_getElem?.mpr ⟨j', hne, h1⟩
    exact List.mem_flatMap.mpr ⟨e1, hm, hb⟩

theorem CacheSound.fill {j : Nat} {e e' : ICEntry} {rt' : Runtime} (h : CacheSound code m)
    (hj : m.entries[j]? = some e)
    (hf : ∀ rest, (wayHolders m.entries).Perm (e.shapes ++ rest) →
      Fills (code (j / icSize)) (objectHolders m.rt.objects ++ rest) m.rt e rt' e') :
    CacheSound code ⟨rt', m.entries.set j e'⟩ ∧ RetainedKept m ⟨rt', m.entries.set j e'⟩ := by
  obtain ⟨rest, hp, hset, hother⟩ := wayHolders_set hj
  have hfills := hf rest hp
  have hafter : (e'.shapes ++ (objectHolders m.rt.objects ++ rest)).Perm
      (objectHolders m.rt.objects ++ wayHolders (m.entries.set j e')) := by
    rw [← List.append_assoc]
    apply (List.perm_append_comm.append_right rest).trans
    rw [List.append_assoc]
    exact (hset e').symm.append_left _
  refine ⟨⟨?_, ?_⟩, ?_⟩
  · change Accounted rt'.shapes (objectHolders rt'.objects ++ _)
    rw [hfills.objects]
    exact hfills.accounted.perm hafter
  · intro j' e1 h1
    by_cases hne : j' = j
    · subst hne
      rw [List.getElem?_set_self (List.getElem?_eq_some_iff.mp hj).1] at h1
      cases h1
      exact hfills.valid
    · rw [List.getElem?_set_ne (Ne.symm hne)] at h1
      apply (h.valid j' e1 h1).frozen hfills.frozen
      intro b hb
      exact List.mem_append_right _ (List.mem_append_right _ (hother j' e1 hne h1 b hb))
  · intro a ha ha'
    obtain ⟨sh, hsh, -⟩ := h.accounted a (List.mem_append_right _ ha)
    have hm := hafter.mem_iff.mpr (List.mem_append_right _ ha')
    obtain ⟨sh', hsh', hprops⟩ := hfills.frozen a hm sh hsh
    exact ⟨sh, sh', hsh, hsh', hprops⟩

theorem CacheSound.refl_kept (h : CacheSound code m) : RetainedKept m m := by
  intro a ha _
  obtain ⟨sh, hsh, -⟩ := h.accounted a (List.mem_append_right _ ha)
  exact ⟨sh, sh, hsh, hsh, rfl⟩

theorem CacheSound.access {f bytecodeOffset o atom : Nat} (h : CacheSound code m)
    (hr : access (code f bytecodeOffset) m f bytecodeOffset o atom = some m') :
    CacheSound code m' ∧ RetainedKept m m' := by
  unfold Objects.access at hr
  obtain ⟨a, ho, hentry⟩ := Option.bind_eq_some_iff.mp hr
  obtain ⟨e, he, hlook⟩ := Option.bind_eq_some_iff.mp hentry
  have hv := h.valid _ e he
  rw [lookup_eq] at hlook
  have hobj : a ∈ objectHolders m.rt.objects := by
    obtain ⟨rest, hp, -⟩ := objectHolders_set ho
    exact hp.mem_iff.mpr (by simp)
  have hacc : ∀ rest, (wayHolders m.entries).Perm (e.shapes ++ rest) →
      Accounted m.rt.shapes (e.shapes ++ (objectHolders m.rt.objects ++ rest)) := by
    intro rest hp
    apply h.accounted.perm
    apply (hp.append_left _).trans
    rw [← List.append_assoc, ← List.append_assoc]
    exact List.perm_append_comm.append_right rest
  split at hlook
  · rename_i i e' hl
    obtain ⟨-, hv', hways⟩ := icLookup_valid hv hl
    have hsame : e'.shapes = e.shapes := by
      unfold ICEntry.shapes
      rw [hways]
    cases hlook
    apply h.fill he
    intro rest hp
    refine ⟨?_, ?_, .refl, rfl, hv'⟩
    · rw [hsame]
      exact fun _ hb => hb
    · rw [hsame]
      exact hacc rest hp
  · obtain ⟨sh, hsh, hfind⟩ := Option.bind_eq_some_iff.mp hlook
    split at hfind
    · cases hfind
      exact ⟨h, h.refl_kept⟩
    · rename_i i hi
      obtain ⟨p, hp, hcache⟩ := Option.bind_eq_some_iff.mp hfind
      split at hcache
      · rename_i hk
        obtain ⟨⟨rt', e'⟩, hfill, hres⟩ := Option.bind_eq_some_iff.mp hcache
        cases hres
        apply h.fill he
        intro rest hperm
        have hnew : WayValid m.rt.shapes (code (icIndex f bytecodeOffset / icSize) bytecodeOffset)
            atom (.mk a i) := by
          rw [icIndex_div]
          exact ⟨sh, p, hsh, hi, hp, hk⟩
        exact icFill_fills (hacc rest hperm) hv (List.mem_append_left _ hobj) hnew hfill
      · cases hcache
        exact ⟨h, h.refl_kept⟩

theorem CacheSound.step (h : CacheSound code m) (hsafe : CacheSafe m act)
    (hr : m.step code act = some m') : CacheSound code m' ∧ RetainedKept m m' := by
  cases act with
  | op op =>
    obtain ⟨rt', h1, hres⟩ := Option.bind_eq_some_iff.mp hr
    cases hres
    obtain ⟨hacc, hfrozen⟩ := h.accounted.apply hsafe h1
    refine ⟨⟨hacc, ?_⟩, ?_⟩
    · intro j e he
      apply (h.valid j e he).frozen hfrozen
      intro b hb
      exact List.mem_flatMap.mpr ⟨e, List.mem_of_getElem? he, hb⟩
    · intro a ha _
      obtain ⟨sh, hsh, -⟩ := h.accounted a (List.mem_append_right _ ha)
      obtain ⟨sh', hsh', hprops⟩ := hfrozen a ha sh hsh
      exact ⟨sh, sh', hsh, hsh', hprops⟩
  | access f bytecodeOffset o atom => exact h.access hr

theorem cacheSound_init (code : Nat → Nat → SiteKind) (functions : Nat) :
    CacheSound code (Machine.init functions) where
  accounted := by
    intro a ha
    simp [Machine.init, Runtime.empty, objectHolders, wayHolders, ICEntry.zero,
      ICEntry.shapes] at ha
  valid := by
    intro j e he
    obtain rfl : e = ICEntry.zero := List.eq_of_mem_replicate (List.mem_of_getElem? he)
    exact ⟨by simp [ICEntry.zero], by simp [ICEntry.zero]⟩

/-- In every state of a run whose steps change no shape in place that has several owners, a hit
gives what the object has, and a step keeps the shapes that the caches hold. -/
theorem property_cache_sound (code : Nat → Nat → SiteKind) (functions : Nat) {m : Machine}
    (h : Reach (Machine.step code) CacheSafe (Machine.init functions) m) :
    HitsSound code m ∧
      ∀ act m', CacheSafe m act → m.step code act = some m' → RetainedKept m m' := by
  have hs : CacheSound code m := by
    apply h.invariant (cacheSound_init code functions)
    intro m act m' hm hsafe hr
    exact (hm.step hsafe hr).1
  refine ⟨hs.hits, ?_⟩
  intro act m' hsafe hr
  exact (hs.step hsafe hr).2

/-- The first deletion takes the shape out of the hash table, the read caches it, and the second
deletion changes it in place. -/
def deletedUnderCache : List Action :=
  [.op (.newObject none true (some 16)), .op (.addProperty 0 1 jsPropCWE none none),
    .op (.addProperty 0 2 jsPropCWE none none), .op (.deleteProperty 0 1 none none),
    .access 0 0 0 2, .op (.deleteProperty 0 2 none none)]

def deletedUnderCacheEnd : Option Machine :=
  deletedUnderCache.foldlM (Machine.step fun _ _ => .getField) (Machine.init 1)

/-- The site still reports a hit for the deleted property. -/
theorem deleted_property_is_still_hit :
    ¬ ∀ (code : Nat → Nat → SiteKind) (functions : Nat) (m : Machine),
      Reach (Machine.step code) (fun _ _ => True) (Machine.init functions) m →
        HitsSound code m := by
  intro h
  have hsome : deletedUnderCacheEnd.isSome = true := by decide +kernel
  obtain ⟨m, hm⟩ := Option.isSome_iff_exists.mp hsome
  have hshape : (deletedUnderCacheEnd.bind fun m => m.rt.shapeOf 0) = some 16 := by
    decide +kernel
  have hhit : (deletedUnderCacheEnd.bind fun m => (m.entries[icIndex 0 0]?).bind fun e =>
      (icLookup e 0 0 16 2).map Prod.fst) = some 1 := by decide +kernel
  have hgone : (deletedUnderCacheEnd.bind fun m => (m.rt.shapes 16).bind fun sh =>
      findOwnProperty sh 2) = none := by decide +kernel
  rw [hm, Option.bind_some] at hshape hhit hgone
  obtain ⟨e, he, hl⟩ := Option.bind_eq_some_iff.mp hhit
  obtain ⟨⟨i, e'⟩, hlook, rfl⟩ := Option.map_eq_some_iff.mp hl
  obtain ⟨sh, p, hsh, hfind, -⟩ := h (fun _ _ => .getField) 1 m (Reach.of_foldlM hm) 0 0 0 2 16
    e _ e' hshape he hlook
  rw [hsh, Option.bind_some, hfind] at hgone
  cases hgone

def cachedRead (n : Nat) : Machine :=
  let actions : List Action := [.op (.newObject none true (some 16)),
    .op (.addProperty 0 1 jsPropCWE none none), .access 0 0 0 1]
  ((actions.take n).foldlM (Machine.step fun _ _ => .getField) (Machine.init 1)).getD
    (Machine.init 1)

/-- The second read of the property is a hit. -/
theorem cached_read_hits :
    ((cachedRead 3).entries[icIndex 0 0]?).bind
        (fun e => (icLookup e 0 0 16 1).map Prod.fst) = some 0 ∧
      HitsSound (fun _ _ => .getField) (cachedRead 3) := by
  refine ⟨by decide +kernel, (property_cache_sound (fun _ _ => .getField) 1 ?_).1⟩
  have h1 : Reach (Machine.step fun _ _ => .getField) CacheSafe (Machine.init 1)
      (cachedRead 1) :=
    .step .init trivial (a := .op (.newObject none true (some 16))) rfl
  have hsafe : CacheSafe (cachedRead 1) (.op (.addProperty 0 1 7 none none)) := by
    intro a sh ho ha hh
    have h16 : (cachedRead 1).rt.shapeOf 0 = some 16 := by decide +kernel
    have hhash : ((cachedRead 1).rt.shapes 16).map Shape.isHashed = some true := by
      decide +kernel
    rw [h16] at ho
    cases ho
    rw [ha, Option.map_some, hh] at hhash
    cases hhash
  have h2 : Reach (Machine.step fun _ _ => .getField) CacheSafe (Machine.init 1)
      (cachedRead 2) :=
    .step h1 hsafe rfl
  exact .step h2 trivial (a := .access 0 0 0 1) rfl

end

end TurboJS.Objects
