import TurboJS.Runtime.BoundedMap
import TurboJS.IR.Interpreter
import TurboJS.Foundation.Run

namespace TurboJS.Runtime
open IR Foundation

/-! Calls through the entry handles that the code cache publishes. -/

inductive EntryCall where
  | status (s : Status)
  | native (id : Nat)
  deriving DecidableEq, Repr

def nativeEntryInvoke (kind : EntryKind) (handle : NativeEntryHandle)
    (expectedGeneration argumentCount : Nat) : EntryCall :=
  if !handle.isLive expectedGeneration kind then .status .unsupported
  else if argumentCount < handle.argumentCount then .status .invalidArgument
  else (handle.function.map EntryCall.native).getD (.status .invalidArgument)

def nativeEntryInvokeI64 := nativeEntryInvoke .int32

def nativeEntryInvokeF64 := nativeEntryInvoke .float64

def CodeCache.Unowned (c : CodeCache) (native : NativeFunction) : Prop :=
  ∀ i, (c.entries i).state = .live → (c.entries i).function.map (·.id) ≠ some native.id

/-- The promise of the allocator: a function that is compiled now shares no address with one that
has not been freed. -/
def CodeCache.Fresh (c : CodeCache) : CacheOp → Prop
  | .compile key compiler _ =>
    c.findLive key = none → ∀ native, compiler.result = .ok native → c.Unowned native
  | .storeContinuation _ _ native _ => c.Unowned native
  | _ => True

/-- The entry in `slot` owns the function at `id` and has published it in `handle`. -/
structure CodeCache.Owns (c : CodeCache) (slot handle id : Nat) : Prop where
  lt : slot < c.slotCount
  live : (c.entries slot).state = .live
  kind : (c.entries slot).cacheKind = .function
  function : (c.entries slot).function.map (·.id) = some id
  handle : (c.entries slot).entryHandle = some handle

def CodeCache.Distinct (c : CodeCache) : Prop :=
  ∀ i j id, (c.entries i).state = .live → (c.entries j).state = .live →
    (c.entries i).function.map (·.id) = some id →
    (c.entries j).function.map (·.id) = some id → i = j

def CodeCache.Published (c : CodeCache) : Prop :=
  ∀ handle id, (c.handles handle).function = some id → ∃ slot, c.Owns slot handle id

def CodeCache.Reset (c : CodeCache) : Prop :=
  ∀ handle, (c.handles handle).function = none →
    (c.handles handle).kind = .none ∧ (c.handles handle).argumentCount = 0

inductive CodeCache.Quiet : CodeCache → CodeCache → Prop where
  | same {c c' : CodeCache} (hslots : c'.slotCount = c.slotCount) (hhandles : c'.handles = c.handles)
      (hentries : ∀ i, (c'.entries i).state = (c.entries i).state ∧
        (c'.entries i).cacheKind = (c.entries i).cacheKind ∧
        (c'.entries i).function = (c.entries i).function ∧
        (c'.entries i).entryHandle = (c.entries i).entryHandle) : Quiet c c'
  | remove (c : CodeCache) (slot : Nat) : Quiet c (c.removeSlot slot).1
  | insert {c c' : CodeCache} (slot : Nat) (native : NativeFunction)
      (hfree : (c.entries slot).state ≠ .live) (hfresh : c.Unowned native)
      (hslots : c'.slotCount = c.slotCount) (hhandles : c'.handles = c.handles)
      (hnew : (c'.entries slot).function = some native)
      (hentries : ∀ i, i ≠ slot → c'.entries i = c.entries i) : Quiet c c'
  | wipe {c c' : CodeCache} (hslots : c'.slotCount = c.slotCount) (hhandles : c'.handles = c.handles)
      (hdead : ∀ i, i < c.slotCount → (c.entries i).state ≠ .live)
      (hempty : ∀ i, (c'.entries i).state ≠ .live) : Quiet c c'

inductive Settled (c c' : CodeCache) (handle : Nat) : Prop where
  | kept (hsame : c'.handles handle = c.handles handle)
      (howner : ∀ slot id, (c.handles handle).function = some id → c.Owns slot handle id →
        c'.Owns slot handle id)
  | invalidated (hinv : c'.handles handle = invalidateHandle (c.handles handle))

inductive HandleStep (c c' : CodeCache) (handle : Nat) : Prop where
  | settled (h : Settled c c' handle)
  | published {slot id argumentCount : Nat} {kind : EntryKind} (hkind : kind ≠ .none)
      (hnew : c'.handles handle =
        ⟨some id, nextEntryGeneration (c.handles handle).generation, argumentCount, kind⟩)
      (howner : c'.Owns slot handle id)

section

variable {c c' c'' : CodeCache} {m : Word → Option NativeFunction} {handle : Nat}

theorem invalidateHandle_idem (h : NativeEntryHandle) :
    invalidateHandle (invalidateHandle h) = invalidateHandle h := by
  simp [invalidateHandle]

theorem invalidateHandle_reset {h : NativeEntryHandle}
    (hreset : h.function = none → h.kind = .none ∧ h.argumentCount = 0) :
    invalidateHandle h = h ∨ (invalidateHandle h).generation = nextEntryGeneration h.generation := by
  obtain ⟨function, generation, argumentCount, kind⟩ := h
  cases function with
  | none =>
    obtain ⟨rfl, rfl⟩ := hreset rfl
    exact .inl rfl
  | some id =>
    right
    simp [invalidateHandle]

theorem HandleStep.generation (h : HandleStep c c' handle) (hreset : c.Reset) :
    c'.handles handle = c.handles handle ∨
      (c'.handles handle).generation = nextEntryGeneration (c.handles handle).generation := by
  rcases h with ⟨⟨hsame, -⟩ | ⟨hinv⟩⟩ | ⟨-, hnew, -⟩
  · exact .inl hsame
  · rw [hinv]
    exact invalidateHandle_reset (hreset handle)
  · right
    rw [hnew]

theorem nextEntryGeneration_ne {generation : Nat} (h : generation < 2 ^ 64) :
    nextEntryGeneration generation ≠ generation := by
  unfold nextEntryGeneration
  split <;> omega

theorem HandleStep.owner (h : HandleStep c c' handle)
    (hsame : c'.handles handle = c.handles handle) {slot id : Nat}
    (hfun : (c.handles handle).function = some id) (howns : c.Owns slot handle id)
    (hlt : (c.handles handle).generation < 2 ^ 64) : c'.Owns slot handle id := by
  rcases h with ⟨⟨-, howner⟩ | ⟨hinv⟩⟩ | ⟨-, hnew, -⟩
  · exact howner slot id hfun howns
  · rw [hsame] at hinv
    rw [hinv] at hfun
    cases hfun
  · rw [hsame] at hnew
    exact absurd (congrArg NativeEntryHandle.generation hnew).symm (nextEntryGeneration_ne hlt)

theorem published_of_steps (hp : c.Published) (h : ∀ handle, HandleStep c c' handle) :
    c'.Published := by
  intro handle id hfun
  rcases h handle with ⟨⟨hsame, howner⟩ | ⟨hinv⟩⟩ | ⟨-, hnew, howner⟩
  · rw [hsame] at hfun
    obtain ⟨slot, hslot⟩ := hp handle id hfun
    exact ⟨slot, howner slot id hfun hslot⟩
  · rw [hinv] at hfun
    cases hfun
  · rw [hnew] at hfun
    cases hfun
    exact ⟨_, howner⟩

theorem reset_of_steps (hr : c.Reset) (h : ∀ handle, HandleStep c c' handle) : c'.Reset := by
  intro handle hfun
  rcases h handle with ⟨⟨hsame, -⟩ | ⟨hinv⟩⟩ | ⟨-, hnew, -⟩
  · rw [hsame] at hfun ⊢
    exact hr handle hfun
  · rw [hinv]
    exact ⟨rfl, rfl⟩
  · rw [hnew] at hfun
    cases hfun

theorem Settled.refl (c : CodeCache) (handle : Nat) : Settled c c handle :=
  .kept rfl fun _ _ _ h => h

theorem Settled.trans (h : Settled c c' handle) (h' : Settled c' c'' handle) :
    Settled c c'' handle := by
  rcases h with ⟨hsame, howner⟩ | ⟨hinv⟩
  · rcases h' with ⟨hsame', howner'⟩ | ⟨hinv'⟩
    · refine .kept (hsame'.trans hsame) ?_
      intro slot id hfun howns
      refine howner' slot id ?_ (howner slot id hfun howns)
      rw [hsame]
      exact hfun
    · rw [hsame] at hinv'
      exact .invalidated hinv'
  · rcases h' with ⟨hsame', -⟩ | ⟨hinv'⟩
    · exact .invalidated (hsame'.trans hinv)
    · rw [hinv, invalidateHandle_idem] at hinv'
      exact .invalidated hinv'

theorem CodeCache.Owns.congr {slot id : Nat} (h : c.Owns slot handle id)
    (hslots : c'.slotCount = c.slotCount)
    (hentry : (c'.entries slot).state = (c.entries slot).state ∧
      (c'.entries slot).cacheKind = (c.entries slot).cacheKind ∧
      (c'.entries slot).function = (c.entries slot).function ∧
      (c'.entries slot).entryHandle = (c.entries slot).entryHandle) : c'.Owns slot handle id := by
  obtain ⟨hstate, hkind, hfunction, hhandle⟩ := hentry
  constructor
  · rw [hslots]
    exact h.lt
  · rw [hstate]
    exact h.live
  · rw [hkind]
    exact h.kind
  · rw [hfunction]
    exact h.function
  · rw [hhandle]
    exact h.handle

theorem handlesWithout_other {e : CacheEntry} (h : ¬ (e.entryHandle = some handle ∧
    e.cacheKind = .function ∧ (c.handles handle).function = e.function.map (·.id))) :
    c.handlesWithout e handle = c.handles handle := by
  unfold CodeCache.handlesWithout
  cases hhandle : e.entryHandle with
  | none => rfl
  | some h' =>
    simp only
    split
    · rename_i hguard
      by_cases he : handle = h'
      · subst he
        exact absurd ⟨hhandle, hguard⟩ h
      · exact Function.update_of_ne he ..
    · rfl

theorem removeSlot_settled (c : CodeCache) (slot handle : Nat) :
    Settled c (c.removeSlot slot).1 handle := by
  by_cases hlive : (c.entries slot).state = .live
  · by_cases hgone : (c.entries slot).entryHandle = some handle ∧
        (c.entries slot).cacheKind = .function ∧
        (c.handles handle).function = (c.entries slot).function.map (·.id)
    · refine .invalidated ?_
      obtain ⟨hhandle, hguard⟩ := hgone
      simp only [removeSlot_handles hlive, CodeCache.handlesWithout, hhandle, if_pos hguard,
        Function.update_self]
    · refine .kept ?_ ?_
      · rw [removeSlot_handles hlive]
        exact handlesWithout_other hgone
      · intro slot' id hfun howns
        by_cases he : slot' = slot
        · subst he
          exact absurd ⟨howns.handle, howns.kind, hfun.trans howns.function.symm⟩ hgone
        · refine howns.congr (removeSlot_limits c slot).1 ?_
          simp only [removeSlot_entries hlive, Function.update_of_ne he, and_self]
  · rw [removeSlot_of_dead hlive]
    exact .refl c handle

theorem CodeCache.Quiet.settled (h : c.Quiet c') (handle : Nat) : Settled c c' handle := by
  cases h with
  | same hslots hhandles hentries =>
    refine .kept (congrFun hhandles handle) ?_
    intro slot id _ howns
    exact howns.congr hslots (hentries slot)
  | remove slot => exact removeSlot_settled c slot handle
  | insert free _ hfree _ hslots hhandles _ hentries =>
    refine .kept (congrFun hhandles handle) ?_
    intro slot id _ howns
    have hne : slot ≠ free := by
      intro he
      subst he
      exact hfree howns.live
    refine howns.congr hslots ?_
    simp only [hentries slot hne, and_self]
  | wipe hslots hhandles hdead _ =>
    refine .kept (congrFun hhandles handle) ?_
    intro slot id _ howns
    exact absurd howns.live (hdead slot howns.lt)

theorem CodeCache.Distinct.congr (hd : c.Distinct)
    (hentries : ∀ i, (c'.entries i).state = (c.entries i).state ∧
      (c'.entries i).function = (c.entries i).function) : c'.Distinct := by
  intro i j id hi hj hfi hfj
  rw [(hentries i).1] at hi
  rw [(hentries j).1] at hj
  rw [(hentries i).2] at hfi
  rw [(hentries j).2] at hfj
  exact hd i j id hi hj hfi hfj

theorem CodeCache.Quiet.distinct (h : c.Quiet c') (hd : c.Distinct) : c'.Distinct := by
  cases h with
  | same _ _ hentries => exact hd.congr fun i => ⟨(hentries i).1, (hentries i).2.2.1⟩
  | remove slot =>
    intro i j id hi hj hfi hfj
    have hei := removeSlot_live hi
    have hej := removeSlot_live hj
    rw [hei] at hi hfi
    rw [hej] at hj hfj
    exact hd i j id hi hj hfi hfj
  | insert slot native hfree hfresh _ _ hnew hentries =>
    have hother : ∀ i id, i ≠ slot → (c'.entries i).state = .live →
        (c'.entries i).function.map (·.id) = some id → id ≠ native.id := by
      intro i id hne hi hfi he
      rw [hentries i hne] at hi hfi
      exact hfresh i hi (he ▸ hfi)
    have hid : ∀ id, (c'.entries slot).function.map (·.id) = some id → id = native.id := by
      intro id h
      rw [hnew] at h
      exact (Option.some.inj h).symm
    intro i j id hi hj hfi hfj
    by_cases hislot : i = slot
    · by_cases hjslot : j = slot
      · exact hislot.trans hjslot.symm
      · rw [hislot] at hfi
        exact absurd (hid id hfi) (hother j id hjslot hj hfj)
    · by_cases hjslot : j = slot
      · rw [hjslot] at hfj
        exact absurd (hid id hfj) (hother i id hislot hi hfi)
      · rw [hentries i hislot] at hi hfi
        rw [hentries j hjslot] at hj hfj
        exact hd i j id hi hj hfi hfj
  | wipe _ _ _ hempty =>
    intro i j id hi
    exact absurd hi (hempty i)

abbrev CodeCache.Quiets : CodeCache → CodeCache → Prop := Relation.ReflTransGen CodeCache.Quiet

theorem CodeCache.Quiets.settled (h : c.Quiets c') (handle : Nat) : Settled c c' handle := by
  induction h with
  | refl => exact .refl c handle
  | tail _ hstep ih => exact ih.trans (hstep.settled handle)

theorem CodeCache.Quiets.distinct (h : c.Quiets c') (hd : c.Distinct) : c'.Distinct := by
  induction h with
  | refl => exact hd
  | tail _ hstep ih => exact hstep.distinct ih

theorem touchEntry_quiet (c : CodeCache) (slot : Nat) : c.Quiet (c.touchEntry slot) := by
  refine .same rfl rfl ?_
  intro i
  simp only [CodeCache.touchEntry, CodeCache.setEntry]
  by_cases he : i = slot
  · subst he
    simp only [Function.update_self, and_self]
  · simp only [Function.update_of_ne he, and_self]

theorem lookup_quiets (c : CodeCache) (key : Word) : c.Quiets (c.lookup key).1 := by
  have hlast : ∀ (c' : CodeCache) (k : Word) (f : Option NativeFunction),
      c'.Quiet { c' with lastKey := k, lastFunction := f } := fun c' k f =>
    .same rfl rfl fun _ => ⟨rfl, rfl, rfl, rfl⟩
  unfold CodeCache.lookup
  split
  · exact .refl
  split
  · cases c.findLive key with
    | none => exact .refl
    | some slot => exact .single (touchEntry_quiet c slot)
  · cases c.findLive key with
    | none => exact .refl
    | some slot => exact .tail (.single (touchEntry_quiet c slot)) (hlast _ _ _)

theorem lookupContinuation_quiets (c : CodeCache) (k : Continuation) :
    c.Quiets (c.lookupContinuation k).1 := by
  unfold CodeCache.lookupContinuation
  cases c.findContinuation k with
  | none => exact .refl
  | some slot => exact .single (touchEntry_quiet c slot)

theorem removeSlot_unowned {native : NativeFunction} (h : c.Unowned native) (slot : Nat) :
    (c.removeSlot slot).1.Unowned native := by
  intro i hi
  have he := removeSlot_live hi
  rw [he] at hi ⊢
  exact h i hi

theorem makeRoomFrom_quiets {native : NativeFunction} (codeSize fuel : Nat)
    (h : c.Unowned native) :
    c.Quiets (CodeCache.makeRoomFrom codeSize fuel c).1 ∧
      (CodeCache.makeRoomFrom codeSize fuel c).1.Unowned native := by
  induction fuel generalizing c with
  | zero => exact ⟨.refl, h⟩
  | succ fuel ih =>
    unfold CodeCache.makeRoomFrom
    split
    · cases hevict : c.evictLru with
      | none => exact ⟨.refl, h⟩
      | some r =>
        obtain ⟨slot, -, hr⟩ := Option.map_eq_some_iff.mp hevict
        have hquiet : c.Quiet r.1 := hr ▸ .remove c slot
        obtain ⟨hrest, hunowned⟩ := ih (hr ▸ removeSlot_unowned h slot : r.1.Unowned native)
        exact ⟨.head hquiet hrest, hunowned⟩
    · exact ⟨.refl, h⟩

theorem insert_quiets {slot : Nat} {e : CacheEntry} {native : NativeFunction}
    (hfree : (c.entries slot).state ≠ .live) (hnative : e.function = some native)
    (hfresh : c.Unowned native) (registered : Bool) :
    c.Quiets (c.insert slot e registered).1 := by
  have hinsert : c.Quiet { c.setEntry slot e with
      clock := c.tick
      count := c.count + 1
      codeBytes := c.codeBytes + e.codeSize } := by
    refine .insert slot native hfree hfresh rfl rfl ?_ ?_
    · simp only [CodeCache.setEntry, Function.update_self, hnative]
    · intro i hi
      exact Function.update_of_ne hi ..
  unfold CodeCache.insert
  cases registered with
  | true => exact .single hinsert
  | false => exact .tail (.single hinsert) (.remove _ slot)

theorem compile_quiets (hv : c.Valid m) {key : Word} {compiler : Compiler} {registered : Bool}
    (hfresh : c.Fresh (.compile key compiler registered)) :
    c.Quiets (c.compile key compiler registered).1 := by
  unfold CodeCache.compile
  by_cases hkey : key = 0
  · rw [if_pos hkey]
  rw [if_neg hkey]
  have hfind := hv.findLive_spec hkey
  cases hf : c.findLive key with
  | some slot => exact .single (touchEntry_quiet c slot)
  | none =>
    rw [hf] at hfind
    simp only
    cases hr : compiler.result with
    | error status => exact .refl
    | ok native =>
      simp only
      split
      · exact .refl
      obtain ⟨hv', -, hshrinks⟩ := hv.makeRoom native.codeSize
      have hunowned : c.Unowned native := hfresh hf native hr
      have hroom : c.Quiets (c.makeRoom native.codeSize).1 ∧
          (c.makeRoom native.codeSize).1.Unowned native :=
        makeRoomFrom_quiets native.codeSize c.count hunowned
      generalize c.makeRoom native.codeSize = room at *
      obtain ⟨c', evicted⟩ := room
      simp only at hv' hshrinks hroom ⊢
      obtain ⟨hquiets, hunowned'⟩ := hroom
      split
      · exact hquiets
      cases hslot : c'.findSlot key true with
      | none => exact hquiets
      | some slot =>
        obtain ⟨-, hfree, -⟩ := hv'.findSlot_insertable hkey (hshrinks key hfind) hslot
        have hins : c'.Quiets (c'.insert slot
            (functionEntry c' (c'.entries slot) key native) registered).1 :=
          insert_quiets hfree rfl hunowned' registered
        simp only
        split
        · exact .tail (hquiets.trans hins) (.same rfl rfl fun _ => ⟨rfl, rfl, rfl, rfl⟩)
        · exact hquiets.trans hins

theorem storeContinuation_quiets {k : Continuation} {prologueCount : Nat}
    {native : NativeFunction} {registered : Bool}
    (hfresh : c.Fresh (.storeContinuation k prologueCount native registered)) :
    c.Quiets (c.storeContinuation k prologueCount native registered).1 := by
  unfold CodeCache.storeContinuation
  split
  · exact .refl
  cases c.findContinuation k with
  | some slot => exact .single (touchEntry_quiet c slot)
  | none =>
    simp only
    split
    · exact .refl
    have hroom : c.Quiets (c.makeRoom native.codeSize).1 ∧
        (c.makeRoom native.codeSize).1.Unowned native :=
      makeRoomFrom_quiets native.codeSize c.count hfresh
    generalize c.makeRoom native.codeSize = room at *
    obtain ⟨c', evicted⟩ := room
    simp only at hroom ⊢
    obtain ⟨hquiets, hunowned⟩ := hroom
    split
    · exact hquiets
    cases hslot : c'.firstFree with
    | none => exact hquiets
    | some slot =>
      exact hquiets.trans (insert_quiets (firstFree_spec hslot).2 rfl hunowned registered)

theorem invalidate_quiets (c : CodeCache) (key : Word) : c.Quiets (c.invalidate key).1 := by
  unfold CodeCache.invalidate
  split
  · exact .refl
  · cases c.findSlot key false with
    | none => exact .refl
    | some slot => exact .single (.remove c slot)

theorem clear_quiets (hv : c.Valid m) : c.Quiets c.clear.1 := by
  obtain ⟨-, hlimits, hdead⟩ := clear_loop hv
  have hloop : c.Quiets (forUp c.slotCount clearSlot (c, [])).1 := by
    refine forUp_induction (P := fun _ (s : CodeCache × List CacheEvent) => c.Quiets s.1) .refl ?_
    intro n s _ hs
    exact .tail hs (.remove s.1 n)
  refine .tail hloop (.wipe rfl rfl ?_ (fun i => ?_))
  · intro i hi
    rw [hlimits.1] at hi
    exact hdead i hi
  · exact EntryState.noConfusion

theorem handlesFor_other {e : CacheEntry} {target argumentCount : Nat} {kind : EntryKind}
    (hne : handle ≠ target) :
    c.handlesFor e target kind argumentCount handle =
      if e.entryHandle = some handle ∧ (c.handles handle).function = e.function.map (·.id) then
        invalidateHandle (c.handles handle)
      else c.handles handle := by
  simp only [CodeCache.handlesFor, Function.update_of_ne hne]
  cases he : e.entryHandle with
  | none => simp
  | some h =>
    by_cases hh : h = handle
    · subst hh
      by_cases hfun : (c.handles h).function = e.function.map (·.id)
      · simp [hne, hfun]
      · simp [hfun]
    · simp only [Option.some.injEq, hh, false_and, if_false]
      split
      · exact Function.update_of_ne (Ne.symm hh) ..
      · rfl

theorem handlesFor_self {e : CacheEntry} {argumentCount : Nat} {kind : EntryKind} :
    c.handlesFor e handle kind argumentCount handle =
      publishEntryHandle (c.handles handle) (e.function.map (·.id)) kind argumentCount := by
  simp only [CodeCache.handlesFor, Function.update_self]
  cases e.entryHandle with
  | none => rfl
  | some h =>
    simp only
    split
    · rename_i hne
      rw [Function.update_of_ne (Ne.symm hne.1)]
    · rfl

theorem attachEntryHandle_steps (hv : c.Valid m) (key : Word) (target : Nat) (kind : EntryKind)
    (argumentCount targetIdentity handle : Nat) :
    HandleStep c (c.attachEntryHandle key target kind argumentCount targetIdentity).1 handle := by
  unfold CodeCache.attachEntryHandle
  by_cases harg : key = 0 ∨ kind = .none
  · rw [if_pos harg]
    exact .settled (.refl c handle)
  rw [if_neg harg]
  obtain ⟨hkey, hkind⟩ := not_or.mp harg
  have hfind := hv.findLive_spec hkey
  cases hf : c.findLive key with
  | none => exact .settled (.refl c handle)
  | some slot =>
    rw [hf] at hfind
    obtain ⟨hlt, hlive, -, hfunction, hsome, hm⟩ := hfind
    obtain ⟨native, hnative⟩ := Option.isSome_iff_exists.mp hsome
    rw [← hm] at hnative
    simp only
    generalize hc' : ({ c.setEntry slot { c.entries slot with
      entryHandle := some target
      entryKind := kind
      targetIdentity := targetIdentity } with
      handles := c.handlesFor (c.entries slot) target kind argumentCount } : CodeCache) = c'
    have hhandles : c'.handles = c.handlesFor (c.entries slot) target kind argumentCount := by
      rw [← hc']
    have hother : ∀ i, i ≠ slot → c'.entries i = c.entries i := by
      intro i hi
      rw [← hc']
      exact Function.update_of_ne hi ..
    have hslots : c'.slotCount = c.slotCount := by
      rw [← hc']
      rfl
    have howns : c'.Owns slot target native.id := by
      rw [← hc']
      constructor
      · exact hlt
      · simpa only [CodeCache.setEntry, Function.update_self] using hlive
      · simpa only [CodeCache.setEntry, Function.update_self] using hfunction
      · simp only [CodeCache.setEntry, Function.update_self, hnative, Option.map_some]
      · simp only [CodeCache.setEntry, Function.update_self]
    by_cases htarget : handle = target
    · subst htarget
      have hself : c.handlesFor (c.entries slot) handle kind argumentCount handle = _ :=
        handlesFor_self
      rw [← hhandles, hnative, publishEntryHandle] at hself
      split at hself
      · refine .settled (.kept hself ?_)
        intro slot' id hfun howns'
        by_cases he : slot' = slot
        · subst he
          have := howns'.function
          rw [hnative] at this
          cases this
          exact howns
        · refine howns'.congr hslots ?_
          simp only [hother slot' he, and_self]
      · exact .published hkind hself howns
    · have hkept : c.handlesFor (c.entries slot) target kind argumentCount handle = _ :=
        handlesFor_other htarget
      rw [← hhandles] at hkept
      split at hkept
      · exact .settled (.invalidated hkept)
      · rename_i hnot
        refine .settled (.kept hkept ?_)
        intro slot' id hfun howns'
        by_cases he : slot' = slot
        · subst he
          exact absurd ⟨howns'.handle, hfun.trans howns'.function.symm⟩ hnot
        · refine howns'.congr hslots ?_
          simp only [hother slot' he, and_self]

theorem attachEntryHandle_distinct (hd : c.Distinct) (key : Word) (target : Nat)
    (kind : EntryKind) (argumentCount targetIdentity : Nat) :
    (c.attachEntryHandle key target kind argumentCount targetIdentity).1.Distinct := by
  unfold CodeCache.attachEntryHandle
  split
  · exact hd
  cases c.findLive key with
  | none => exact hd
  | some slot =>
    refine hd.congr ?_
    intro i
    simp only [CodeCache.setEntry]
    by_cases he : i = slot
    · subst he
      simp only [Function.update_self, and_self]
    · simp only [Function.update_of_ne he, and_self]

structure CodeCache.Sound (c : CodeCache) : Prop where
  valid : ∃ m, c.Valid m
  distinct : c.Distinct
  published : c.Published
  reset : c.Reset

theorem perform_steps (hs : c.Sound) {op : CacheOp} (hfresh : c.Fresh op) :
    (c.perform op).1.Distinct ∧ ∀ handle, HandleStep c (c.perform op).1 handle := by
  obtain ⟨m, hv⟩ := hs.valid
  have hquiet : ∀ {c' : CodeCache}, c.Quiets c' →
      c'.Distinct ∧ ∀ handle, HandleStep c c' handle := fun h =>
    ⟨h.distinct hs.distinct, fun handle => .settled (h.settled handle)⟩
  cases op with
  | lookup key => exact hquiet (lookup_quiets c key)
  | compile key compiler registered => exact hquiet (compile_quiets hv hfresh)
  | storeContinuation k prologueCount native registered =>
    exact hquiet (storeContinuation_quiets hfresh)
  | lookupContinuation k => exact hquiet (lookupContinuation_quiets c k)
  | attachEntryHandle key target kind argumentCount targetIdentity =>
    exact ⟨attachEntryHandle_distinct hs.distinct key target kind argumentCount targetIdentity,
      attachEntryHandle_steps hv key target kind argumentCount targetIdentity⟩
  | invalidate key => exact hquiet (invalidate_quiets c key)
  | clear => exact hquiet (clear_quiets hv)

theorem CodeCache.Sound.perform (hs : c.Sound) {op : CacheOp} (hfresh : c.Fresh op) :
    (c.perform op).1.Sound := by
  obtain ⟨hdistinct, hsteps⟩ := perform_steps hs hfresh
  obtain ⟨m, hv⟩ := hs.valid
  exact ⟨⟨_, hv.perform op⟩, hdistinct, published_of_steps hs.published hsteps,
    reset_of_steps hs.reset hsteps⟩

end

def CodeCache.after (c : CodeCache) (ops : List CacheOp) : CodeCache := (c.run ops).1

theorem after_cons (c : CodeCache) (op : CacheOp) (ops : List CacheOp) :
    c.after (op :: ops) = (c.perform op).1.after ops := by
  have hfst : ∀ (ops : List CacheOp) (c : CodeCache) (log : List CacheEvent),
      (ops.foldl CodeCache.logged (c, log)).1 = c.after ops := by
    intro ops
    induction ops with
    | nil => exact fun _ _ => rfl
    | cons op ops ih =>
      intro c log
      have hone := ih (c.perform op).1 (log ++ (c.perform op).2)
      have hother := ih (c.perform op).1 ([] ++ (c.perform op).2)
      exact hone.trans hother.symm
  exact hfst ops (c.perform op).1 _

theorem after_append (c : CodeCache) (ops rest : List CacheOp) :
    c.after (ops ++ rest) = (c.after ops).after rest := by
  induction ops generalizing c with
  | nil => rfl
  | cons op ops ih =>
    rw [List.cons_append, after_cons, after_cons]
    exact ih _

def CodeCache.FreshAlong (c : CodeCache) (ops : List CacheOp) : Prop :=
  Along (fun c op => (c.perform op).1) CodeCache.Fresh c ops

/-- How often operations change what a handle publishes, a withdrawal counted like a
publication. -/
def CodeCache.publications (c : CodeCache) (handle : Nat) : List CacheOp → Nat
  | [] => 0
  | op :: ops =>
    (if (c.perform op).1.handles handle = c.handles handle then 0 else 1) +
      (c.perform op).1.publications handle ops

theorem freshAlong_append {c : CodeCache} {ops rest : List CacheOp} :
    c.FreshAlong (ops ++ rest) ↔ c.FreshAlong ops ∧ (c.after ops).FreshAlong rest := by
  induction ops generalizing c with
  | nil => exact (and_iff_right trivial).symm
  | cons op ops ih =>
    rw [after_cons]
    exact (and_congr_right fun _ => ih).trans and_assoc.symm

theorem publications_append (c : CodeCache) (handle : Nat) (ops rest : List CacheOp) :
    c.publications handle (ops ++ rest) =
      c.publications handle ops + (c.after ops).publications handle rest := by
  induction ops generalizing c with
  | nil => exact (Nat.zero_add _).symm
  | cons op ops ih =>
    simp only [List.cons_append, CodeCache.publications, after_cons, ih]
    omega

section

variable {c : CodeCache} {handle : Nat} {ops : List CacheOp}

theorem CodeCache.Sound.after (hs : c.Sound) (hfresh : c.FreshAlong ops) :
    (c.after ops).Sound := by
  induction ops generalizing c with
  | nil => exact hs
  | cons op ops ih =>
    rw [after_cons]
    exact ih (hs.perform hfresh.1) hfresh.2

theorem CodeCache.Sound.generation (hs : c.Sound) (hfresh : c.FreshAlong ops)
    (hfew : (c.handles handle).generation + c.publications handle ops < 2 ^ 64) :
    ((c.after ops).handles handle).generation =
      (c.handles handle).generation + c.publications handle ops := by
  induction ops generalizing c with
  | nil => rfl
  | cons op ops ih =>
    rw [after_cons]
    simp only [CodeCache.publications] at hfew ⊢
    have hgen := ((perform_steps hs hfresh.1).2 handle).generation hs.reset
    have hrest := ih (hs.perform hfresh.1) hfresh.2
    by_cases hsame : (c.perform op).1.handles handle = c.handles handle
    · rw [if_pos hsame] at hfew ⊢
      rw [hsame] at hrest
      rw [hrest (by omega)]
      omega
    · rw [if_neg hsame] at hfew ⊢
      have hnext : ((c.perform op).1.handles handle).generation =
          (c.handles handle).generation + 1 := by
        rw [hgen.resolve_left hsame, nextEntryGeneration]
        rw [Nat.mod_eq_of_lt (by omega), if_neg (by omega)]
      rw [hnext] at hrest
      rw [hrest (by omega)]
      omega

theorem CodeCache.Sound.unpublished (hs : c.Sound) (hfresh : c.FreshAlong ops)
    (hnone : c.publications handle ops = 0) {slot id : Nat}
    (hfun : (c.handles handle).function = some id)
    (hlt : (c.handles handle).generation < 2 ^ 64) (howns : c.Owns slot handle id) :
    (c.after ops).handles handle = c.handles handle ∧ (c.after ops).Owns slot handle id := by
  induction ops generalizing c with
  | nil => exact ⟨rfl, howns⟩
  | cons op ops ih =>
    rw [after_cons]
    simp only [CodeCache.publications, Nat.add_eq_zero_iff, ite_eq_left_iff,
      one_ne_zero, imp_false, not_not] at hnone
    obtain ⟨hsame, hrest⟩ := hnone
    have howns' := ((perform_steps hs hfresh.1).2 handle).owner hsame hfun howns hlt
    rw [← hsame] at hfun hlt
    obtain ⟨hend, hown⟩ := ih (hs.perform hfresh.1) hfresh.2 hrest hfun hlt howns'
    exact ⟨hend.trans hsame, hown⟩

theorem CodeCache.Sound.owner_unique (hs : c.Sound) {slot slot' handle' id : Nat}
    (h : c.Owns slot handle id) (h' : c.Owns slot' handle' id) : slot' = slot :=
  hs.distinct slot' slot id h'.live h.live h'.function h.function

theorem nativeEntryInvoke_dead {kind : EntryKind} {h : NativeEntryHandle} {generation n : Nat}
    (hne : h.generation ≠ generation) :
    nativeEntryInvoke kind h generation n = .status .unsupported := by
  simp [nativeEntryInvoke, NativeEntryHandle.isLive, hne]

theorem nativeEntryInvoke_live (kind : EntryKind) {h : NativeEntryHandle} (generation n : Nat)
    {id : Nat} (hfun : h.function = some id) :
    nativeEntryInvoke kind h generation n = .status .unsupported ∨
      (nativeEntryInvoke kind h generation n = .status .invalidArgument ∧ n < h.argumentCount) ∨
      nativeEntryInvoke kind h generation n = .native id := by
  unfold nativeEntryInvoke
  split
  · exact .inl rfl
  split
  · rename_i hlt
    exact .inr (.inl ⟨rfl, hlt⟩)
  · right
    right
    rw [hfun]
    rfl

end

theorem create_sound {maximumEntries maximumCodeBytes : Nat} {c : CodeCache}
    (h : CodeCache.create maximumEntries maximumCodeBytes = some c) :
    c.Sound ∧ ∀ handle, (c.handles handle).generation = 0 := by
  have hv := create_valid h
  unfold CodeCache.create at h
  simp only at h
  generalize nextPow2 _ = slots at h
  by_cases hslots : slots = 0
  · rw [if_pos hslots] at h
    cases h
  rw [if_neg hslots] at h
  simp only [Option.some.injEq] at h
  subst h
  refine ⟨⟨⟨_, hv⟩, ?_, ?_, ?_⟩, fun _ => rfl⟩
  · intro i j id hi
    cases hi
  · intro handle id hfun
    cases hfun
  · exact fun _ _ => ⟨rfl, rfl⟩

/-- A caller that remembers the generation of a handle, recorded while it published a function,
runs that function through it or nothing: a later invocation is unsupported, is refused for too
few arguments, or runs the same function, which one and the same live entry has owned ever since.
A generation that comes back means the same function, and what any handle publishes is owned by
one live entry. -/
theorem entry_handles_run_no_stale_code {maximumEntries maximumCodeBytes : Nat} {c₀ : CodeCache}
    (hcreate : CodeCache.create maximumEntries maximumCodeBytes = some c₀)
    (before later : List CacheOp) (hfresh : c₀.FreshAlong (before ++ later)) (handle : Nat)
    (hfew : c₀.publications handle (before ++ later) < 2 ^ 64) {id : Nat}
    (hpub : ((c₀.after before).handles handle).function = some id) :
    let recorded := (c₀.after before).handles handle
    let c := c₀.after (before ++ later)
    (∀ kind argumentCount,
      let call := nativeEntryInvoke kind (c.handles handle) recorded.generation argumentCount
      call = .status .unsupported ∨
      (call = .status .invalidArgument ∧ argumentCount < recorded.argumentCount) ∨
      (call = .native id ∧
        ∃! slot, ∀ mid, mid <+: later → (c₀.after (before ++ mid)).Owns slot handle id)) ∧
    ((c.handles handle).generation = recorded.generation →
      (c.handles handle).function = some id) ∧
    ∀ other published, (c.handles other).function = some published →
      ∃! slot, c.Owns slot other published := by
  obtain ⟨hs₀, hzero⟩ := create_sound hcreate
  obtain ⟨hfresh₁, hfresh₂⟩ := freshAlong_append.mp hfresh
  have hs := hs₀.after hfresh₁
  have hsend := hs₀.after hfresh
  rw [publications_append] at hfew
  have hgen : ((c₀.after before).handles handle).generation =
      c₀.publications handle before := by
    have hsmall : (c₀.handles handle).generation + c₀.publications handle before < 2 ^ 64 := by
      rw [hzero]
      omega
    have h := hs₀.generation hfresh₁ hsmall
    rw [hzero, Nat.zero_add] at h
    exact h
  have hsmall : ((c₀.after before).handles handle).generation +
      (c₀.after before).publications handle later < 2 ^ 64 := by
    omega
  have hgen' := hs.generation hfresh₂ hsmall
  -- The generation is that of the recording only if nothing was published since.
  have hback : ((c₀.after (before ++ later)).handles handle).generation =
      ((c₀.after before).handles handle).generation →
      (c₀.after before).publications handle later = 0 := by
    intro h
    rw [after_append, hgen'] at h
    omega
  obtain ⟨slot, howns⟩ := hs.published handle id hpub
  have hkept : (c₀.after before).publications handle later = 0 → ∀ mid, mid <+: later →
      (c₀.after (before ++ mid)).handles handle = (c₀.after before).handles handle ∧
        (c₀.after (before ++ mid)).Owns slot handle id := by
    rintro hnone mid ⟨rest, rfl⟩
    rw [publications_append] at hnone
    rw [after_append]
    exact hs.unpublished (freshAlong_append.mp hfresh₂).1 (by omega) hpub (by omega) howns
  refine ⟨?_, ?_, ?_⟩
  · intro kind argumentCount
    by_cases hsame : ((c₀.after (before ++ later)).handles handle).generation =
        ((c₀.after before).handles handle).generation
    · have hmid := hkept (hback hsame)
      obtain ⟨hend, hown⟩ := hmid later (List.prefix_refl later)
      have hunique : ∃! slot, ∀ mid, mid <+: later →
          (c₀.after (before ++ mid)).Owns slot handle id := by
        refine ⟨slot, fun mid h => (hmid mid h).2, ?_⟩
        intro slot' h'
        exact hsend.owner_unique hown (h' later (List.prefix_refl later))
      simp only [hend]
      rcases nativeEntryInvoke_live kind ((c₀.after before).handles handle).generation
        argumentCount hpub with h | h | h
      · exact .inl h
      · exact .inr (.inl h)
      · exact .inr (.inr ⟨h, hunique⟩)
    · exact .inl (nativeEntryInvoke_dead hsame)
  · intro hsame
    rw [(hkept (hback hsame) later (List.prefix_refl later)).1]
    exact hpub
  · intro other published hfun
    obtain ⟨slot', hown⟩ := hsend.published other published hfun
    exact ⟨slot', hown, fun slot'' h => hsend.owner_unique hown h⟩

def publishedPair : List CacheOp :=
  [.compile 8 ⟨.ok ⟨1, 10⟩, none⟩ true, .attachEntryHandle 8 0 .int32 2 0]

def replacedPair : List CacheOp :=
  [.clear, .compile 16 ⟨.ok ⟨1, 10⟩, none⟩ true, .attachEntryHandle 16 0 .int32 2 0]

/-- A call with the old generation does not run the function that has the old address. -/
theorem reused_address_is_not_run :
    ∃ c₀, CodeCache.create 1 4096 = some c₀ ∧
      nativeEntryInvokeI64 ((c₀.after publishedPair).handles 0) 1 2 = .native 1 ∧
      ((c₀.after (publishedPair ++ replacedPair)).handles 0).function = some 1 ∧
      nativeEntryInvokeI64 ((c₀.after (publishedPair ++ replacedPair)).handles 0) 1 2 =
        .status .unsupported ∧
      ∃! slot, (c₀.after (publishedPair ++ replacedPair)).Owns slot 0 1 := by
  have hcreate : ∃ c₀, CodeCache.create 1 4096 = some c₀ := ⟨_, rfl⟩
  obtain ⟨c₀, hc⟩ := hcreate
  have hfresh : c₀.FreshAlong (publishedPair ++ replacedPair) := by
    cases hc
    refine ⟨?_, trivial, trivial, ?_, trivial, trivial⟩
    · intro _ native _ i hi
      cases hi
    · intro _ native _ i hi
      change EntryState.empty = .live at hi
      cases hi
  have hpub : ((c₀.after publishedPair).handles 0).function = some 1 := by
    cases hc
    decide +kernel
  have hresult := entry_handles_run_no_stale_code hc publishedPair replacedPair hfresh 0
    (by cases hc; decide +kernel) hpub
  refine ⟨c₀, hc, ?_, ?_, ?_, ?_⟩
  · cases hc
    decide +kernel
  · cases hc
    decide +kernel
  · cases hc
    decide +kernel
  · exact hresult.2.2 0 1 (by cases hc; decide +kernel)

/-- A call with fewer arguments than the handle asks for is refused: it does not run the function
that the handle publishes, and it is not reported as unsupported. -/
theorem short_call_is_refused :
    ∃ c₀, CodeCache.create 1 4096 = some c₀ ∧
      ((c₀.after publishedPair).handles 0).function = some 1 ∧
      ((c₀.after publishedPair).handles 0).generation = 1 ∧
      ((c₀.after publishedPair).handles 0).kind = .int32 ∧
      nativeEntryInvokeI64 ((c₀.after publishedPair).handles 0) 1 1 ≠ .native 1 ∧
      nativeEntryInvokeI64 ((c₀.after publishedPair).handles 0) 1 1 ≠ .status .unsupported := by
  refine ⟨_, rfl, ?_⟩
  decide +kernel

end TurboJS.Runtime
