import Mathlib.Data.Finset.Card
import Mathlib.Algebra.Order.Ring.Int

namespace TurboJS.Runtime

/-! The targets seen at a call site: the slot, and the copy of its automaton in the interpreter. -/

def maxTargets : Nat := 4
def uint32Limit : Nat := 2 ^ 32 - 1
def uint64Limit : Nat := 2 ^ 64 - 1

inductive CallFeedbackState
  | uninitialized | monomorphic | polymorphic | megamorphic
  deriving DecidableEq, Repr

def CallFeedbackState.rank : CallFeedbackState → Nat
  | uninitialized => 0
  | monomorphic => 1
  | polymorphic => 2
  | megamorphic => 3

structure CallFeedbackTarget where
  targetIdentity : BitVec 64
  hits : Nat
  deriving DecidableEq, Repr

/-- `TurboJSCallFeedbackSlot`, with the used part of its array of targets. -/
structure CallFeedbackSlot where
  targets : List CallFeedbackTarget := []
  observations : Nat := 0
  misses : Nat := 0
  generation : Nat := 0
  state : CallFeedbackState := .uninitialized
  deriving DecidableEq, Repr

def saturatingIncrement (limit value : Nat) : Nat := if value = limit then value else value + 1

def hitTarget (identity : BitVec 64) : List CallFeedbackTarget → Option (List CallFeedbackTarget)
  | [] => none
  | t :: rest =>
    if t.targetIdentity = identity then
      some ({ t with hits := saturatingIncrement uint32Limit t.hits } :: rest)
    else (hitTarget identity rest).map (t :: ·)

namespace CallFeedbackSlot

def init : CallFeedbackSlot := {}

def observe (slot : CallFeedbackSlot) (identity : BitVec 64) : CallFeedbackSlot :=
  let slot := { slot with observations := saturatingIncrement uint64Limit slot.observations }
  if identity = 0 then { slot with misses := saturatingIncrement uint32Limit slot.misses }
  else
    let oldState := slot.state
    match hitTarget identity slot.targets with
    | some targets => { slot with targets }
    | none =>
      let slot := { slot with misses := saturatingIncrement uint32Limit slot.misses }
      if slot.state = .megamorphic then slot
      else
        let slot : CallFeedbackSlot :=
          if slot.targets.length < maxTargets then
            let targets := slot.targets ++ [⟨identity, 1⟩]
            let state := if targets.length = 1 then .monomorphic else .polymorphic
            { slot with targets, state }
          else { slot with state := .megamorphic }
        if slot.state ≠ oldState then
          { slot with generation := saturatingIncrement uint32Limit slot.generation }
        else slot

def monomorphicTarget (slot : CallFeedbackSlot) (minimumHits : Nat) : Option (BitVec 64) :=
  if slot.state ≠ .monomorphic then none
  else
    match slot.targets with
    | [t] => if t.hits < minimumHits then none else some t.targetIdentity
    | _ => none

def build (identities : List (BitVec 64)) : CallFeedbackSlot := identities.foldl observe init

end CallFeedbackSlot

def feedbackSize : Nat := 16
def feedbackBudget : Nat := 8192

structure CallFeedbackEntry where
  bytecodeOffset : BitVec 32 := 0
  slot : CallFeedbackSlot := {}

structure FeedbackFunction where
  jitIdentity : BitVec 64 := 0
  callFeedback : Option (Fin feedbackSize → CallFeedbackEntry) := none
  remaining : Nat := 0

structure FeedbackRuntime where
  profilingEnabled : Bool
  nextFunctionIdentity : BitVec 64
  functions : Nat → FeedbackFunction
  observations : Nat := 0
  monomorphic : Nat := 0
  polymorphic : Nat := 0
  megamorphic : Nat := 0
  transitions : Nat := 0

namespace FeedbackRuntime

def setFunction (rt : FeedbackRuntime) (b : Nat) (f : FeedbackFunction) : FeedbackRuntime :=
  { rt with functions := Function.update rt.functions b f }

def enabled (rt : FeedbackRuntime) (caller : Nat) : Bool :=
  rt.profilingEnabled &&
    ((rt.functions caller).callFeedback.isNone || (rt.functions caller).remaining != 0)

def functionIdentity (rt : FeedbackRuntime) (b : Nat) : BitVec 64 × FeedbackRuntime :=
  if (rt.functions b).jitIdentity ≠ 0 then ((rt.functions b).jitIdentity, rt)
  else
    let identity := rt.nextFunctionIdentity + 1
    let identity := if identity = 0 then identity + 1 else identity
    let rt := { rt with nextFunctionIdentity := identity }
    (identity, rt.setFunction b { rt.functions b with jitIdentity := identity })

def slotIndex (bytecodeOffset : BitVec 32) : Fin feedbackSize :=
  ⟨((bytecodeOffset * 2654435761) >>> 28 &&& 15).toNat, by
    rw [BitVec.toNat_and]
    exact Nat.lt_succ_of_le Nat.and_le_right⟩

def feedbackTable (f : FeedbackFunction) (alloc : Bool) :
    Option ((Fin feedbackSize → CallFeedbackEntry) × Nat) :=
  match f.callFeedback with
  | some table => some (table, f.remaining)
  | none => if alloc then some ((fun _ => {}), feedbackBudget) else none

/-- `turbojs_vm_call_feedback_slot`: the table with the entry of the call site, and the runtime
that it is kept in. `alloc` says whether there is memory for a new table. -/
def callFeedbackSlot (rt : FeedbackRuntime) (caller : Nat) (bytecodeOffset : BitVec 32)
    (alloc : Bool) : Option ((Fin feedbackSize → CallFeedbackEntry) × FeedbackRuntime) := do
  let f := rt.functions caller
  let (table, remaining) ← feedbackTable f alloc
  let h := slotIndex bytecodeOffset
  let table :=
    if (table h).bytecodeOffset ≠ bytecodeOffset then
      Function.update table h ⟨bytecodeOffset, .init⟩
    else table
  return (table, rt.setFunction caller { f with callFeedback := some table, remaining })

def hitTarget (identity : BitVec 64) : List CallFeedbackTarget → Option (List CallFeedbackTarget)
  | [] => none
  | t :: rest =>
    if t.targetIdentity = identity then
      some ((if t.hits ≠ uint32Limit then { t with hits := t.hits + 1 } else t) :: rest)
    else (hitTarget identity rest).map (t :: ·)

def countState (rt : FeedbackRuntime) : CallFeedbackState → FeedbackRuntime
  | .uninitialized => rt
  | .monomorphic => { rt with monomorphic := rt.monomorphic + 1 }
  | .polymorphic => { rt with polymorphic := rt.polymorphic + 1 }
  | .megamorphic => { rt with megamorphic := rt.megamorphic + 1 }

def observeSlot (rt : FeedbackRuntime) (slot : CallFeedbackSlot) (identity : BitVec 64) :
    CallFeedbackSlot × FeedbackRuntime :=
  let before := slot.state
  let slot :=
    if slot.observations ≠ uint64Limit then { slot with observations := slot.observations + 1 }
    else slot
  match hitTarget identity slot.targets with
  | some targets => ({ slot with targets }, { rt with observations := rt.observations + 1 })
  | none =>
    let slot :=
      if slot.misses ≠ uint32Limit then { slot with misses := slot.misses + 1 } else slot
    let slot :=
      if slot.state ≠ .megamorphic then
        if slot.targets.length < maxTargets then
          let targets := slot.targets ++ [⟨identity, 1⟩]
          let state := if targets.length = 1 then .monomorphic else .polymorphic
          { slot with targets, state }
        else { slot with state := .megamorphic }
      else slot
    let after := slot.state
    let rt := { rt with observations := rt.observations + 1 }
    if before ≠ after then
      let slot :=
        if slot.generation ≠ uint32Limit then { slot with generation := slot.generation + 1 }
        else slot
      (slot, { rt with transitions := rt.transitions + 1 }.countState after)
    else (slot, rt)

def observe (rt : FeedbackRuntime) (caller : Nat) (bytecodeOffset : BitVec 32) (target : Nat)
    (alloc : Bool) : CallFeedbackState × FeedbackRuntime :=
  match rt.callFeedbackSlot caller bytecodeOffset alloc with
  | none => (.uninitialized, rt)
  | some (table, rt) =>
    let entry := table (slotIndex bytecodeOffset)
    if (rt.functions caller).remaining = 0 then (entry.slot.state, rt)
    else
      let f := rt.functions caller
      let rt := rt.setFunction caller { f with remaining := f.remaining - 1 }
      let (identity, rt) := rt.functionIdentity target
      let (slot, rt) := rt.observeSlot entry.slot identity
      let table := Function.update table (slotIndex bytecodeOffset) { entry with slot }
      (slot.state, rt.setFunction caller { rt.functions caller with callFeedback := some table })

def lookup (rt : FeedbackRuntime) (caller : Nat) (bytecodeOffset : BitVec 32) :
    Option CallFeedbackSlot := do
  let table ← (rt.functions caller).callFeedback
  let entry := table (slotIndex bytecodeOffset)
  if entry.bytecodeOffset ≠ bytecodeOffset then none else some entry.slot

end FeedbackRuntime

def identitiesOf (ids : List (BitVec 64)) : Finset (BitVec 64) := ids.toFinset.erase 0

def stateFor (n : Nat) : CallFeedbackState :=
  if n = 0 then .uninitialized
  else if n = 1 then .monomorphic
  else if n ≤ maxTargets then .polymorphic
  else .megamorphic

namespace CallFeedbackSlot

def recorded (slot : CallFeedbackSlot) : List (BitVec 64) := slot.targets.map (·.targetIdentity)

structure Unsaturated (slot : CallFeedbackSlot) : Prop where
  observations : slot.observations < uint64Limit
  misses : slot.misses < uint32Limit
  hits : ∀ t ∈ slot.targets, t.hits < uint32Limit

/-- Below saturation the observations are the hits and the misses that recorded no target. Each
target has recorded one miss. -/
def Counted (slot : CallFeedbackSlot) : Prop :=
  slot.Unsaturated → slot.targets.length ≤ slot.misses ∧
    slot.observations = (slot.targets.map (·.hits)).sum + (slot.misses - slot.targets.length)

structure Faithful (ids : List (BitVec 64)) (slot : CallFeedbackSlot) : Prop where
  distinct : slot.recorded.Nodup
  nonzero : 0 ∉ slot.recorded
  state : slot.state = stateFor (identitiesOf ids).card
  counted : slot.Counted
  rises : ∀ more : List (BitVec 64),
    slot.state.rank ≤ (more.foldl observe slot).state.rank ∧
      slot.generation ≤ (more.foldl observe slot).generation
  only : ∀ minimumHits target, slot.monomorphicTarget minimumHits = some target →
    identitiesOf ids = {target}

end CallFeedbackSlot

theorem saturatingIncrement_ge (limit value : Nat) :
    value ≤ saturatingIncrement limit value := by
  unfold saturatingIncrement
  split <;> omega

theorem saturatingIncrement_of_lt {limit value : Nat}
    (h : saturatingIncrement limit value < limit) :
    saturatingIncrement limit value = value + 1 := by
  unfold saturatingIncrement at h ⊢
  split
  · rename_i heq
    rw [if_pos heq] at h
    omega
  · rfl

section

variable {identity : BitVec 64} {targets targets' : List CallFeedbackTarget}

theorem hitTarget_eq_none :
    hitTarget identity targets = none ↔ identity ∉ targets.map (·.targetIdentity) := by
  induction targets with
  | nil => simp [hitTarget]
  | cons t targets ih =>
    rw [hitTarget]
    by_cases h : t.targetIdentity = identity
    · simp [h]
    · rw [if_neg h, Option.map_eq_none_iff, ih, List.map_cons, List.mem_cons, not_or]
      exact ⟨fun hrest => ⟨fun heq => h heq.symm, hrest⟩, fun hrest => hrest.2⟩

theorem hitTarget_some (h : hitTarget identity targets = some targets') :
    targets'.map (·.targetIdentity) = targets.map (·.targetIdentity) ∧
      ((∀ t ∈ targets', t.hits < uint32Limit) →
        (∀ t ∈ targets, t.hits < uint32Limit) ∧
          (targets'.map (·.hits)).sum = (targets.map (·.hits)).sum + 1) := by
  induction targets generalizing targets' with
  | nil => cases h
  | cons t targets ih =>
    rw [hitTarget] at h
    split at h
    · cases h
      refine ⟨rfl, fun hfull => ?_⟩
      have hhead := hfull _ List.mem_cons_self
      have hstep := saturatingIncrement_of_lt hhead
      have hge := saturatingIncrement_ge uint32Limit t.hits
      refine ⟨?_, ?_⟩
      · rintro u (_ | ⟨_, hu⟩)
        · exact Nat.lt_of_le_of_lt hge hhead
        · exact hfull u (List.mem_cons_of_mem _ hu)
      · simp only [List.map_cons, List.sum_cons, hstep]
        omega
    · cases hrest : hitTarget identity targets with
      | none =>
        rw [hrest] at h
        cases h
      | some rest =>
        rw [hrest] at h
        cases h
        obtain ⟨hids, hsum⟩ := ih hrest
        refine ⟨by simp only [List.map_cons, hids], fun hfull => ?_⟩
        obtain ⟨hlimits, hadd⟩ := hsum fun u hu => hfull u (List.mem_cons_of_mem _ hu)
        refine ⟨?_, ?_⟩
        · rintro u (_ | ⟨_, hu⟩)
          · exact hfull t List.mem_cons_self
          · exact hlimits u hu
        · simp only [List.map_cons, List.sum_cons, hadd]
          omega

end

theorem identitiesOf_append_zero (ids : List (BitVec 64)) :
    identitiesOf (ids ++ [0]) = identitiesOf ids := by
  ext a
  simp only [identitiesOf, Finset.mem_erase, List.mem_toFinset, List.mem_append,
    List.mem_singleton]
  tauto

theorem identitiesOf_append {identity : BitVec 64} (h : identity ≠ 0) (ids : List (BitVec 64)) :
    identitiesOf (ids ++ [identity]) = insert identity (identitiesOf ids) := by
  ext a
  simp only [identitiesOf, Finset.mem_insert, Finset.mem_erase, List.mem_toFinset,
    List.mem_append, List.mem_singleton]
  constructor
  · rintro ⟨hzero, hmem | rfl⟩
    · exact .inr ⟨hzero, hmem⟩
    · exact .inl rfl
  · rintro (rfl | ⟨hzero, hmem⟩)
    · exact ⟨h, .inr rfl⟩
    · exact ⟨hzero, .inl hmem⟩

namespace CallFeedbackSlot

section

variable {slot : CallFeedbackSlot} {identity : BitVec 64} {ids : List (BitVec 64)}

inductive Observed (slot : CallFeedbackSlot) (identity : BitVec 64) : CallFeedbackSlot → Prop
  | unknown (h : identity = 0) : Observed slot identity
      { slot with
        observations := saturatingIncrement uint64Limit slot.observations
        misses := saturatingIncrement uint32Limit slot.misses }
  | hit (h : identity ≠ 0) (targets : List CallFeedbackTarget)
      (hhit : hitTarget identity slot.targets = some targets) : Observed slot identity
      { slot with
        observations := saturatingIncrement uint64Limit slot.observations
        targets }
  | beyond (h : identity ≠ 0) (hnew : identity ∉ slot.recorded)
      (hstate : slot.state = .megamorphic) : Observed slot identity
      { slot with
        observations := saturatingIncrement uint64Limit slot.observations
        misses := saturatingIncrement uint32Limit slot.misses }
  | record (h : identity ≠ 0) (hnew : identity ∉ slot.recorded)
      (hstate : slot.state ≠ .megamorphic) (hroom : slot.targets.length < maxTargets)
      (state : CallFeedbackState) (generation : Nat)
      (hafter : state = if slot.targets = [] then .monomorphic else .polymorphic)
      (hgeneration : slot.generation ≤ generation) : Observed slot identity
      { targets := slot.targets ++ [⟨identity, 1⟩]
        observations := saturatingIncrement uint64Limit slot.observations
        misses := saturatingIncrement uint32Limit slot.misses
        generation
        state }
  | overflow (h : identity ≠ 0) (hnew : identity ∉ slot.recorded)
      (hstate : slot.state ≠ .megamorphic) (hfull : maxTargets ≤ slot.targets.length)
      (generation : Nat) (hgeneration : slot.generation ≤ generation) : Observed slot identity
      { slot with
        observations := saturatingIncrement uint64Limit slot.observations
        misses := saturatingIncrement uint32Limit slot.misses
        generation
        state := .megamorphic }

theorem observe_observed (slot : CallFeedbackSlot) (identity : BitVec 64) :
    Observed slot identity (slot.observe identity) := by
  unfold observe
  by_cases hzero : identity = 0
  · simp only [if_pos hzero]
    exact .unknown hzero
  simp only [if_neg hzero]
  cases hhit : hitTarget identity slot.targets with
  | some targets => exact .hit hzero targets hhit
  | none =>
    have hnew := hitTarget_eq_none.mp hhit
    simp only
    by_cases hstate : slot.state = .megamorphic
    · simp only [if_pos hstate]
      exact .beyond hzero hnew hstate
    · simp only [if_neg hstate]
      by_cases hroom : slot.targets.length < maxTargets
      · have hempty : (slot.targets ++ [(⟨identity, 1⟩ : CallFeedbackTarget)]).length = 1 ↔
            slot.targets = [] := by
          simp
        simp only [if_pos hroom, hempty]
        generalize hafter : (if slot.targets = [] then CallFeedbackState.monomorphic
          else CallFeedbackState.polymorphic) = state
        split
        · exact .record hzero hnew hstate hroom _ _ hafter.symm (saturatingIncrement_ge ..)
        · exact .record hzero hnew hstate hroom _ _ hafter.symm (Nat.le_refl _)
      · simp only [if_neg hroom]
        split
        · exact .overflow hzero hnew hstate (Nat.not_lt.mp hroom) _ (saturatingIncrement_ge ..)
        · exact .overflow hzero hnew hstate (Nat.not_lt.mp hroom) _ (Nat.le_refl _)

structure Tracks (ids : List (BitVec 64)) (slot : CallFeedbackSlot) : Prop where
  distinct : slot.recorded.Nodup
  nonzero : 0 ∉ slot.recorded
  state :
    (slot.recorded.toFinset = identitiesOf ids ∧ slot.targets.length ≤ maxTargets ∧
      slot.state = stateFor slot.targets.length) ∨
    (slot.recorded.toFinset ⊆ identitiesOf ids ∧ maxTargets < (identitiesOf ids).card ∧
      slot.targets.length = maxTargets ∧ slot.state = .megamorphic)
  counted : slot.Counted

theorem tracks_init : Tracks [] init := by
  refine ⟨List.nodup_nil, List.not_mem_nil, .inl ⟨rfl, Nat.zero_le _, rfl⟩, fun _ => ?_⟩
  exact ⟨Nat.le_refl 0, rfl⟩

theorem length_recorded (slot : CallFeedbackSlot) :
    slot.recorded.length = slot.targets.length := List.length_map _

theorem Tracks.card (h : Tracks ids slot) : slot.state = stateFor (identitiesOf ids).card := by
  rcases h.state with ⟨hids, -, hstate⟩ | ⟨-, hcard, -, hstate⟩
  · rw [hstate, ← hids, List.toFinset_card_of_nodup h.distinct, length_recorded]
  · rw [hstate, stateFor, if_neg (by omega), if_neg (by simp only [maxTargets] at hcard; omega),
      if_neg (by omega)]

theorem Counted.missed (identity : BitVec 64) (h : slot.Counted) {slot' : CallFeedbackSlot}
    (hobservations : slot'.observations = saturatingIncrement uint64Limit slot.observations)
    (hmisses : slot'.misses = saturatingIncrement uint32Limit slot.misses)
    (htargets : slot'.targets = slot.targets ∨ slot'.targets = slot.targets ++ [⟨identity, 1⟩]) :
    slot'.Counted := by
  intro hfull
  have hobs := hfull.observations
  have hmiss := hfull.misses
  rw [hobservations] at hobs
  rw [hmisses] at hmiss
  have hobs' := saturatingIncrement_of_lt hobs
  have hmiss' := saturatingIncrement_of_lt hmiss
  have hold : slot.Unsaturated := by
    refine ⟨by omega, by omega, fun t ht => hfull.hits t ?_⟩
    rcases htargets with heq | heq <;> rw [heq]
    · exact ht
    · exact List.mem_append_left _ ht
  obtain ⟨hle, hsum⟩ := h hold
  rw [hobservations, hmisses, hobs', hmiss']
  rcases htargets with heq | heq <;> rw [heq]
  · omega
  · rw [List.length_append, List.map_append, List.sum_append]
    simp only [List.length_singleton, List.map_singleton, List.sum_singleton]
    omega

theorem stateFor_succ {targets : List CallFeedbackTarget} {t : CallFeedbackTarget}
    (h : targets.length < maxTargets) :
    (if targets = [] then CallFeedbackState.monomorphic else .polymorphic) =
      stateFor (targets ++ [t]).length := by
  cases targets with
  | nil => rfl
  | cons u targets =>
    simp only [List.length_cons, List.length_append, List.length_nil] at h ⊢
    rw [if_neg (List.cons_ne_nil _ _), stateFor, if_neg (by omega), if_neg (by omega),
      if_pos (by omega)]

theorem rank_stateFor_le {targets : List CallFeedbackTarget} (h : targets.length < maxTargets) :
    (stateFor targets.length).rank ≤
      (if targets = [] then CallFeedbackState.monomorphic else .polymorphic).rank := by
  cases targets with
  | nil => exact Nat.zero_le _
  | cons u targets =>
    rw [if_neg (List.cons_ne_nil _ _), stateFor, if_neg (by simp), if_pos h.le]
    split <;> decide

theorem Tracks.observe (h : Tracks ids slot) (identity : BitVec 64) :
    Tracks (ids ++ [identity]) (slot.observe identity) ∧
      slot.state.rank ≤ (slot.observe identity).state.rank ∧
      slot.generation ≤ (slot.observe identity).generation := by
  have hobserved := observe_observed slot identity
  generalize slot.observe identity = slot' at hobserved
  cases hobserved with
  | unknown hzero =>
    refine ⟨⟨h.distinct, h.nonzero, ?_, h.counted.missed identity rfl rfl (.inl rfl)⟩, le_rfl,
      le_rfl⟩
    rw [hzero, identitiesOf_append_zero]
    exact h.state
  | hit hid targets hhit =>
    obtain ⟨hids, hsum⟩ := hitTarget_some hhit
    have hlength : targets.length = slot.targets.length := by
      have := congrArg List.length hids
      rwa [List.length_map, List.length_map] at this
    have hrecorded : (recorded { slot with
        observations := saturatingIncrement uint64Limit slot.observations, targets }) =
        slot.recorded := hids
    have hknown : identity ∈ slot.recorded := by
      by_contra hnew
      rw [hitTarget_eq_none.mpr hnew] at hhit
      cases hhit
    have hmem : identity ∈ identitiesOf ids := by
      have hmem' := List.mem_toFinset.mpr hknown
      rcases h.state with ⟨heq, -⟩ | ⟨hsub, -⟩
      · rwa [heq] at hmem'
      · exact hsub hmem'
    refine ⟨⟨?_, ?_, ?_, ?_⟩, le_rfl, le_rfl⟩
    · rw [hrecorded]
      exact h.distinct
    · rw [hrecorded]
      exact h.nonzero
    · rw [hrecorded, identitiesOf_append hid, Finset.insert_eq_of_mem hmem, hlength]
      exact h.state
    · intro hfull
      have hobs := hfull.observations
      obtain ⟨hlimits, hhits⟩ := hsum hfull.hits
      have hobs' := saturatingIncrement_of_lt hobs
      have hmiss := hfull.misses
      simp only at hobs hmiss
      obtain ⟨hle, hcount⟩ := h.counted ⟨by omega, hmiss, hlimits⟩
      simp only [hlength, hhits, hobs']
      omega
  | beyond hid hnew hstate =>
    refine ⟨⟨h.distinct, h.nonzero, ?_, h.counted.missed identity rfl rfl (.inl rfl)⟩, le_rfl,
      le_rfl⟩
    rw [identitiesOf_append hid]
    rcases h.state with ⟨-, hle, hfor⟩ | ⟨hsub, hcard, hlength, hmega⟩
    · rw [hstate] at hfor
      unfold stateFor at hfor
      split_ifs at hfor
    · refine .inr ⟨hsub.trans (Finset.subset_insert _ _), ?_, hlength, hmega⟩
      exact hcard.trans_le (Finset.card_le_card (Finset.subset_insert _ _))
  | record hid hnew hstate hroom state generation hafter hgeneration =>
    rcases h.state with ⟨hids, hle, hfor⟩ | ⟨-, -, -, hmega⟩
    · have hrecorded : ∀ s : CallFeedbackSlot, s.targets = slot.targets ++ [⟨identity, 1⟩] →
          s.recorded = slot.recorded ++ [identity] := by
        intro s hs
        rw [recorded, hs, List.map_append]
        rfl
      refine ⟨⟨?_, ?_, ?_, h.counted.missed identity rfl rfl (.inr rfl)⟩, ?_, hgeneration⟩
      · rw [hrecorded _ rfl]
        exact h.distinct.append (List.nodup_singleton _) (List.disjoint_singleton.mpr hnew)
      · rw [hrecorded _ rfl, List.mem_append, List.mem_singleton]
        rintro (hmem | hzero)
        · exact h.nonzero hmem
        · exact hid hzero.symm
      · refine .inl ⟨?_, ?_, ?_⟩
        · rw [hrecorded _ rfl, identitiesOf_append hid, ← hids]
          ext a
          simp
        · simp only [List.length_append, List.length_singleton]
          omega
        · rw [hafter, stateFor_succ hroom]
      · rw [hafter, hfor]
        exact rank_stateFor_le hroom
    · exact absurd hmega hstate
  | overflow hid hnew hstate hfull generation hgeneration =>
    rcases h.state with ⟨hids, hle, hfor⟩ | ⟨-, -, -, hmega⟩
    · refine ⟨⟨h.distinct, h.nonzero, .inr ⟨?_, ?_, Nat.le_antisymm hle hfull, rfl⟩,
        h.counted.missed identity rfl rfl (.inl rfl)⟩, ?_, hgeneration⟩
      · rw [identitiesOf_append hid, ← hids]
        exact Finset.subset_insert _ _
      · have hnew' : identity ∉ identitiesOf ids := by
          rw [← hids, List.mem_toFinset]
          exact hnew
        rw [identitiesOf_append hid, Finset.card_insert_of_notMem hnew', ← hids,
          List.toFinset_card_of_nodup h.distinct, length_recorded]
        omega
      · cases slot.state <;> simp [CallFeedbackState.rank]
    · exact absurd hmega hstate

theorem build_append (ids more : List (BitVec 64)) :
    build (ids ++ more) = more.foldl CallFeedbackSlot.observe (build ids) := List.foldl_append

theorem tracks_build (ids : List (BitVec 64)) : Tracks ids (build ids) := by
  induction ids using List.reverseRecOn with
  | nil => exact tracks_init
  | append_singleton ids identity ih =>
    rw [build_append]
    exact (ih.observe identity).1

theorem Tracks.rises (h : Tracks ids slot) (more : List (BitVec 64)) :
    slot.state.rank ≤ (more.foldl CallFeedbackSlot.observe slot).state.rank ∧
      slot.generation ≤ (more.foldl CallFeedbackSlot.observe slot).generation := by
  induction more generalizing ids slot with
  | nil => exact ⟨le_rfl, le_rfl⟩
  | cons identity more ih =>
    obtain ⟨hnext, hrank, hgeneration⟩ := h.observe identity
    obtain ⟨hrank', hgeneration'⟩ := ih hnext
    exact ⟨hrank.trans hrank', hgeneration.trans hgeneration'⟩

theorem Tracks.only (h : Tracks ids slot) {minimumHits : Nat} {target : BitVec 64}
    (hreport : slot.monomorphicTarget minimumHits = some target) :
    identitiesOf ids = {target} := by
  unfold monomorphicTarget at hreport
  split at hreport
  · cases hreport
  rename_i hmono
  split at hreport
  · rename_i t htargets
    split at hreport
    · cases hreport
    cases hreport
    rcases h.state with ⟨hids, -⟩ | ⟨-, -, -, hmega⟩
    · rw [← hids, recorded, htargets]
      rfl
    · exact absurd (hmega ▸ hmono) (by decide)
  · cases hreport

theorem faithful_build (ids : List (BitVec 64)) : Faithful ids (build ids) := by
  have h := tracks_build ids
  exact ⟨h.distinct, h.nonzero, h.card, h.counted, h.rises, fun _ _ => h.only⟩

end

end CallFeedbackSlot

namespace FeedbackRuntime

/-- What happens to the feedback of a runtime: profiling is switched, or a call is about to be
made; `alloc` says whether there is memory for a new table. -/
inductive FeedbackEvent
  | profiling (on : Bool)
  | call (caller : Nat) (bytecodeOffset : BitVec 32) (target : Nat) (alloc : Bool)

def step (rt : FeedbackRuntime) : FeedbackEvent → FeedbackRuntime
  | .profiling on => { rt with profilingEnabled := on }
  | .call caller bytecodeOffset target alloc =>
    if rt.enabled caller then (rt.observe caller bytecodeOffset target alloc).2 else rt

/-- The identity that `caller` observes at an event, with the call site: none if the function has
no table for it. -/
def observation (rt : FeedbackRuntime) (caller : Nat) :
    FeedbackEvent → List (BitVec 32 × BitVec 64)
  | .profiling _ => []
  | .call c bytecodeOffset target alloc =>
    if c = caller ∧ rt.enabled c ∧ ((rt.functions c).callFeedback.isSome ∨ alloc) then
      [(bytecodeOffset, (rt.functionIdentity target).1)]
    else []

def run (rt : FeedbackRuntime) (events : List FeedbackEvent) : FeedbackRuntime :=
  events.foldl step rt

/-- All that `caller` observes in a run. -/
def observed (rt : FeedbackRuntime) (caller : Nat) :
    List FeedbackEvent → List (BitVec 32 × BitVec 64)
  | [] => []
  | e :: events => rt.observation caller e ++ (rt.step e).observed caller events

def sinceReset (bytecodeOffset : BitVec 32) (observations : List (BitVec 32 × BitVec 64)) :
    List (BitVec 64) :=
  observations.foldl (fun ids o =>
    if o.1 = bytecodeOffset then ids ++ [o.2]
    else if slotIndex o.1 = slotIndex bytecodeOffset then [] else ids) []

def start (profilingEnabled : Bool) (nextFunctionIdentity : BitVec 64)
    (jitIdentity : Nat → BitVec 64) : FeedbackRuntime where
  profilingEnabled
  nextFunctionIdentity
  functions b := { jitIdentity := jitIdentity b }

section

variable {rt : FeedbackRuntime} {slot : CallFeedbackSlot} {identity : BitVec 64}
  {caller target : Nat}

theorem ite_full_eq {α : Sort*} (f : Nat → α) (limit value : Nat) :
    (if value ≠ limit then f (value + 1) else f value) = f (saturatingIncrement limit value) := by
  unfold saturatingIncrement
  by_cases h : value = limit
  · rw [if_neg (not_not.mpr h), if_pos h]
  · rw [if_pos h, if_neg h]

theorem hitTarget_eq (identity : BitVec 64) (targets : List CallFeedbackTarget) :
    hitTarget identity targets = Runtime.hitTarget identity targets := by
  induction targets with
  | nil => rfl
  | cons t targets ih =>
    have hhit : (if t.hits ≠ uint32Limit then { t with hits := t.hits + 1 } else t) =
        { t with hits := saturatingIncrement uint32Limit t.hits } :=
      ite_full_eq (fun hits => { t with hits }) uint32Limit t.hits
    rw [hitTarget, Runtime.hitTarget, ih, hhit]

theorem observeSlot_eq (rt : FeedbackRuntime) (slot : CallFeedbackSlot) (h : identity ≠ 0) :
    (rt.observeSlot slot identity).1 = slot.observe identity := by
  have hobservations : (if slot.observations ≠ uint64Limit then
      { slot with observations := slot.observations + 1 } else slot) =
        { slot with observations := saturatingIncrement uint64Limit slot.observations } :=
    ite_full_eq (fun observations => { slot with observations }) uint64Limit slot.observations
  have hmisses : ∀ observations, (if slot.misses ≠ uint32Limit then
      { slot with observations, misses := slot.misses + 1 } else { slot with observations }) =
        { slot with observations, misses := saturatingIncrement uint32Limit slot.misses } :=
    fun observations =>
      ite_full_eq (fun misses => { slot with observations, misses }) uint32Limit slot.misses
  have hgeneration : ∀ targets observations misses state,
      (if slot.generation ≠ uint32Limit then
        (⟨targets, observations, misses, slot.generation + 1, state⟩ : CallFeedbackSlot)
      else ⟨targets, observations, misses, slot.generation, state⟩) =
        ⟨targets, observations, misses, saturatingIncrement uint32Limit slot.generation, state⟩ :=
    fun targets observations misses state => ite_full_eq
      (fun generation => (⟨targets, observations, misses, generation, state⟩ : CallFeedbackSlot))
      uint32Limit slot.generation
  unfold observeSlot CallFeedbackSlot.observe
  simp only [if_neg h, hobservations, hmisses, hitTarget_eq]
  cases Runtime.hitTarget identity slot.targets with
  | some targets => rfl
  | none =>
    simp only
    by_cases hmega : slot.state = .megamorphic
    · simp [hmega]
    · rw [if_pos hmega, if_neg hmega]
      by_cases hroom : slot.targets.length < maxTargets
      · simp only [if_pos hroom]
        generalize (if (slot.targets ++ [(⟨identity, 1⟩ : CallFeedbackTarget)]).length = 1 then
          CallFeedbackState.monomorphic else .polymorphic) = state
        by_cases hsame : slot.state = state
        · simp [hsame]
        · rw [if_pos hsame, if_pos (Ne.symm hsame)]
          exact hgeneration ..
      · simp only [if_neg hroom]
        rw [if_pos hmega, if_pos (Ne.symm hmega)]
        exact hgeneration ..

@[simp] theorem countState_functions (rt : FeedbackRuntime) (state : CallFeedbackState) :
    (rt.countState state).functions = rt.functions := by
  cases state <;> rfl

@[simp] theorem observeSlot_functions (rt : FeedbackRuntime) (slot : CallFeedbackSlot)
    (identity : BitVec 64) : (rt.observeSlot slot identity).2.functions = rt.functions := by
  unfold observeSlot
  simp only
  split
  · rfl
  · rw [apply_ite Prod.snd, apply_ite FeedbackRuntime.functions, countState_functions, ite_self]

@[simp] theorem setFunction_self (rt : FeedbackRuntime) (b : Nat) (f : FeedbackFunction) :
    (rt.setFunction b f).functions b = f := Function.update_self ..

theorem setFunction_of_ne (rt : FeedbackRuntime) {b c : Nat} (f : FeedbackFunction) (h : c ≠ b) :
    (rt.setFunction b f).functions c = rt.functions c := Function.update_of_ne h ..

theorem functionIdentity_ne_zero (rt : FeedbackRuntime) (b : Nat) :
    (rt.functionIdentity b).1 ≠ 0 := by
  unfold functionIdentity
  split
  · assumption
  · simp only
    split
    · rename_i hzero
      rw [hzero]
      decide
    · assumption

@[simp] theorem functionIdentity_callFeedback (rt : FeedbackRuntime) (b c : Nat) :
    ((rt.functionIdentity b).2.functions c).callFeedback = (rt.functions c).callFeedback := by
  unfold functionIdentity
  split
  · rfl
  · by_cases h : c = b
    · rw [h]
      simp
    · simp only
      rw [setFunction_of_ne _ _ h]

theorem functionIdentity_setFunction (rt : FeedbackRuntime) {b : Nat} {f : FeedbackFunction}
    (h : f.jitIdentity = (rt.functions b).jitIdentity) (c : Nat) :
    ((rt.setFunction b f).functionIdentity c).1 = (rt.functionIdentity c).1 := by
  have hidentity : ((rt.setFunction b f).functions c).jitIdentity =
      (rt.functions c).jitIdentity := by
    by_cases hc : c = b
    · rw [hc, setFunction_self, h]
    · rw [setFunction_of_ne _ _ hc]
  unfold functionIdentity
  rw [hidentity]
  split <;> rfl

def tableOf (rt : FeedbackRuntime) (caller : Nat) : Fin feedbackSize → CallFeedbackEntry :=
  ((rt.functions caller).callFeedback).getD fun _ => {}

def slotOf (rt : FeedbackRuntime) (caller : Nat) (bytecodeOffset : BitVec 32) :
    CallFeedbackSlot :=
  (rt.lookup caller bytecodeOffset).getD .init

theorem slotOf_eq (rt : FeedbackRuntime) (caller : Nat) (bytecodeOffset : BitVec 32) :
    rt.slotOf caller bytecodeOffset =
      if (rt.tableOf caller (slotIndex bytecodeOffset)).bytecodeOffset = bytecodeOffset then
        (rt.tableOf caller (slotIndex bytecodeOffset)).slot
      else .init := by
  unfold slotOf lookup tableOf
  cases (rt.functions caller).callFeedback with
  | none =>
    simp only [Option.bind_eq_bind, Option.bind_none, Option.getD_none]
    split <;> rfl
  | some table =>
    simp only [Option.bind_eq_bind, Option.bind_some, Option.getD_some]
    by_cases h : (table (slotIndex bytecodeOffset)).bytecodeOffset = bytecodeOffset
    · simp [h]
    · simp [h]

theorem callFeedbackSlot_spec (bytecodeOffset : BitVec 32) {alloc : Bool}
    (htable : (rt.functions caller).callFeedback.isSome ∨ alloc)
    (henabled : rt.enabled caller) :
    ∃ table remaining,
      rt.callFeedbackSlot caller bytecodeOffset alloc = some (table, rt.setFunction caller
        { rt.functions caller with callFeedback := some table, remaining }) ∧
      remaining ≠ 0 ∧
      table (slotIndex bytecodeOffset) =
        ⟨bytecodeOffset, rt.slotOf caller bytecodeOffset⟩ ∧
      ∀ h, h ≠ slotIndex bytecodeOffset → table h = rt.tableOf caller h := by
  obtain ⟨remaining, hstart, hpos⟩ : ∃ remaining,
      feedbackTable (rt.functions caller) alloc = some (rt.tableOf caller, remaining) ∧
        remaining ≠ 0 := by
    unfold enabled at henabled
    unfold tableOf feedbackTable
    cases htab : (rt.functions caller).callFeedback with
    | none =>
      rw [htab] at htable
      refine ⟨feedbackBudget, ?_, by decide⟩
      simp only [Option.isSome_none, Bool.false_eq_true, false_or] at htable
      simp [htable]
    | some table =>
      rw [htab] at henabled
      refine ⟨_, rfl, ?_⟩
      simp only [Option.isNone_some, Bool.false_or, Bool.and_eq_true, bne_iff_ne] at henabled
      exact henabled.2
  unfold callFeedbackSlot
  simp only [hstart, slotOf_eq, Option.bind_eq_bind, Option.bind_some, Option.pure_def]
  refine ⟨_, _, rfl, hpos, ?_, ?_⟩
  · by_cases hsame : (rt.tableOf caller (slotIndex bytecodeOffset)).bytecodeOffset =
        bytecodeOffset
    · rw [if_neg (not_not.mpr hsame), if_pos hsame]
      exact congrArg (CallFeedbackEntry.mk · _) hsame
    · rw [if_pos hsame, if_neg hsame, Function.update_self]
  · intro h hne
    split
    · exact Function.update_of_ne hne ..
    · rfl

theorem observe_table {bytecodeOffset : BitVec 32} {alloc : Bool}
    (htable : (rt.functions caller).callFeedback.isSome ∨ alloc) (henabled : rt.enabled caller) :
    ((rt.observe caller bytecodeOffset target alloc).2.tableOf caller) =
      Function.update (rt.tableOf caller) (slotIndex bytecodeOffset)
        ⟨bytecodeOffset, (rt.slotOf caller bytecodeOffset).observe
          (rt.functionIdentity target).1⟩ := by
  obtain ⟨table, remaining, hslot, hpos, hentry, hother⟩ :=
    callFeedbackSlot_spec bytecodeOffset htable henabled
  have hupdate : Function.update table (slotIndex bytecodeOffset)
      ⟨bytecodeOffset, (rt.slotOf caller bytecodeOffset).observe (rt.functionIdentity target).1⟩ =
      Function.update (rt.tableOf caller) (slotIndex bytecodeOffset) ⟨bytecodeOffset,
        (rt.slotOf caller bytecodeOffset).observe (rt.functionIdentity target).1⟩ := by
    funext h
    by_cases hh : h = slotIndex bytecodeOffset
    · rw [hh, Function.update_self, Function.update_self]
    · rw [Function.update_of_ne hh, Function.update_of_ne hh, hother h hh]
  have hidentity : ∀ n n', (((rt.setFunction caller
      ⟨(rt.functions caller).jitIdentity, some table, n⟩).setFunction caller
        ⟨(rt.functions caller).jitIdentity, some table, n'⟩).functionIdentity target).1 =
          (rt.functionIdentity target).1 := by
    intro n n'
    rw [functionIdentity_setFunction _ (by rw [setFunction_self])]
    exact functionIdentity_setFunction (f := ⟨_, some table, n⟩) rt rfl target
  unfold observe
  simp only [hslot, setFunction_self, if_neg hpos, hentry, tableOf, Option.getD_some]
  rw [observeSlot_eq _ _ (functionIdentity_ne_zero _ _), hidentity, hupdate]
  rfl

theorem observe_no_table {bytecodeOffset : BitVec 32} {alloc : Bool}
    (htable : ¬ ((rt.functions caller).callFeedback.isSome ∨ alloc)) :
    (rt.observe caller bytecodeOffset target alloc).2 = rt := by
  rw [not_or] at htable
  have hnone : (rt.functions caller).callFeedback = none := by
    simpa using htable.1
  have hslot : rt.callFeedbackSlot caller bytecodeOffset alloc = none := by
    simp [callFeedbackSlot, feedbackTable, hnone, htable.2]
  rw [observe, hslot]

theorem callFeedbackSlot_other {bytecodeOffset : BitVec 32} {alloc : Bool}
    {table : Fin feedbackSize → CallFeedbackEntry} {rt' : FeedbackRuntime}
    (h : rt.callFeedbackSlot caller bytecodeOffset alloc = some (table, rt')) :
    ∃ f, rt' = rt.setFunction caller f := by
  unfold callFeedbackSlot at h
  simp only [Option.bind_eq_bind, Option.bind_eq_some_iff, Option.pure_def, Option.some.injEq,
    Prod.mk.injEq] at h
  obtain ⟨-, -, -, rfl⟩ := h
  exact ⟨_, rfl⟩

theorem observe_other {bytecodeOffset : BitVec 32} {alloc : Bool} {c : Nat} (h : c ≠ caller) :
    (rt.observe caller bytecodeOffset target alloc).2.tableOf c = rt.tableOf c := by
  unfold observe
  cases hslot : rt.callFeedbackSlot caller bytecodeOffset alloc with
  | none => rfl
  | some r =>
    obtain ⟨table, rt'⟩ := r
    obtain ⟨f, rfl⟩ := callFeedbackSlot_other hslot
    simp only
    split
    · rw [tableOf, tableOf, setFunction_of_ne _ _ h]
    · rw [tableOf, tableOf, setFunction_of_ne _ _ h, observeSlot_functions,
        functionIdentity_callFeedback, setFunction_of_ne _ _ h, setFunction_of_ne _ _ h]

structure Agrees (rt : FeedbackRuntime) (caller : Nat)
    (observations : List (BitVec 32 × BitVec 64)) : Prop where
  slots : ∀ bytecodeOffset, rt.slotOf caller bytecodeOffset =
    CallFeedbackSlot.build (sinceReset bytecodeOffset observations)
  nonzero : ∀ o ∈ observations, o.2 ≠ 0

theorem sinceReset_append (bytecodeOffset : BitVec 32)
    (observations : List (BitVec 32 × BitVec 64)) (o : BitVec 32 × BitVec 64) :
    sinceReset bytecodeOffset (observations ++ [o]) =
      if o.1 = bytecodeOffset then sinceReset bytecodeOffset observations ++ [o.2]
      else if slotIndex o.1 = slotIndex bytecodeOffset then []
      else sinceReset bytecodeOffset observations := by
  rw [sinceReset, List.foldl_append]
  rfl

theorem mem_sinceReset {bytecodeOffset : BitVec 32}
    {observations : List (BitVec 32 × BitVec 64)} (h : identity ∈ sinceReset bytecodeOffset
      observations) : ∃ o ∈ observations, o.2 = identity := by
  induction observations using List.reverseRecOn with
  | nil => cases h
  | append_singleton observations o ih =>
    rw [sinceReset_append] at h
    split at h
    · rcases List.mem_append.mp h with h | h
      · obtain ⟨o', ho', heq⟩ := ih h
        exact ⟨o', List.mem_append_left _ ho', heq⟩
      · exact ⟨o, by simp, (List.mem_singleton.mp h).symm⟩
    · split at h
      · cases h
      · obtain ⟨o', ho', heq⟩ := ih h
        exact ⟨o', List.mem_append_left _ ho', heq⟩

theorem Agrees.step {observations : List (BitVec 32 × BitVec 64)}
    (h : rt.Agrees caller observations) (e : FeedbackEvent) :
    (rt.step e).Agrees caller (observations ++ rt.observation caller e) := by
  cases e with
  | profiling on =>
    rw [observation, List.append_nil]
    exact ⟨h.slots, h.nonzero⟩
  | call c bytecodeOffset target alloc =>
    by_cases henabled : rt.enabled c
    · rw [FeedbackRuntime.step, if_pos henabled, observation]
      by_cases hc : c = caller
      · subst hc
        by_cases htable : (rt.functions c).callFeedback.isSome ∨ alloc
        · rw [if_pos ⟨rfl, henabled, htable⟩]
          refine ⟨fun offset => ?_, ?_⟩
          · rw [slotOf_eq, observe_table htable henabled, sinceReset_append]
            by_cases hsame : bytecodeOffset = offset
            · subst hsame
              rw [Function.update_self, if_pos rfl, if_pos rfl, h.slots,
                CallFeedbackSlot.build_append]
              rfl
            · rw [if_neg hsame]
              by_cases hplace : slotIndex bytecodeOffset = slotIndex offset
              · rw [if_pos hplace, hplace, Function.update_self, if_neg hsame]
                rfl
              · rw [if_neg hplace, Function.update_of_ne (Ne.symm hplace), ← h.slots, slotOf_eq]
          · intro o ho
            rcases List.mem_append.mp ho with ho | ho
            · exact h.nonzero o ho
            · rw [List.mem_singleton.mp ho]
              exact functionIdentity_ne_zero rt target
        · rw [observe_no_table htable, if_neg fun hall => htable hall.2.2, List.append_nil]
          exact h
      · rw [if_neg fun hall => hc hall.1, List.append_nil]
        refine ⟨fun offset => ?_, h.nonzero⟩
        rw [slotOf_eq, observe_other (Ne.symm hc), ← slotOf_eq]
        exact h.slots offset
    · rw [FeedbackRuntime.step, if_neg henabled, observation, if_neg fun hall => henabled hall.2.1,
        List.append_nil]
      exact h

theorem Agrees.run {observations : List (BitVec 32 × BitVec 64)}
    (h : rt.Agrees caller observations) (events : List FeedbackEvent) :
    (rt.run events).Agrees caller (observations ++ rt.observed caller events) := by
  induction events generalizing rt observations with
  | nil =>
    rw [observed, List.append_nil]
    exact h
  | cons e events ih =>
    rw [observed, ← List.append_assoc]
    exact ih (h.step e)

theorem agrees_start (profilingEnabled : Bool) (nextFunctionIdentity : BitVec 64)
    (jitIdentity : Nat → BitVec 64) (caller : Nat) :
    (start profilingEnabled nextFunctionIdentity jitIdentity).Agrees caller [] :=
  ⟨fun _ => rfl, nofun⟩

end

end FeedbackRuntime

/-- In every run of the interpreter the slot of a call site is the one that the observations since
its last reset build, and what a slot says of its observations is true. -/
theorem call_feedback_faithful (profilingEnabled : Bool) (nextFunctionIdentity : BitVec 64)
    (jitIdentity : Nat → BitVec 64) (events : List FeedbackRuntime.FeedbackEvent) :
    (∀ caller bytecodeOffset,
      let rt := FeedbackRuntime.start profilingEnabled nextFunctionIdentity jitIdentity
      let ids := FeedbackRuntime.sinceReset bytecodeOffset (rt.observed caller events)
      ((rt.run events).lookup caller bytecodeOffset).getD .init = CallFeedbackSlot.build ids ∧
        0 ∉ ids) ∧
    ∀ ids, (CallFeedbackSlot.build ids).Faithful ids := by
  refine ⟨fun caller bytecodeOffset => ?_, CallFeedbackSlot.faithful_build⟩
  have h := (FeedbackRuntime.agrees_start profilingEnabled nextFunctionIdentity jitIdentity
    caller).run events
  rw [List.nil_append] at h
  refine ⟨h.slots bytecodeOffset, fun hzero => ?_⟩
  obtain ⟨o, ho, heq⟩ := FeedbackRuntime.mem_sinceReset hzero
  exact h.nonzero o ho heq

end TurboJS.Runtime
