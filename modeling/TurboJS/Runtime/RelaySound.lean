import TurboJS.Runtime.Relay

namespace TurboJS.Runtime
open IR

/-! The inline cache of calls runs only what was installed. -/

namespace RelayRuntime

inductive EntryMove (caller index : Nat) (e : RelayEntry) : RelayEntry → List RelayEvent → Prop where
  | reset {offset : BitVec 32} (hindex : relayCallHash offset = index)
      (hne : e.bytecodeOffset ≠ offset) :
      EntryMove caller index e { bytecodeOffset := offset } [.reset caller index]
  | invalidated (hlive : e.kind ≠ .disabled) :
      EntryMove caller index e { bytecodeOffset := e.bytecodeOffset } [.invalidated caller index]
  | first {identity generation : Nat} {kind : RelayKind}
      (hindex : relayCallHash e.bytecodeOffset = index) (hempty : e.kind = .empty) :
      EntryMove caller index e
        { e with targetIdentity := identity, nativeGeneration := generation, kind := kind }
        [.installed caller e.bytecodeOffset identity kind generation]
  | second {identity generation : Nat} {kind : RelayKind}
      (hindex : relayCallHash e.bytecodeOffset = index) (hlive : e.kind ≠ .disabled) :
      EntryMove caller index e
        { e with
          secondaryTargetIdentity := identity
          secondaryNativeGeneration := generation
          secondaryKind := kind }
        [.installed caller e.bytecodeOffset identity kind generation]
  | disabled :
      EntryMove caller index e
        { e with
          kind := .disabled
          secondaryKind := .empty
          nativeGeneration := 0
          secondaryNativeGeneration := 0 } []

inductive Move : RelayRuntime × List RelayEvent → RelayRuntime × List RelayEvent → Prop where
  | identify {rt : RelayRuntime} {log : List RelayEvent} (f : Nat)
      (hnew : (rt.functions f).identity = 0) :
      Move (rt, log) ((rt.functionIdentity f).1, log ++ ([.identified f] : List RelayEvent))
  | change {rt : RelayRuntime} {log : List RelayEvent} (f : Nat) (code : RelayCode) :
      Move (rt, log) (rt.setFunction f { rt.functions f with code := code }, log)
  | jit {rt : RelayRuntime} {log : List RelayEvent} (enabled : Bool) :
      Move (rt, log) ({ rt with jitEnabled := enabled }, log)
  | table {rt : RelayRuntime} {log : List RelayEvent} (caller : Nat)
      (hnone : (rt.functions caller).relayCallIc = none) :
      Move (rt, log)
        (rt.setFunction caller { rt.functions caller with relayCallIc := some fun _ => {} }, log)
  | entry {rt : RelayRuntime} {log events : List RelayEvent} (caller index : Nat)
      {table : Nat → RelayEntry} {e : RelayEntry}
      (htable : (rt.functions caller).relayCallIc = some table)
      (hmove : EntryMove caller index (table index) e events) :
      Move (rt, log) (rt.setEntry caller index e, log ++ events)
  | free {rt : RelayRuntime} {log : List RelayEvent} (f : Nat) :
      Move (rt, log) ((rt.freeFunction f).1, log ++ ([.freed f] : List RelayEvent))

abbrev Moves := Relation.ReflTransGen Move

section

variable {rt : RelayRuntime} {log : List RelayEvent}

theorem functionIdentity_moves (rt : RelayRuntime) (log : List RelayEvent) (f : Nat) :
    Moves (rt, log) ((rt.functionIdentity f).1, log ++ (rt.functionIdentity f).2.2) := by
  by_cases h : (rt.functions f).identity = 0
  · have hevents : (rt.functionIdentity f).2.2 = [.identified f] := by
      simp [functionIdentity, h]
    rw [hevents]
    exact .single (.identify f h)
  · have hsame : rt.functionIdentity f = (rt, (rt.functions f).identity, []) := by
      simp [functionIdentity, h]
    rw [hsame, List.append_nil]

@[simp] theorem functionIdentity_ic (rt : RelayRuntime) (f caller : Nat) :
    ((rt.functionIdentity f).1.functions caller).relayCallIc =
      (rt.functions caller).relayCallIc := by
  unfold functionIdentity
  simp only
  split
  · rfl
  · simp only [setFunction]
    by_cases he : caller = f
    · subst he
      rw [Function.update_self]
    · rw [Function.update_of_ne he]

theorem relayCallEntry_eq {caller : Nat} {offset : BitVec 32} {e : RelayEntry} :
    rt.relayCallEntry caller offset = some e ↔
      ∃ table, (rt.functions caller).relayCallIc = some table ∧
        table (relayCallHash offset) = e ∧ e.bytecodeOffset = offset := by
  unfold relayCallEntry
  cases (rt.functions caller).relayCallIc with
  | none => simp
  | some table =>
    simp only [Option.some.injEq, exists_eq_left']
    constructor
    · intro h
      split at h
      · cases h
      · rename_i hsame
        cases h
        exact ⟨rfl, not_not.mp hsame⟩
    · rintro ⟨rfl, hsame⟩
      rw [if_neg (not_not.mpr hsame)]

theorem setEntry_ic {caller : Nat} {table : Nat → RelayEntry}
    (h : (rt.functions caller).relayCallIc = some table) (index : Nat) (e : RelayEntry) :
    ((rt.setEntry caller index e).functions caller).relayCallIc =
      some (Function.update table index e) := by
  simp [setEntry, setFunction, h]

theorem relayCallSlot_moves (rt : RelayRuntime) (log : List RelayEvent) (caller : Nat)
    (offset : BitVec 32) (memory : Bool) :
    let r := rt.relayCallSlot caller offset memory
    Moves (rt, log) (r.1, log ++ r.2.2) ∧
      ∀ e, r.2.1 = some e → r.1.relayCallEntry caller offset = some e := by
  unfold relayCallSlot
  simp only
  generalize hrt' : (if (rt.functions caller).relayCallIc.isNone ∧ memory then
    rt.setFunction caller { rt.functions caller with relayCallIc := some fun _ => {} }
    else rt) = rt'
  have hmoves : Moves (rt, log) (rt', log) := by
    rw [← hrt']
    split
    · rename_i hnone
      exact .single (.table caller (Option.isNone_iff_eq_none.mp hnone.1))
    · exact .refl
  cases htable : (rt'.functions caller).relayCallIc with
  | none =>
    refine ⟨by simpa using hmoves, ?_⟩
    intro e he
    cases he
  | some table =>
    simp only
    by_cases hsame : (table (relayCallHash offset)).bytecodeOffset = offset
    · simp only [ne_eq, hsame, not_true_eq_false, if_false, List.append_nil]
      refine ⟨hmoves, ?_⟩
      intro e he
      cases he
      exact relayCallEntry_eq.mpr ⟨table, htable, rfl, hsame⟩
    · simp only [ne_eq, hsame, not_false_eq_true, if_true]
      refine ⟨.tail hmoves (.entry caller _ htable (.reset rfl hsame)), ?_⟩
      intro e he
      cases he
      refine relayCallEntry_eq.mpr ⟨_, setEntry_ic htable _ _, ?_, rfl⟩
      exact Function.update_self ..

theorem relayInvalidate_moves (log : List RelayEvent) {caller : Nat} {offset : BitVec 32}
    {e : RelayEntry} (he : rt.relayCallEntry caller offset = some e) (hkind : e.kind ≠ .disabled) :
    Moves (rt, log)
      ((rt.relayInvalidate caller e).1, log ++ (rt.relayInvalidate caller e).2) := by
  obtain ⟨table, htable, rfl, hoffset⟩ := relayCallEntry_eq.mp he
  rw [relayInvalidate, hoffset]
  have hmove := @EntryMove.invalidated caller (relayCallHash offset) _ hkind
  rw [hoffset] at hmove
  exact .single (.entry caller _ htable hmove)

theorem relayRecord_moves (log : List RelayEvent) {caller : Nat} {offset : BitVec 32}
    {e : RelayEntry} (he : rt.relayCallEntry caller offset = some e) (identity : Nat)
    (kind : RelayKind) (generation : Nat) :
    let r := rt.relayRecord caller e identity kind generation
    Moves (rt, log) (r.1, log ++ r.2) := by
  obtain ⟨table, htable, rfl, hoffset⟩ := relayCallEntry_eq.mp he
  have hindex : relayCallHash (table (relayCallHash offset)).bytecodeOffset =
      relayCallHash offset := by
    rw [hoffset]
  have hrefl : Moves (rt, log) (rt, log ++ []) := by
    rw [List.append_nil]
  unfold relayRecord
  simp only [hindex]
  split
  · exact hrefl
  rename_i hlive
  split
  · rename_i hempty
    exact .single (.entry caller _ htable (.first hindex hempty))
  split
  · exact hrefl
  split
  · exact .single (.entry caller _ htable (.second hindex hlive))
  · exact .single (.entry caller _ htable .disabled)

theorem relayInstall_moves (log : List RelayEvent) (caller : Nat) (offset : BitVec 32)
    (target : Nat) (memory : Bool) (kind : RelayKind) (generation : Nat) (allowed : Bool) :
    let r := rt.relayInstall caller offset target memory kind generation allowed
    Moves (rt, log) (r.1, log ++ r.2) := by
  have hidentify := functionIdentity_moves rt log target
  unfold relayInstall
  generalize rt.functionIdentity target = id at *
  obtain ⟨rt', identity, identified⟩ := id
  simp only at hidentify ⊢
  split
  · exact hidentify
  · have hslot := relayCallSlot_moves rt' (log ++ identified) caller offset memory
    generalize rt'.relayCallSlot caller offset memory = slot at *
    obtain ⟨rt'', entry, reset⟩ := slot
    simp only at hslot ⊢
    obtain ⟨hmoves, hentry⟩ := hslot
    cases entry with
    | none =>
      simp only
      rw [← List.append_assoc]
      exact hidentify.trans hmoves
    | some e =>
      have hrecord := relayRecord_moves (log ++ identified ++ reset) (hentry e rfl) identity kind
        generation
      simp only [← List.append_assoc] at hrecord ⊢
      exact (hidentify.trans hmoves).trans hrecord

theorem relayCallEntry_functionIdentity (caller : Nat) (offset : BitVec 32) (f : Nat) :
    (rt.functionIdentity f).1.relayCallEntry caller offset = rt.relayCallEntry caller offset := by
  simp only [relayCallEntry, functionIdentity_ic]

theorem functionIdentity_code (rt : RelayRuntime) (f g : Nat) :
    ((rt.functionIdentity f).1.functions g).code = (rt.functions g).code := by
  unfold functionIdentity
  simp only
  split
  · rfl
  · simp only [setFunction]
    by_cases he : g = f
    · subst he
      rw [Function.update_self]
    · rw [Function.update_of_ne he]

def Lists (e : RelayEntry) (identity : Nat) (kind : RelayKind) (generation : Nat) : Prop :=
  (identity = e.targetIdentity ∧ kind = e.kind ∧ generation = e.nativeGeneration) ∨
    (identity = e.secondaryTargetIdentity ∧ kind = e.secondaryKind ∧
      generation = e.secondaryNativeGeneration ∧ e.secondaryKind ≠ .empty)

/-- A fast path is ready to run: a native one while the entry of the target has the generation
that was recorded. -/
def Ready (code : RelayCode) (generation : Nat) : RelayKind → Prop
  | .spoolInt32 =>
    code.spoolInt32Entry.function.isSome ∧ code.spoolInt32Entry.generation = generation
  | .spoolFloat64 =>
    code.spoolFloat64Entry.function.isSome ∧ code.spoolFloat64Entry.generation = generation
  | .affineLeaf | .genericLeaf => code.leafPlan.isSome ∧ code.leafState = 1
  | .empty | .disabled => False

theorem spoolEntryInvoke_int32 {code : RelayCode} {generation : Nat} {argv : List ArgumentTag}
    (h : spoolEntryInvoke code .int32 generation argv = .invoked) :
    Ready code generation .spoolInt32 := by
  unfold spoolEntryInvoke at h
  split at h
  · cases h
  · simp only at h
    split at h
    · cases h
    · rename_i hlive
      simp only [not_or, not_not] at hlive
      exact ⟨Option.isSome_iff_ne_none.mpr hlive.1, hlive.2.2.1⟩

theorem spoolEntryInvoke_float64 {code : RelayCode} {generation : Nat} {argv : List ArgumentTag}
    (h : spoolEntryInvoke code .float64 generation argv = .invoked) :
    Ready code generation .spoolFloat64 := by
  unfold spoolEntryInvoke at h
  split at h
  · cases h
  · simp only at h
    split at h
    · cases h
    · rename_i hlive
      simp only [not_or, not_not] at hlive
      exact ⟨Option.isSome_iff_ne_none.mpr hlive.1, hlive.2.2.1⟩

/-- What a call at a site does, and when it enters a fast path. -/
theorem relayTryCall_spec (rt : RelayRuntime) (log : List RelayEvent) (caller : Nat)
    (offset : BitVec 32) (target : Nat) (argv : List ArgumentTag) :
    let r := rt.relayTryCall caller offset target argv
    Moves (rt, log) (r.1, log ++ r.2.2) ∧
      ∀ kind, r.2.1 = some kind → ∃ e generation, rt.relayCallEntry caller offset = some e ∧
        e.kind ≠ .empty ∧ e.kind ≠ .disabled ∧
        Lists e (rt.functionIdentity target).2.1 kind generation ∧
        Ready (rt.functions target).code generation kind := by
  have hrefl : ∀ rt : RelayRuntime, Moves (rt, log) (rt, log ++ []) := by
    intro rt
    rw [List.append_nil]
  unfold relayTryCall
  split
  · refine ⟨hrefl rt, ?_⟩
    intro kind hkind
    cases hkind
  cases hentry : rt.relayCallEntry caller offset with
  | none =>
    refine ⟨hrefl rt, ?_⟩
    intro kind hkind
    cases hkind
  | some e =>
    simp only
    split
    · refine ⟨hrefl rt, ?_⟩
      intro kind hkind
      cases hkind
    rename_i hlive
    obtain ⟨hempty, hdisabled⟩ := not_or.mp hlive
    have hidentify := functionIdentity_moves rt log target
    have hentry' : (rt.functionIdentity target).1.relayCallEntry caller offset = _ :=
      relayCallEntry_functionIdentity caller offset target
    have hcode := functionIdentity_code rt target target
    rw [hentry] at hentry'
    generalize rt.functionIdentity target = id at *
    obtain ⟨rt', identity, events⟩ := id
    simp only at hidentify hentry' hcode ⊢
    rw [hcode]
    -- The two ways to leave without entering a path.
    have hmiss : ∀ P : RelayKind → Prop, Moves (rt, log) (rt', log ++ events) ∧
        ∀ kind, (none : Option RelayKind) = some kind → P kind :=
      fun P => ⟨hidentify, by simp⟩
    have hstale : ∀ P : RelayKind → Prop,
        Moves (rt, log) ((rt'.relayInvalidate caller e).1,
          log ++ (events ++ (rt'.relayInvalidate caller e).2)) ∧
        ∀ kind, (none : Option RelayKind) = some kind → P kind := by
      intro P
      refine ⟨?_, by simp⟩
      rw [← List.append_assoc]
      exact hidentify.trans (relayInvalidate_moves _ hentry' hdisabled)
    generalize hfound : (if identity = e.targetIdentity then some (e.kind, e.nativeGeneration)
      else if e.secondaryKind ≠ .empty ∧ identity = e.secondaryTargetIdentity then
        some (e.secondaryKind, e.secondaryNativeGeneration)
      else none) = found
    have hlists : ∀ kind generation, found = some (kind, generation) →
        Lists e identity kind generation := by
      intro kind generation h
      rw [← hfound] at h
      split at h
      · rename_i hid
        cases h
        exact .inl ⟨hid, rfl, rfl⟩
      · split at h
        · rename_i hid
          cases h
          exact .inr ⟨hid.2, rfl, rfl, hid.1⟩
        · cases h
    have henter : ∀ kind generation, found = some (kind, generation) →
        Ready (rt.functions target).code generation kind →
        Moves (rt, log) (rt', log ++ events) ∧
        ∀ kind', some kind = some kind' → ∃ e' generation, some e = some e' ∧
          e'.kind ≠ .empty ∧ e'.kind ≠ .disabled ∧ Lists e' identity kind' generation ∧
          Ready (rt.functions target).code generation kind' := by
      intro kind generation h hready
      refine ⟨hidentify, ?_⟩
      intro kind' hkind'
      cases hkind'
      exact ⟨e, generation, rfl, hempty, hdisabled, hlists kind generation h, hready⟩
    cases hf : found with
    | none => exact hmiss _
    | some pair =>
      obtain ⟨kind, generation⟩ := pair
      cases kind with
      | empty => exact hmiss _
      | disabled => exact hmiss _
      | affineLeaf =>
        simp only
        split
        · exact hstale _
        · rename_i hplan
          simp only [not_or, not_not] at hplan
          exact henter .affineLeaf generation hf
            ⟨Option.isSome_iff_ne_none.mpr hplan.1, hplan.2⟩
      | genericLeaf =>
        simp only
        split
        · exact hstale _
        · rename_i hplan
          simp only [not_or, not_not] at hplan
          exact henter .genericLeaf generation hf
            ⟨Option.isSome_iff_ne_none.mpr hplan.1, hplan.2⟩
      | spoolInt32 =>
        simp only
        cases hspool : spoolEntryInvoke (rt.functions target).code .int32 generation argv with
        | miss => exact hmiss _
        | stale => exact hstale _
        | invoked => exact henter .spoolInt32 generation hf (spoolEntryInvoke_int32 hspool)
      | spoolFloat64 =>
        simp only
        cases hspool : spoolEntryInvoke (rt.functions target).code .float64 generation argv with
        | miss => exact hmiss _
        | stale => exact hstale _
        | invoked => exact henter .spoolFloat64 generation hf (spoolEntryInvoke_float64 hspool)

theorem perform_moves (rt : RelayRuntime) (log : List RelayEvent) (op : Op) :
    Moves (rt, log) ((rt.perform op).1, log ++ (rt.perform op).2) := by
  have hrefl : ∀ rt : RelayRuntime, Moves (rt, log) (rt, log ++ []) := by
    intro rt
    rw [List.append_nil]
  cases op with
  | tryCall caller offset target argv =>
    exact (relayTryCall_spec rt log caller offset target argv).1
  | installLeaf caller offset target memory =>
    simp only [perform, relayInstallLeaf]
    split
    · exact hrefl rt
    · cases (rt.functions target).code.leafPlan with
      | none => exact hrefl rt
      | some plan => exact relayInstall_moves log caller offset target memory _ 0 true
  | installSpool caller offset target memory observed =>
    simp only [perform, relayInstallSpool]
    split
    · exact hrefl rt
    split
    · exact relayInstall_moves log caller offset target memory _ _ observed
    split
    · exact relayInstall_moves log caller offset target memory _ _ observed
    · exact hrefl rt
  | identify f => exact functionIdentity_moves rt log f
  | change f code =>
    simp only [perform, List.append_nil]
    exact .single (.change f code)
  | setJit enabled =>
    simp only [perform, List.append_nil]
    exact .single (.jit enabled)
  | free f => exact .single (.free f)

theorem run_moves (s : RelayRuntime × List RelayEvent) (ops : List Op) :
    Moves s (run s ops) := by
  induction ops generalizing s with
  | nil => exact .refl
  | cons op ops ih => exact (perform_moves s.1 s.2 op).trans (ih _)

def Clears (caller index : Nat) : RelayEvent → Prop
  | .reset c i | .invalidated c i => c = caller ∧ i = index
  | .freed c => c = caller
  | .identified _ | .installed .. => False

def entryAt (rt : RelayRuntime) (caller index : Nat) : Option RelayEntry :=
  (rt.functions caller).relayCallIc.map (· index)

inductive EntryChange (caller index : Nat) :
    Option RelayEntry → Option RelayEntry → List RelayEvent → Prop where
  | kept (e : Option RelayEntry) {events : List RelayEvent}
      (hquiet : ∀ event ∈ events, ¬ Clears caller index event) : EntryChange caller index e e events
  | created : EntryChange caller index none (some {}) []
  | moved {e e' : RelayEntry} {events : List RelayEvent}
      (hmove : EntryMove caller index e e' events) :
      EntryChange caller index (some e) (some e') events
  | freed (e : Option RelayEntry) : EntryChange caller index e none [.freed caller]

theorem entryAt_setFunction {f : Nat} {fn : RelayFunction} (caller index : Nat) :
    (rt.setFunction f fn).entryAt caller index =
      if caller = f then fn.relayCallIc.map (· index) else rt.entryAt caller index := by
  simp only [entryAt, setFunction]
  by_cases he : caller = f
  · subst he
    rw [if_pos rfl, Function.update_self]
  · rw [if_neg he, Function.update_of_ne he]

theorem EntryMove.quiet {caller index c i : Nat} {e e' : RelayEntry} {events : List RelayEvent}
    (h : EntryMove caller index e e' events) (hother : ¬ (c = caller ∧ i = index)) :
    ∀ event ∈ events, ¬ Clears c i event := by
  have hcaller : ¬ (caller = c ∧ index = i) := fun h => hother ⟨h.1.symm, h.2.symm⟩
  cases h with
  | reset | invalidated =>
    intro event hevent
    rw [List.mem_singleton.mp hevent]
    exact hcaller
  | first | second =>
    intro event hevent
    rw [List.mem_singleton.mp hevent]
    exact id
  | disabled =>
    intro event hevent
    cases hevent

theorem Move.entry_change {s s' : RelayRuntime × List RelayEvent} (h : Move s s')
    (caller index : Nat) :
    ∃ events, s'.2 = s.2 ++ events ∧
      EntryChange caller index (s.1.entryAt caller index) (s'.1.entryAt caller index) events := by
  cases h with
  | @identify rt log f hnew =>
    refine ⟨_, rfl, ?_⟩
    have hsame : (rt.functionIdentity f).1.entryAt caller index = rt.entryAt caller index := by
      simp only [entryAt, functionIdentity_ic]
    simp only [hsame]
    refine .kept _ ?_
    intro event hevent
    rw [List.mem_singleton.mp hevent]
    exact id
  | @change rt log f code =>
    refine ⟨[], (List.append_nil _).symm, ?_⟩
    have hsame : (rt.setFunction f { rt.functions f with code := code }).entryAt caller index =
        rt.entryAt caller index := by
      rw [entryAt_setFunction]
      split
      · rename_i he
        subst he
        rfl
      · rfl
    rw [hsame]
    exact .kept _ (by simp)
  | jit enabled => exact ⟨[], (List.append_nil _).symm, .kept _ (by simp)⟩
  | @table rt log f hnone =>
    refine ⟨[], (List.append_nil _).symm, ?_⟩
    rw [entryAt_setFunction]
    split
    · rename_i he
      subst he
      have hold : rt.entryAt caller index = none := by
        rw [entryAt, hnone]
        rfl
      rw [hold]
      exact .created
    · exact .kept _ (by simp)
  | @entry rt log events f i table e htable hmove =>
    refine ⟨events, rfl, ?_⟩
    simp only [setEntry, entryAt_setFunction]
    by_cases hsame : caller = f ∧ index = i
    · obtain ⟨rfl, rfl⟩ := hsame
      simp only [if_true, htable, Option.map_some, Function.update_self, entryAt]
      exact .moved hmove
    · have hkept : (if caller = f then ((rt.functions f).relayCallIc.map fun table =>
          Function.update table i e).map (· index) else rt.entryAt caller index) =
          rt.entryAt caller index := by
        split
        · rename_i he
          subst he
          have hne : index ≠ i := fun h => hsame ⟨rfl, h⟩
          simp only [htable, Option.map_some, Function.update_of_ne hne, entryAt]
        · rfl
      rw [hkept]
      exact .kept _ (hmove.quiet hsame)
  | @free rt log f =>
    refine ⟨_, rfl, ?_⟩
    simp only [freeFunction, entryAt_setFunction]
    split
    · rename_i he
      subst he
      exact .freed _
    · rename_i he
      refine .kept _ ?_
      intro event hevent
      rw [List.mem_singleton.mp hevent]
      exact Ne.symm he

def Since (log : List RelayEvent) (caller index : Nat) (event : RelayEvent) : Prop :=
  ∃ before after, log = before ++ event :: after ∧ ∀ e ∈ after, ¬ Clears caller index e

theorem Since.append {caller index : Nat} {event : RelayEvent} (h : Since log caller index event)
    {events : List RelayEvent} (hquiet : ∀ e ∈ events, ¬ Clears caller index e) :
    Since (log ++ events) caller index event := by
  obtain ⟨before, after, rfl, hafter⟩ := h
  refine ⟨before, after ++ events, by simp, ?_⟩
  intro e he
  rcases List.mem_append.mp he with he | he
  · exact hafter e he
  · exact hquiet e he

theorem since_last (log : List RelayEvent) (caller index : Nat) (event : RelayEvent) :
    Since (log ++ [event]) caller index event :=
  ⟨log, [], rfl, by simp⟩

structure EntryTraced (log : List RelayEvent) (caller index : Nat) (e : RelayEntry) : Prop where
  first : e.kind ≠ .empty → e.kind ≠ .disabled →
    Since log caller index
      (.installed caller e.bytecodeOffset e.targetIdentity e.kind e.nativeGeneration)
  second : e.secondaryKind ≠ .empty →
    Since log caller index
      (.installed caller e.bytecodeOffset e.secondaryTargetIdentity e.secondaryKind
        e.secondaryNativeGeneration)

theorem EntryTraced.append {caller index : Nat} {e : RelayEntry}
    (h : EntryTraced log caller index e) {events : List RelayEvent}
    (hquiet : ∀ e ∈ events, ¬ Clears caller index e) :
    EntryTraced (log ++ events) caller index e :=
  ⟨fun h₁ h₂ => (h.first h₁ h₂).append hquiet, fun h₁ => (h.second h₁).append hquiet⟩

theorem entryTraced_fresh (log : List RelayEvent) (caller index : Nat) (offset : BitVec 32) :
    EntryTraced log caller index { bytecodeOffset := offset } :=
  ⟨fun h => absurd rfl h, fun h => absurd rfl h⟩

theorem EntryMove.traced {caller index : Nat} {e e' : RelayEntry} {events : List RelayEvent}
    (hmove : EntryMove caller index e e' events) (h : EntryTraced log caller index e) :
    EntryTraced (log ++ events) caller index e' := by
  have hquiet : ∀ offset identity kind generation,
      ∀ event ∈ [RelayEvent.installed caller offset identity kind generation],
        ¬ Clears caller index event := by
    intro offset identity kind generation event hevent
    rw [List.mem_singleton.mp hevent]
    exact id
  cases hmove with
  | reset => exact entryTraced_fresh ..
  | invalidated => exact entryTraced_fresh ..
  | first hindex hempty =>
    exact ⟨fun _ _ => since_last .., fun h₁ => (h.second h₁).append (hquiet _ _ _ _)⟩
  | second hindex hlive =>
    exact ⟨fun h₁ h₂ => (h.first h₁ h₂).append (hquiet _ _ _ _), fun _ => since_last ..⟩
  | disabled => exact ⟨fun _ h => absurd rfl h, fun h => absurd rfl h⟩

def Traced (s : RelayRuntime × List RelayEvent) : Prop :=
  ∀ caller index e, s.1.entryAt caller index = some e → EntryTraced s.2 caller index e

theorem Move.traced {s s' : RelayRuntime × List RelayEvent} (hmove : Move s s') (h : Traced s) :
    Traced s' := by
  intro caller index e he
  obtain ⟨events, hlog, hchange⟩ := hmove.entry_change caller index
  have hold := h caller index
  rw [hlog]
  generalize s.1.entryAt caller index = old at *
  rw [he] at hchange
  cases hchange with
  | kept _ hquiet => exact (hold e rfl).append hquiet
  | created => exact entryTraced_fresh ..
  | moved hm => exact hm.traced (hold _ rfl)

theorem Moves.traced {s s' : RelayRuntime × List RelayEvent} (hmoves : Moves s s')
    (h : Traced s) : Traced s' := by
  induction hmoves with
  | refl => exact h
  | tail _ hmove ih => exact hmove.traced ih

def Evicts (caller index : Nat) (event : RelayEvent) : Prop :=
  event = .reset caller index ∨ event = .freed caller

theorem Move.disabled {s s' : RelayRuntime × List RelayEvent} (hmove : Move s s')
    {caller index : Nat} {e : RelayEntry} (he : s.1.entryAt caller index = some e)
    (hkind : e.kind = .disabled) :
    ∃ events, s'.2 = s.2 ++ events ∧ ((∃ event ∈ events, Evicts caller index event) ∨
      ∃ e', s'.1.entryAt caller index = some e' ∧ e'.kind = .disabled) := by
  obtain ⟨events, hlog, hchange⟩ := hmove.entry_change caller index
  refine ⟨events, hlog, ?_⟩
  rw [he] at hchange
  generalize s'.1.entryAt caller index = e' at *
  cases hchange with
  | kept => exact .inr ⟨e, rfl, hkind⟩
  | moved hm =>
    cases hm with
    | reset => exact .inl ⟨_, List.mem_singleton.mpr rfl, .inl rfl⟩
    | invalidated hlive => exact absurd hkind hlive
    | first _ hempty =>
      rw [hkind] at hempty
      cases hempty
    | second _ hlive => exact absurd hkind hlive
    | disabled => exact .inr ⟨_, rfl, rfl⟩
  | freed => exact .inl ⟨_, List.mem_singleton.mpr rfl, .inr rfl⟩

theorem Moves.disabled {s s' : RelayRuntime × List RelayEvent} (hmoves : Moves s s')
    {caller index : Nat} {e : RelayEntry} (he : s.1.entryAt caller index = some e)
    (hkind : e.kind = .disabled) :
    ∃ events, s'.2 = s.2 ++ events ∧ ((∃ event ∈ events, Evicts caller index event) ∨
      ∃ e', s'.1.entryAt caller index = some e' ∧ e'.kind = .disabled) := by
  induction hmoves with
  | refl => exact ⟨[], (List.append_nil _).symm, .inr ⟨e, he, hkind⟩⟩
  | tail _ hmove ih =>
    obtain ⟨events, hlog, hstate⟩ := ih
    rcases hstate with ⟨event, hevent, hevicts⟩ | ⟨e', he', hkind'⟩
    · obtain ⟨more, hmore, -⟩ := hmove.entry_change caller index
      refine ⟨events ++ more, by rw [hmore, hlog, List.append_assoc], .inl ⟨event, ?_, hevicts⟩⟩
      exact List.mem_append_left _ hevent
    · obtain ⟨more, hmore, hend⟩ := hmove.disabled he' hkind'
      refine ⟨events ++ more, by rw [hmore, hlog, List.append_assoc], ?_⟩
      rcases hend with ⟨event, hevent, hevicts⟩ | hend
      · exact .inl ⟨event, List.mem_append_right _ hevent, hevicts⟩
      · exact .inr hend

def RelayEvent.isIdentified : RelayEvent → Bool
  | .identified _ => true
  | _ => false

def identities (log : List RelayEvent) : Nat := log.countP RelayEvent.isIdentified

structure Numbered (s : RelayRuntime × List RelayEvent) : Prop where
  next : s.1.nextFunctionIdentity = identities s.2
  le : ∀ f, (s.1.functions f).identity ≤ identities s.2
  unique : ∀ f g, (s.1.functions f).identity ≠ 0 →
    (s.1.functions f).identity = (s.1.functions g).identity → f = g
  registered : ∀ f, (s.1.functions f).registered = true → (s.1.functions f).identity ≠ 0

theorem Numbered.keep {rt' : RelayRuntime} {events : List RelayEvent} (h : Numbered (rt, log))
    (hnext : rt'.nextFunctionIdentity = rt.nextFunctionIdentity)
    (hfunctions : ∀ f, (rt'.functions f).identity = (rt.functions f).identity ∧
      ((rt'.functions f).registered = true → (rt.functions f).registered = true))
    (hevents : identities events = 0) : Numbered (rt', log ++ events) := by
  have hcount : identities (log ++ events) = identities log := by
    rw [identities, List.countP_append]
    exact (congrArg _ hevents).trans (Nat.add_zero _)
  refine ⟨?_, ?_, ?_, ?_⟩
  · simp only [hcount, hnext]
    exact h.next
  · intro f
    simp only [hcount, (hfunctions f).1]
    exact h.le f
  · intro f g hf hsame
    simp only [(hfunctions f).1, (hfunctions g).1] at hf hsame
    exact h.unique f g hf hsame
  · intro f hf
    simp only [(hfunctions f).1]
    exact h.registered f ((hfunctions f).2 hf)

theorem setFunction_ids {f : Nat} {fn : RelayFunction}
    (hid : fn.identity = (rt.functions f).identity)
    (hreg : fn.registered = true → (rt.functions f).registered = true) (g : Nat) :
    ((rt.setFunction f fn).functions g).identity = (rt.functions g).identity ∧
      (((rt.setFunction f fn).functions g).registered = true →
        (rt.functions g).registered = true) := by
  simp only [setFunction]
  by_cases he : g = f
  · subst he
    rw [Function.update_self]
    exact ⟨hid, hreg⟩
  · rw [Function.update_of_ne he]
    exact ⟨rfl, id⟩

theorem Numbered.identify {f : Nat} (h : Numbered (rt, log))
    (hnew : (rt.functions f).identity = 0) (hfew : identities log + 1 < 2 ^ 64) :
    Numbered ((rt.functionIdentity f).1, log ++ ([.identified f] : List RelayEvent)) := by
  have hcount : identities (log ++ ([.identified f] : List RelayEvent)) = identities log + 1 := by
    rw [identities, List.countP_append]
    rfl
  have hnext : rt.nextFunctionIdentity = identities log := h.next
  have hidentity : rt.functionIdentity f =
      ({ rt.setFunction f { rt.functions f with
          identity := identities log + 1
          registered := true } with
          nextFunctionIdentity := identities log + 1 }, identities log + 1, [.identified f]) := by
    simp only [functionIdentity, hnew, ne_eq, not_true_eq_false, if_false, hnext,
      Nat.mod_eq_of_lt hfew, if_neg (Nat.succ_ne_zero (identities log))]
  rw [hidentity]
  have hself : ∀ g, ((rt.setFunction f { rt.functions f with
      identity := identities log + 1
      registered := true }).functions g).identity =
      if g = f then identities log + 1 else (rt.functions g).identity := by
    intro g
    simp only [setFunction]
    by_cases he : g = f
    · subst he
      rw [Function.update_self, if_pos rfl]
    · rw [Function.update_of_ne he, if_neg he]
  refine ⟨hcount.symm, ?_, ?_, ?_⟩
  · intro g
    simp only [hself, hcount]
    have hle := h.le g
    simp only at hle
    split <;> omega
  · intro g g' hg hsame
    simp only [hself] at hg hsame
    have hle := h.le g
    have hle' := h.le g'
    simp only at hle hle'
    by_cases he : g = f
    · by_cases he' : g' = f
      · exact he.trans he'.symm
      · rw [if_pos he, if_neg he'] at hsame
        omega
    · by_cases he' : g' = f
      · rw [if_neg he, if_pos he'] at hsame
        omega
      · rw [if_neg he, if_neg he'] at hsame
        rw [if_neg he] at hg
        exact h.unique g g' hg hsame
  · intro g hg
    simp only [hself]
    split
    · omega
    · rename_i he
      simp only [setFunction, Function.update_of_ne he] at hg
      exact h.registered g hg

theorem Move.numbered {s s' : RelayRuntime × List RelayEvent} (hmove : Move s s')
    (h : identities s.2 < 2 ^ 64 → Numbered s) : identities s'.2 < 2 ^ 64 → Numbered s' := by
  intro hfew
  have hkeep : ∀ events, s'.2 = s.2 ++ events → identities s.2 < 2 ^ 64 := by
    intro events hlog
    rw [hlog, identities, List.countP_append] at hfew
    simp only [identities]
    omega
  cases hmove with
  | @identify rt log f hnew =>
    have hcount : identities (log ++ ([.identified f] : List RelayEvent)) = identities log + 1 := by
      rw [identities, List.countP_append]
      rfl
    rw [hcount] at hfew
    exact (h (hkeep _ rfl)).identify hnew hfew
  | @change rt log f code =>
    have hs := h hfew
    rw [← List.append_nil log]
    exact hs.keep rfl (setFunction_ids rfl id) rfl
  | @jit rt log enabled =>
    have hs := h hfew
    rw [← List.append_nil log]
    exact hs.keep rfl (fun _ => ⟨rfl, id⟩) rfl
  | @table rt log f hnone =>
    have hs := h hfew
    rw [← List.append_nil log]
    exact hs.keep rfl (setFunction_ids rfl id) rfl
  | @entry rt log events f i table e htable hm =>
    refine (h (hkeep _ rfl)).keep rfl (setFunction_ids rfl id) ?_
    cases hm <;> rfl
  | @free rt log f =>
    refine (h (hkeep _ rfl)).keep rfl (setFunction_ids rfl ?_) rfl
    intro hreg
    cases hreg

theorem Moves.numbered {s s' : RelayRuntime × List RelayEvent} (hmoves : Moves s s')
    (h : identities s.2 < 2 ^ 64 → Numbered s) : identities s'.2 < 2 ^ 64 → Numbered s' := by
  induction hmoves with
  | refl => exact h
  | tail _ hmove ih => exact hmove.numbered ih

end

/-- Calls through the cache run only what was installed. After any operations, a call enters a
fast path only if its kind was recorded for the same site and the same identity since the entry
was last cleared, a native path only while the entry of the target has the recorded generation; a
site lists two targets at most; identities are not zero and not shared by registered functions,
while fewer than 2^64 have been given; and a disabled site enters no path until its entry is taken
from it. -/
theorem relay_calls_only_what_was_installed (ops : List Op) :
    let s := run ({}, []) ops
    (∀ caller offset target argv kind,
      (s.1.relayTryCall caller offset target argv).2.1 = some kind →
      ∃ generation, Since s.2 caller (relayCallHash offset)
          (.installed caller offset (s.1.functionIdentity target).2.1 kind generation) ∧
        Ready (s.1.functions target).code generation kind) ∧
    (∀ caller offset, ∃ first second, ∀ target argv kind,
      (s.1.relayTryCall caller offset target argv).2.1 = some kind →
      (s.1.functionIdentity target).2.1 = first ∨ (s.1.functionIdentity target).2.1 = second) ∧
    (identities s.2 < 2 ^ 64 → ∀ f g, (s.1.functions f).registered = true →
      (s.1.functions g).registered = true → (s.1.functions f).identity ≠ 0 ∧
        ((s.1.functions f).identity = (s.1.functions g).identity → f = g)) ∧
    ∀ caller offset e, s.1.relayCallEntry caller offset = some e → e.kind = .disabled →
      ∀ more events, (run s more).2 = s.2 ++ events →
      (∀ event ∈ events, ¬ Evicts caller (relayCallHash offset) event) →
      ∀ target argv, ((run s more).1.relayTryCall caller offset target argv).2.1 = none := by
  have hmoves := run_moves ({}, []) ops
  have htraced : Traced (run ({}, []) ops) := by
    refine Moves.traced hmoves ?_
    intro caller index e he
    cases he
  have hnumbered := Moves.numbered hmoves fun _ => ⟨rfl, fun _ => Nat.le_refl 0,
    fun f g hf => absurd rfl hf, fun f hf => by cases hf⟩
  generalize run ({}, []) ops = s at *
  refine ⟨?_, ?_, ?_, ?_⟩
  · intro caller offset target argv kind hkind
    obtain ⟨e, generation, he, hempty, hdisabled, hlists, hready⟩ :=
      (relayTryCall_spec s.1 s.2 caller offset target argv).2 kind hkind
    obtain ⟨table, htable, rfl, hoffset⟩ := relayCallEntry_eq.mp he
    have hentry : s.1.entryAt caller (relayCallHash offset) =
        some (table (relayCallHash offset)) := by
      rw [entryAt, htable]
      rfl
    have hentry' := htraced caller _ _ hentry
    refine ⟨generation, ?_, hready⟩
    rcases hlists with ⟨hid, hk, hgen⟩ | ⟨hid, hk, hgen, hsecond⟩
    · have hsince := hentry'.first hempty hdisabled
      rw [hoffset] at hsince
      rw [hid, hk, hgen]
      exact hsince
    · have hsince := hentry'.second hsecond
      rw [hoffset] at hsince
      rw [hid, hk, hgen]
      exact hsince
  · intro caller offset
    cases hentry : s.1.relayCallEntry caller offset with
    | none =>
      refine ⟨0, 0, ?_⟩
      intro target argv kind hkind
      obtain ⟨e, generation, he, -⟩ :=
        (relayTryCall_spec s.1 s.2 caller offset target argv).2 kind hkind
      rw [hentry] at he
      cases he
    | some e =>
      refine ⟨e.targetIdentity, e.secondaryTargetIdentity, ?_⟩
      intro target argv kind hkind
      obtain ⟨e', generation, he, -, -, hlists, -⟩ :=
        (relayTryCall_spec s.1 s.2 caller offset target argv).2 kind hkind
      rw [hentry] at he
      cases he
      exact hlists.imp (·.1) (·.1)
  · intro hfew f g hf hg
    have hs := hnumbered hfew
    exact ⟨hs.registered f hf, hs.unique f g (hs.registered f hf)⟩
  · intro caller offset e he hkind more events hlog hquiet target argv
    obtain ⟨table, htable, rfl, -⟩ := relayCallEntry_eq.mp he
    have hentry : s.1.entryAt caller (relayCallHash offset) =
        some (table (relayCallHash offset)) := by
      rw [entryAt, htable]
      rfl
    obtain ⟨events', hlog', hend⟩ := Moves.disabled (run_moves s more) hentry hkind
    have hevents : events' = events := List.append_cancel_left (hlog'.symm.trans hlog)
    subst hevents
    rcases hend with ⟨event, hevent, hevicts⟩ | ⟨e', he', hkind'⟩
    · exact absurd hevicts (hquiet event hevent)
    · cases hcall : ((run s more).1.relayTryCall caller offset target argv).2.1 with
      | none => rfl
      | some kind =>
        obtain ⟨e'', generation, he'', -, hdisabled, -⟩ :=
          (relayTryCall_spec (run s more).1 [] caller offset target argv).2 kind hcall
        obtain ⟨table', htable', rfl, -⟩ := relayCallEntry_eq.mp he''
        rw [entryAt, htable'] at he'
        cases he'
        exact absurd hkind' hdisabled

def collidingSites : List Op :=
  [.change 1 { leafState := 1, leafPlan := some 1 }, .installLeaf 0 3 1 true,
    .installLeaf 0 24 1 true]

theorem evicted_site_is_not_called :
    ((run ({}, []) collidingSites).1.relayTryCall 0 3 1 []).2.1 = none ∧
    ((run ({}, []) collidingSites).1.relayTryCall 0 24 1 []).2.1 = some .affineLeaf ∧
    ∃ generation, Since (run ({}, []) collidingSites).2 0 (relayCallHash 24)
      (.installed 0 24 ((run ({}, []) collidingSites).1.functionIdentity 1).2.1 .affineLeaf
        generation) := by
  have hcall : ((run ({}, []) collidingSites).1.relayTryCall 0 24 1 []).2.1 =
      some .affineLeaf := by
    decide +kernel
  refine ⟨by decide +kernel, hcall, ?_⟩
  obtain ⟨generation, hsince, -⟩ :=
    (relay_calls_only_what_was_installed collidingSites).1 0 24 1 [] .affineLeaf hcall
  exact ⟨generation, hsince⟩

theorem run_append (s : RelayRuntime × List RelayEvent) (ops more : List Op) :
    run s (ops ++ more) = run (run s ops) more :=
  List.foldl_append

def churn (n : Nat) : List Op :=
  .identify 0 :: (List.range n).flatMap fun i => [.identify (i + 1), .free (i + 1)]

theorem run_identify_free {s : RelayRuntime × List RelayEvent} {f : Nat}
    (hnew : (s.1.functions f).identity = 0) (hnext : s.1.nextFunctionIdentity + 1 < 2 ^ 64) :
    let rt := (run s [.identify f, .free f]).1
    rt.nextFunctionIdentity = s.1.nextFunctionIdentity + 1 ∧
      ∀ g, g ≠ f → rt.functions g = s.1.functions g := by
  simp only [run, List.foldl_cons, List.foldl_nil, perform, functionIdentity, freeFunction, hnew,
    ne_eq, not_true_eq_false, if_false, Nat.mod_eq_of_lt hnext,
    if_neg (Nat.succ_ne_zero s.1.nextFunctionIdentity), setFunction, true_and]
  intro g hg
  rw [Function.update_of_ne hg, Function.update_of_ne hg]

theorem churn_counts {n : Nat} (hn : n + 1 < 2 ^ 64) :
    let rt := (run ({}, []) (churn n)).1
    rt.nextFunctionIdentity = n + 1 ∧
      ((rt.functions 0).identity = 1 ∧ (rt.functions 0).registered = true) ∧
      ∀ f, n < f → (rt.functions f).identity = 0 := by
  induction n with
  | zero =>
    refine ⟨rfl, ⟨rfl, rfl⟩, ?_⟩
    intro f hf
    have hne : f ≠ 0 := Nat.ne_of_gt hf
    simp [churn, run, perform, functionIdentity, setFunction, Function.update_of_ne hne]
  | succ n ih =>
    have hsplit : churn (n + 1) = churn n ++ ([.identify (n + 1), .free (n + 1)] : List Op) := by
      simp [churn, List.range_succ]
    obtain ⟨hnext, hzero, hlater⟩ := ih (by omega)
    rw [hsplit, run_append]
    generalize run ({}, []) (churn n) = s at *
    obtain ⟨hend, hother⟩ := run_identify_free (hlater (n + 1) (Nat.lt_succ_self n))
      (by rw [hnext]; exact hn)
    refine ⟨hend.trans (by rw [hnext]), ?_, ?_⟩
    · rw [hother 0 (by omega)]
      exact hzero
    · intro f hf
      rw [hother f (by omega)]
      exact hlater f (by omega)

theorem churn_wraps {n : Nat} (hn : n + 2 = 2 ^ 64) :
    let rt := (run ({}, []) (churn n ++ ([.identify (n + 1)] : List Op))).1
    (rt.functions 0).registered = true ∧ (rt.functions (n + 1)).registered = true ∧
      (rt.functions 0).identity = (rt.functions (n + 1)).identity := by
  have hcounts := churn_counts (n := n) (by omega)
  rw [run_append]
  generalize run ({}, []) (churn n) = s at *
  obtain ⟨hnext, ⟨hid, hreg⟩, hlater⟩ := hcounts
  have hnew := hlater (n + 1) (Nat.lt_succ_self n)
  have hwrap : (s.1.nextFunctionIdentity + 1) % 2 ^ 64 = 0 := by
    rw [hnext]
    omega
  simp only [run, List.foldl_cons, List.foldl_nil, perform, functionIdentity, hnew, ne_eq,
    not_true_eq_false, if_false, hwrap, if_true, setFunction, Function.update_self,
    Function.update_of_ne (Nat.succ_ne_zero n).symm]
  exact ⟨hreg, trivial, hid⟩

/-- After 2^64 - 1 identities the counter wraps, and a new function gets the identity of one that
is still registered. -/
theorem wrapped_identity_is_shared :
    ((run ({}, []) (churn (2 ^ 64 - 2) ++ ([.identify (2 ^ 64 - 2 + 1)] : List Op))).1.functions
        0).registered = true ∧
    ((run ({}, []) (churn (2 ^ 64 - 2) ++ ([.identify (2 ^ 64 - 2 + 1)] : List Op))).1.functions
        (2 ^ 64 - 2 + 1)).registered = true ∧
    ((run ({}, []) (churn (2 ^ 64 - 2) ++ ([.identify (2 ^ 64 - 2 + 1)] : List Op))).1.functions
        0).identity =
      ((run ({}, []) (churn (2 ^ 64 - 2) ++ ([.identify (2 ^ 64 - 2 + 1)] : List Op))).1.functions
        (2 ^ 64 - 2 + 1)).identity :=
  churn_wraps (by omega)

end RelayRuntime

end TurboJS.Runtime
