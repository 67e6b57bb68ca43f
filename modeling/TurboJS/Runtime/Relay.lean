import TurboJS.IR.Function

namespace TurboJS.Runtime
open IR

/-! The inline cache of calls: what a call site has learnt about its targets, by their
identities. -/

inductive RelayKind where
  | empty | affineLeaf | genericLeaf | spoolInt32 | spoolFloat64 | disabled
  deriving DecidableEq, Repr

/-- `TurboJSVMRelayCallICEntry`, less its counters. -/
structure RelayEntry where
  bytecodeOffset : BitVec 32 := 0
  targetIdentity : Nat := 0
  nativeGeneration : Nat := 0
  secondaryTargetIdentity : Nat := 0
  secondaryNativeGeneration : Nat := 0
  kind : RelayKind := .empty
  secondaryKind : RelayKind := .empty
  deriving DecidableEq, Repr

structure RelayCode where
  leafState : Nat := 0
  leafPlan : Option Nat := none
  reserved : Nat := 0
  spoolInt32Entry : NativeEntryHandle := ⟨none, 0, 0, .none⟩
  spoolFloat64Entry : NativeEntryHandle := ⟨none, 0, 0, .none⟩
  argCount : Nat := 0
  deriving DecidableEq, Repr

/-- The part of `JSFunctionBytecode` that calls through the cache read. -/
structure RelayFunction where
  identity : Nat := 0
  registered : Bool := false
  code : RelayCode := {}
  relayCallIc : Option (Nat → RelayEntry) := none

structure RelayRuntime where
  jitEnabled : Bool := true
  nextFunctionIdentity : Nat := 0
  functions : Nat → RelayFunction := fun _ => {}

/-- What happened to the entries of the callers and to the identities, in order. The entry of a
caller is named by its index in the table. -/
inductive RelayEvent where
  | identified (function : Nat)
  | installed (caller : Nat) (offset : BitVec 32) (identity : Nat) (kind : RelayKind)
      (generation : Nat)
  | reset (caller index : Nat)
  | invalidated (caller index : Nat)
  | freed (caller : Nat)
  deriving DecidableEq, Repr

def relayCallHash (offset : BitVec 32) : Nat :=
  (((offset * 2654435761) >>> 28) &&& 15).toNat

namespace RelayRuntime

def setFunction (rt : RelayRuntime) (f : Nat) (fn : RelayFunction) : RelayRuntime :=
  { rt with functions := Function.update rt.functions f fn }

def functionIdentity (rt : RelayRuntime) (f : Nat) : RelayRuntime × Nat × List RelayEvent :=
  let fn := rt.functions f
  if fn.identity ≠ 0 then (rt, fn.identity, [])
  else
    let identity := (rt.nextFunctionIdentity + 1) % 2 ^ 64
    let identity := if identity = 0 then 1 else identity
    ({ rt.setFunction f { fn with identity := identity, registered := true } with
        nextFunctionIdentity := identity },
      identity, [.identified f])

def setEntry (rt : RelayRuntime) (caller index : Nat) (entry : RelayEntry) : RelayRuntime :=
  let fn := rt.functions caller
  rt.setFunction caller
    { fn with relayCallIc := fn.relayCallIc.map fun table => Function.update table index entry }

def relayCallEntry (rt : RelayRuntime) (caller : Nat) (offset : BitVec 32) : Option RelayEntry :=
  match (rt.functions caller).relayCallIc with
  | none => none
  | some table =>
    let entry := table (relayCallHash offset)
    if entry.bytecodeOffset ≠ offset then none else some entry

/-- `turbojs_relay_call_slot` that creates what is missing; `memory` says whether a table can be
allocated. -/
def relayCallSlot (rt : RelayRuntime) (caller : Nat) (offset : BitVec 32) (memory : Bool) :
    RelayRuntime × Option RelayEntry × List RelayEvent :=
  let fn := rt.functions caller
  let rt := if fn.relayCallIc.isNone ∧ memory then
      rt.setFunction caller { fn with relayCallIc := some fun _ => {} }
    else rt
  match (rt.functions caller).relayCallIc with
  | none => (rt, none, [])
  | some table =>
    let index := relayCallHash offset
    if (table index).bytecodeOffset ≠ offset then
      let entry : RelayEntry := { bytecodeOffset := offset }
      (rt.setEntry caller index entry, some entry, [.reset caller index])
    else (rt, some (table index), [])

def relayInvalidate (rt : RelayRuntime) (caller : Nat) (entry : RelayEntry) :
    RelayRuntime × List RelayEvent :=
  let index := relayCallHash entry.bytecodeOffset
  (rt.setEntry caller index { bytecodeOffset := entry.bytecodeOffset },
    [.invalidated caller index])

inductive ArgumentTag where
  | int | float64 | other
  deriving DecidableEq, Repr

inductive SpoolResult where
  | miss | stale | invoked
  deriving DecidableEq, Repr

/-- `turbojs_spool_entry_invoke`, up to the call of the native code. -/
def spoolEntryInvoke (code : RelayCode) (kind : EntryKind) (expectedGeneration : Nat)
    (argv : List ArgumentTag) : SpoolResult :=
  if argv.length < code.argCount ∨ code.argCount > maxRegisters then .miss
  else
    let handle := match kind with
      | .int32 => some code.spoolInt32Entry
      | .float64 => some code.spoolFloat64Entry
      | .none => none
    match handle with
    | none => .stale
    | some handle =>
      if handle.function = none ∨ expectedGeneration = 0 ∨
          handle.generation ≠ expectedGeneration ∨ handle.kind ≠ kind then .stale
      else
        let accepted : Bool := match kind with
          | .int32 => (argv.take code.argCount).all (· = .int)
          | _ => (argv.take code.argCount).all (· ≠ .other)
        if accepted then .invoked else .miss

/-- `turbojs_relay_try_call`: the fast path that it enters, if any. -/
def relayTryCall (rt : RelayRuntime) (caller : Nat) (offset : BitVec 32) (target : Nat)
    (argv : List ArgumentTag) : RelayRuntime × Option RelayKind × List RelayEvent :=
  if !rt.jitEnabled then (rt, none, [])
  else
    match rt.relayCallEntry caller offset with
    | none => (rt, none, [])
    | some entry =>
      if entry.kind = .empty ∨ entry.kind = .disabled then (rt, none, [])
      else
        let (rt, identity, events) := rt.functionIdentity target
        let found :=
          if identity = entry.targetIdentity then some (entry.kind, entry.nativeGeneration)
          else if entry.secondaryKind ≠ .empty ∧ identity = entry.secondaryTargetIdentity then
            some (entry.secondaryKind, entry.secondaryNativeGeneration)
          else none
        let code := (rt.functions target).code
        let spool (kind : RelayKind) (entryKind : EntryKind) (generation : Nat) :
            RelayRuntime × Option RelayKind × List RelayEvent :=
          match spoolEntryInvoke code entryKind generation argv with
          | .miss => (rt, none, events)
          | .invoked => (rt, some kind, events)
          | .stale =>
            let (rt, invalidated) := rt.relayInvalidate caller entry
            (rt, none, events ++ invalidated)
        match found with
        | none => (rt, none, events)
        | some (.affineLeaf, _) | some (.genericLeaf, _) =>
          if code.leafPlan = none ∨ code.leafState ≠ 1 then
            let (rt, invalidated) := rt.relayInvalidate caller entry
            (rt, none, events ++ invalidated)
          else (rt, found.map (·.1), events)
        | some (.spoolInt32, generation) => spool .spoolInt32 .int32 generation
        | some (.spoolFloat64, generation) => spool .spoolFloat64 .float64 generation
        | some (_, _) => (rt, none, events)

/-- The part that the two installations share: a target is recorded as the first or the second of
its site, and a third one disables the site. -/
def relayRecord (rt : RelayRuntime) (caller : Nat) (entry : RelayEntry) (identity : Nat)
    (kind : RelayKind) (generation : Nat) : RelayRuntime × List RelayEvent :=
  let index := relayCallHash entry.bytecodeOffset
  let installed := RelayEvent.installed caller entry.bytecodeOffset identity kind generation
  if entry.kind = .disabled then (rt, [])
  else if entry.kind = .empty then
    (rt.setEntry caller index
      { entry with targetIdentity := identity, nativeGeneration := generation, kind := kind },
      [installed])
  else if entry.targetIdentity = identity ∨ entry.secondaryTargetIdentity = identity then (rt, [])
  else if entry.secondaryKind = .empty then
    (rt.setEntry caller index
      { entry with
        secondaryTargetIdentity := identity
        secondaryNativeGeneration := generation
        secondaryKind := kind },
      [installed])
  else
    (rt.setEntry caller index
      { entry with
        kind := .disabled
        secondaryKind := .empty
        nativeGeneration := 0
        secondaryNativeGeneration := 0 }, [])

def relayInstall (rt : RelayRuntime) (caller : Nat) (offset : BitVec 32) (target : Nat)
    (memory : Bool) (kind : RelayKind) (generation : Nat) (allowed : Bool) :
    RelayRuntime × List RelayEvent :=
  let (rt, identity, identified) := rt.functionIdentity target
  if !allowed then (rt, identified)
  else
    let (rt, entry, reset) := rt.relayCallSlot caller offset memory
    match entry with
    | none => (rt, identified ++ reset)
    | some entry =>
      let (rt, recorded) := rt.relayRecord caller entry identity kind generation
      (rt, identified ++ reset ++ recorded)

def relayInstallLeaf (rt : RelayRuntime) (caller : Nat) (offset : BitVec 32) (target : Nat)
    (memory : Bool) : RelayRuntime × List RelayEvent :=
  let code := (rt.functions target).code
  if !rt.jitEnabled ∨ code.leafState ≠ 1 then (rt, [])
  else
    match code.leafPlan with
    | none => (rt, [])
    | some plan =>
      let kind := if plan = 1 then .affineLeaf else .genericLeaf
      rt.relayInstall caller offset target memory kind 0 true

/-- `turbojs_relay_install_spool`; `observed` is what the feedback of the call site says about
the target. -/
def relayInstallSpool (rt : RelayRuntime) (caller : Nat) (offset : BitVec 32) (target : Nat)
    (memory observed : Bool) : RelayRuntime × List RelayEvent :=
  let code := (rt.functions target).code
  if !rt.jitEnabled then (rt, [])
  else if code.reserved = 1 ∧ code.spoolInt32Entry.function.isSome then
    rt.relayInstall caller offset target memory .spoolInt32 code.spoolInt32Entry.generation
      observed
  else if code.reserved = 2 ∧ code.spoolFloat64Entry.function.isSome then
    rt.relayInstall caller offset target memory .spoolFloat64 code.spoolFloat64Entry.generation
      observed
  else (rt, [])

/-- `free_function_bytecode`: the function leaves the registry and its table is freed. -/
def freeFunction (rt : RelayRuntime) (f : Nat) : RelayRuntime × List RelayEvent :=
  (rt.setFunction f { rt.functions f with registered := false, relayCallIc := none }, [.freed f])

/-- The operations. A compilation or an invalidation changes the code of a function in any way;
the feedback of calls gives it an identity. -/
inductive Op where
  | tryCall (caller : Nat) (offset : BitVec 32) (target : Nat) (argv : List ArgumentTag)
  | installLeaf (caller : Nat) (offset : BitVec 32) (target : Nat) (memory : Bool)
  | installSpool (caller : Nat) (offset : BitVec 32) (target : Nat) (memory observed : Bool)
  | identify (function : Nat)
  | change (function : Nat) (code : RelayCode)
  | setJit (enabled : Bool)
  | free (function : Nat)

def perform (rt : RelayRuntime) : Op → RelayRuntime × List RelayEvent
  | .tryCall caller offset target argv =>
    let (rt, _, events) := rt.relayTryCall caller offset target argv
    (rt, events)
  | .installLeaf caller offset target memory => rt.relayInstallLeaf caller offset target memory
  | .installSpool caller offset target memory observed =>
    rt.relayInstallSpool caller offset target memory observed
  | .identify f =>
    let (rt, _, events) := rt.functionIdentity f
    (rt, events)
  | .change f code => (rt.setFunction f { rt.functions f with code := code }, [])
  | .setJit enabled => ({ rt with jitEnabled := enabled }, [])
  | .free f => rt.freeFunction f

def run (s : RelayRuntime × List RelayEvent) (ops : List Op) : RelayRuntime × List RelayEvent :=
  ops.foldl (fun s op => ((s.1.perform op).1, s.2 ++ (s.1.perform op).2)) s

end RelayRuntime

end TurboJS.Runtime
