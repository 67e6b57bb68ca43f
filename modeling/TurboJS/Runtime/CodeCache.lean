import TurboJS.IR.Function
import TurboJS.Foundation.Loop

namespace TurboJS.Runtime
open IR Foundation

/-! The code cache: a table with linear probing that holds the compiled functions by key and the
compiled continuations by their identity. -/

structure NativeFunction where
  id : Nat
  codeSize : Nat
  deriving DecidableEq, Repr

inductive CacheKind where
  | function | continuation
  deriving DecidableEq, Repr

inductive EntryState where
  | empty | live | tombstone
  deriving DecidableEq, Repr

/-- `TurboJSCodeCacheEntry`, less the lists of its dependencies. The key is an address, zero for
a null pointer. -/
structure CacheEntry where
  key : Word := 0
  function : Option NativeFunction := none
  entryHandle : Option Nat := none
  codeSize : Nat := 0
  stamp : Nat := 0
  accessCount : Nat := 0
  entryKind : EntryKind := .none
  cacheKind : CacheKind := .function
  state : EntryState := .empty
  continuationFunctionId : Nat := 0
  continuationRevision : Nat := 0
  targetIdentity : Nat := 0
  continuationStartInstruction : Nat := 0
  continuationPrologueCount : Nat := 0
  deriving DecidableEq, Repr

/-- `TurboJSCodeCache`, with the entry handles that its entries may point to. -/
structure CodeCache where
  entries : Nat → CacheEntry
  slotCount : Nat
  count : Nat
  maximumEntries : Nat
  maximumCodeBytes : Nat
  codeBytes : Nat
  clock : Nat
  lastKey : Word
  lastFunction : Option NativeFunction
  handles : Nat → NativeEntryHandle

def sizeMax : Nat := 2 ^ 64 - 1
def uint32Max : Nat := 2 ^ 32 - 1

/-- The loop of `next_pow2`; it leaves at the latest when the result is past half of the range. -/
def nextPow2From (value : Nat) : Nat → Nat → Nat
  | 0, result => result
  | fuel + 1, result =>
    if result < value then
      if result > sizeMax / 2 then 0 else nextPow2From value fuel (result * 2)
    else result

def nextPow2 (value : Nat) : Nat :=
  if value > sizeMax / 2 then 0 else nextPow2From value 64 8

def keyHash (key : Word) : Word :=
  let x := key
  let x := x ^^^ (x >>> 33)
  let x := x * 0xff51afd7ed558ccd
  let x := x ^^^ (x >>> 33)
  let x := x * 0xc4ceb9fe1a85ec53
  x ^^^ (x >>> 33)

def CodeCache.mask (c : CodeCache) : Nat := c.slotCount - 1

/-- The loop of `find_slot`. -/
def CodeCache.findSlotFrom (c : CodeCache) (key : Word) (forInsert : Bool) :
    Nat → Nat → Option Nat → Option Nat
  | 0, _, tombstone => tombstone
  | probes + 1, slot, tombstone =>
    let entry := c.entries slot
    if entry.state = .empty then some (tombstone.getD slot)
    else if entry.state = .live ∧ entry.key = key then some slot
    else
      c.findSlotFrom key forInsert probes ((slot + 1) &&& c.mask)
        (if forInsert ∧ entry.state = .tombstone ∧ tombstone = none then some slot else tombstone)

/-- `find_slot`; `none` is `SIZE_MAX`. -/
def CodeCache.findSlot (c : CodeCache) (key : Word) (forInsert : Bool) : Option Nat :=
  c.findSlotFrom key forInsert c.slotCount ((keyHash key).toNat &&& c.mask) none

/-- The live entry that `find_slot` leads to. -/
def CodeCache.findLive (c : CodeCache) (key : Word) : Option Nat :=
  match c.findSlot key false with
  | some slot => if (c.entries slot).state = .live then some slot else none
  | none => none

def CodeCache.tick (c : CodeCache) : Nat := (c.clock + 1) % 2 ^ 64

def CodeCache.setEntry (c : CodeCache) (slot : Nat) (entry : CacheEntry) : CodeCache :=
  { c with entries := Function.update c.entries slot entry }

def CodeCache.touchEntry (c : CodeCache) (slot : Nat) : CodeCache :=
  let entry := c.entries slot
  { c.setEntry slot { entry with
      stamp := c.tick
      accessCount := if entry.accessCount ≠ uint32Max then entry.accessCount + 1
        else entry.accessCount } with
    clock := c.tick }

def CodeCache.evictionScore (c : CodeCache) (entry : CacheEntry) : Nat :=
  if entry.state ≠ .live then 0
  else
    let age := c.clock - entry.stamp
    let sizeUnits := 1 + entry.codeSize / (16 * 1024)
    let retention := match entry.cacheKind with
      | .continuation => 4 + min entry.accessCount 12
      | .function => 1 + min entry.accessCount 3
    (age + 1) * sizeUnits * 1024 % 2 ^ 64 / retention

inductive CacheEvent where
  | compiled (key : Word) (function : NativeFunction)
  | removed (key : Word)
  deriving DecidableEq, Repr

def nextEntryGeneration (generation : Nat) : Nat :=
  if (generation + 1) % 2 ^ 64 = 0 then 1 else (generation + 1) % 2 ^ 64

def invalidateHandle (handle : NativeEntryHandle) : NativeEntryHandle :=
  ⟨none,
    if handle.function.isSome ∨ handle.kind ≠ .none then nextEntryGeneration handle.generation
    else handle.generation,
    0, .none⟩

def CodeCache.handlesWithout (c : CodeCache) (entry : CacheEntry) : Nat → NativeEntryHandle :=
  match entry.entryHandle with
  | some h =>
    if entry.cacheKind = .function ∧ (c.handles h).function = entry.function.map (·.id) then
      Function.update c.handles h (invalidateHandle (c.handles h))
    else c.handles
  | none => c.handles

def CodeCache.removeSlot (c : CodeCache) (slot : Nat) : CodeCache × List CacheEvent :=
  let entry := c.entries slot
  if entry.state ≠ .live then (c, [])
  else
    ({ c.setEntry slot { state := .tombstone } with
        codeBytes := c.codeBytes - entry.codeSize
        lastKey := if c.lastKey = entry.key then 0 else c.lastKey
        lastFunction := if c.lastKey = entry.key then none else c.lastFunction
        handles := c.handlesWithout entry
        count := c.count - 1 },
      if entry.cacheKind = .function then [.removed entry.key] else [])

/-- The state of the scan in `evict_lru`: the victim so far, its score and its stamp. -/
structure Victim where
  slot : Option Nat
  worstScore : Nat
  oldestStamp : Nat

def CodeCache.considerVictim (c : CodeCache) (i : Nat) (v : Victim) : Victim :=
  let entry := c.entries i
  if entry.state ≠ .live then v
  else
    let score := c.evictionScore entry
    if v.slot = none ∨ score > v.worstScore ∨
        (score = v.worstScore ∧ entry.stamp < v.oldestStamp) then
      ⟨some i, score, entry.stamp⟩
    else v

def CodeCache.victim (c : CodeCache) : Option Nat :=
  (forUp c.slotCount c.considerVictim ⟨none, 0, sizeMax⟩).slot

/-- `evict_lru`; `none` if there is nothing to evict. -/
def CodeCache.evictLru (c : CodeCache) : Option (CodeCache × List CacheEvent) :=
  c.victim.map c.removeSlot

def CodeCache.full (c : CodeCache) (codeSize : Nat) : Bool :=
  c.count ≥ c.maximumEntries ∨ codeSize > c.maximumCodeBytes - c.codeBytes

def CodeCache.makeRoomFrom (codeSize : Nat) : Nat → CodeCache → CodeCache × List CacheEvent
  | 0, c => (c, [])
  | fuel + 1, c =>
    if c.count ≠ 0 ∧ c.full codeSize then
      match c.evictLru with
      | none => (c, [])
      | some (c, events) =>
        let (c, rest) := CodeCache.makeRoomFrom codeSize fuel c
        (c, events ++ rest)
    else (c, [])

def CodeCache.makeRoom (c : CodeCache) (codeSize : Nat) : CodeCache × List CacheEvent :=
  CodeCache.makeRoomFrom codeSize c.count c

/-- `TurboJS_CodeCacheCreate`, when the allocations succeed. -/
def CodeCache.create (maximumEntries maximumCodeBytes : Nat) : Option CodeCache :=
  let maximumEntries := if maximumEntries = 0 then 64 else maximumEntries
  let maximumCodeBytes := if maximumCodeBytes = 0 then 4 * 1024 * 1024 else maximumCodeBytes
  let slots := nextPow2 (if maximumEntries < sizeMax / 2 then maximumEntries * 2 else 0)
  if slots = 0 then none
  else some ⟨fun _ => {}, slots, 0, maximumEntries, maximumCodeBytes, 0, 0, 0, none,
    fun _ => ⟨none, 0, 0, .none⟩⟩

def CodeCache.lookup (c : CodeCache) (key : Word) : CodeCache × Option NativeFunction :=
  if key = 0 then (c, none)
  else if c.lastKey = key ∧ c.lastFunction.isSome then
    (match c.findLive key with
      | some slot => c.touchEntry slot
      | none => c, c.lastFunction)
  else
    match c.findLive key with
    | none => (c, none)
    | some slot =>
      ({ c.touchEntry slot with
          lastKey := key
          lastFunction := (c.entries slot).function },
        (c.entries slot).function)

/-- What the compiler answers to `TurboJS_CodeCacheCompile`: the baseline compilation and, for
an unsupported function, that of the function with its calls specialized, if there is one. -/
structure Compiler where
  baseline : Except Status NativeFunction
  specialized : Option (Except Status NativeFunction)

def Compiler.result (k : Compiler) : Except Status NativeFunction :=
  match k.baseline, k.specialized with
  | .error .unsupported, some r => r
  | r, _ => r

/-- A new entry in `slot`; `registered` says whether its dependencies could be recorded. The last
lookup is kept if the entry has to go again. -/
def CodeCache.insert (c : CodeCache) (slot : Nat) (entry : CacheEntry) (registered : Bool) :
    CodeCache × List CacheEvent :=
  let c := { c.setEntry slot entry with
    clock := c.tick
    count := c.count + 1
    codeBytes := c.codeBytes + entry.codeSize }
  if registered then (c, []) else c.removeSlot slot

def functionEntry (c : CodeCache) (old : CacheEntry) (key : Word) (native : NativeFunction) :
    CacheEntry :=
  { old with
    key := key
    function := some native
    codeSize := native.codeSize
    stamp := c.tick
    accessCount := 1
    cacheKind := .function
    state := .live }

def CodeCache.compile (c : CodeCache) (key : Word) (compiler : Compiler) (registered : Bool) :
    CodeCache × List CacheEvent × Except Status NativeFunction :=
  if key = 0 then (c, [], .error .invalidArgument)
  else
    match c.findLive key with
    | some slot =>
      (c.touchEntry slot, [], ((c.entries slot).function).elim (.error .invalidArgument) .ok)
    | none =>
      match compiler.result with
      | .error status => (c, [], .error status)
      | .ok native =>
        if native.codeSize > c.maximumCodeBytes then (c, [], .error .unsupported)
        else
          let (c, evicted) := c.makeRoom native.codeSize
          if c.full native.codeSize then (c, evicted, .error .unsupported)
          else
            match c.findSlot key true with
            | none => (c, evicted, .error .outOfMemory)
            | some slot =>
              let (c, failed) :=
                c.insert slot (functionEntry c (c.entries slot) key native) registered
              if registered then
                ({ c with lastKey := key, lastFunction := some native },
                  evicted ++ ([.compiled key native] : List CacheEvent), .ok native)
              else (c, evicted ++ .compiled key native :: failed, .error .outOfMemory)

def publishEntryHandle (handle : NativeEntryHandle) (id : Option Nat) (kind : EntryKind)
    (argumentCount : Nat) : NativeEntryHandle :=
  if handle.function = id ∧ handle.kind = kind ∧ handle.argumentCount = argumentCount then handle
  else ⟨id, nextEntryGeneration handle.generation, argumentCount, kind⟩

def CodeCache.handlesFor (c : CodeCache) (entry : CacheEntry) (handle : Nat) (kind : EntryKind)
    (argumentCount : Nat) : Nat → NativeEntryHandle :=
  let id := entry.function.map (·.id)
  let handles := match entry.entryHandle with
    | some h =>
      if h ≠ handle ∧ (c.handles h).function = id then
        Function.update c.handles h (invalidateHandle (c.handles h))
      else c.handles
    | none => c.handles
  Function.update handles handle (publishEntryHandle (handles handle) id kind argumentCount)

/-- `TurboJS_CodeCacheAttachEntryHandleIdentity`, less the patching of the code of callers. -/
def CodeCache.attachEntryHandle (c : CodeCache) (key : Word) (handle : Nat) (kind : EntryKind)
    (argumentCount targetIdentity : Nat) : CodeCache × Status :=
  if key = 0 ∨ kind = .none then (c, .invalidArgument)
  else
    match c.findLive key with
    | none => (c, .unsupported)
    | some slot =>
      let entry := c.entries slot
      ({ c.setEntry slot { entry with
            entryHandle := some handle
            entryKind := kind
            targetIdentity := targetIdentity } with
          handles := c.handlesFor entry handle kind argumentCount }, .ok)

def CodeCache.invalidate (c : CodeCache) (key : Word) : CodeCache × List CacheEvent :=
  if key = 0 then (c, [])
  else
    match c.findSlot key false with
    | some slot => c.removeSlot slot
    | none => (c, [])

/-- One slot of the loop in `TurboJS_CodeCacheClear`. -/
def clearSlot (i : Nat) (s : CodeCache × List CacheEvent) : CodeCache × List CacheEvent :=
  let (c, events) := s.1.removeSlot i
  (c, s.2 ++ events)

def CodeCache.clear (c : CodeCache) : CodeCache × List CacheEvent :=
  let (c, events) := forUp c.slotCount clearSlot (c, [])
  ({ c with
      entries := fun _ => {}
      count := 0
      codeBytes := 0
      lastKey := 0
      lastFunction := none }, events)

structure Continuation where
  functionId : Nat
  revision : Nat
  start : Nat
  deriving DecidableEq, Repr

def CacheEntry.continuation (e : CacheEntry) : Continuation :=
  ⟨e.continuationFunctionId, e.continuationRevision, e.continuationStartInstruction⟩

def CodeCache.findContinuation (c : CodeCache) (k : Continuation) : Option Nat :=
  searchUp c.slotCount fun i =>
    let entry := c.entries i
    if entry.state = .live ∧ entry.cacheKind = .continuation ∧ entry.continuation = k then some i
    else none

/-- `TurboJS_CodeCacheLookupContinuation`, with the count of the prologue. -/
def CodeCache.lookupContinuation (c : CodeCache) (k : Continuation) :
    CodeCache × Option (NativeFunction × Nat) :=
  match c.findContinuation k with
  | none => (c, none)
  | some slot =>
    (c.touchEntry slot,
      (c.entries slot).function.map (·, (c.entries slot).continuationPrologueCount))

def continuationEntry (c : CodeCache) (old : CacheEntry) (k : Continuation)
    (prologueCount : Nat) (native : NativeFunction) : CacheEntry :=
  { old with
    key := 0
    function := some native
    codeSize := native.codeSize
    stamp := c.tick
    accessCount := 1
    cacheKind := .continuation
    continuationFunctionId := k.functionId
    continuationRevision := k.revision
    continuationStartInstruction := k.start
    continuationPrologueCount := prologueCount
    state := .live }

def CodeCache.firstFree (c : CodeCache) : Option Nat :=
  searchUp c.slotCount fun i => if (c.entries i).state ≠ .live then some i else none

def CodeCache.storeContinuation (c : CodeCache) (k : Continuation) (prologueCount : Nat)
    (native : NativeFunction) (registered : Bool) :
    CodeCache × List CacheEvent × Except Status NativeFunction :=
  if k.functionId = 0 then (c, [], .error .invalidArgument)
  else
    match c.findContinuation k with
    | some slot =>
      (c.touchEntry slot, [], ((c.entries slot).function).elim (.error .invalidArgument) .ok)
    | none =>
      if native.codeSize > c.maximumCodeBytes then (c, [], .error .unsupported)
      else
        let (c, evicted) := c.makeRoom native.codeSize
        if c.full native.codeSize then (c, evicted, .error .unsupported)
        else
          match c.firstFree with
          | none => (c, evicted, .error .outOfMemory)
          | some slot =>
            let (c, failed) := c.insert slot
              (continuationEntry c (c.entries slot) k prologueCount native) registered
            (c, evicted ++ failed, if registered then .ok native else .error .outOfMemory)

inductive CacheOp where
  | lookup (key : Word)
  | compile (key : Word) (compiler : Compiler) (registered : Bool)
  | storeContinuation (k : Continuation) (prologueCount : Nat) (native : NativeFunction)
      (registered : Bool)
  | lookupContinuation (k : Continuation)
  | attachEntryHandle (key : Word) (handle : Nat) (kind : EntryKind)
      (argumentCount targetIdentity : Nat)
  | invalidate (key : Word)
  | clear

def CodeCache.perform (c : CodeCache) : CacheOp → CodeCache × List CacheEvent
  | .lookup key => ((c.lookup key).1, [])
  | .compile key compiler registered =>
    let (c, events, _) := c.compile key compiler registered
    (c, events)
  | .storeContinuation k prologueCount native registered =>
    let (c, events, _) := c.storeContinuation k prologueCount native registered
    (c, events)
  | .lookupContinuation k => ((c.lookupContinuation k).1, [])
  | .attachEntryHandle key handle kind argumentCount targetIdentity =>
    ((c.attachEntryHandle key handle kind argumentCount targetIdentity).1, [])
  | .invalidate key => c.invalidate key
  | .clear => c.clear

end TurboJS.Runtime
