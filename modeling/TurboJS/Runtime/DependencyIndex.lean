import TurboJS.Runtime.BoundedMap
import TurboJS.Foundation.ReverseIndex

namespace TurboJS.Runtime
open IR Foundation

/-! The code cache with the calls between its functions: the call sites of each function, and the
indexes that lead from the target of a call to the functions that make it. -/

/-- The part of a `TurboJSClutchCallSite` that the cache reads and patches. -/
structure LinkedSite where
  target : Option Nat
  expectedGeneration : Nat
  expectedKind : EntryKind
  argumentCount : Nat
  targetIdentity : Nat
  deriving DecidableEq, Repr

/-- The cache, the call sites of the function in each slot, and the two indexes. Their owners
are slots; the targets are handles in the one and the identities of functions in the other. -/
structure LinkedCache where
  cache : CodeCache
  sites : Nat → List LinkedSite
  dependencies : ReverseIndex Nat Nat
  dependencyBucketCount : Nat
  repatches : ReverseIndex Nat Nat
  repatchBucketCount : Nat

def dependencyHash (bucketCount target : Nat) : Nat :=
  let x := BitVec.ofNat 64 target
  let x := x ^^^ (x >>> 33)
  let x := x * 0xff51afd7ed558ccd
  let x := x ^^^ (x >>> 33)
  if bucketCount ≠ 0 then x.toNat &&& (bucketCount - 1) else 0

def identityHash (bucketCount identity : Nat) : Nat :=
  if bucketCount ≠ 0 then (keyHash (BitVec.ofNat 64 identity)).toNat &&& (bucketCount - 1) else 0

def invalidateClutchTarget (target : Nat) (sites : List LinkedSite) : List LinkedSite :=
  sites.map fun site =>
    if site.target = some target then { site with target := none, expectedGeneration := 0 }
    else site

def LinkedSite.repatched (targetIdentity : Nat) (kind : EntryKind) (argumentCount : Nat)
    (site : LinkedSite) : Bool :=
  site.targetIdentity = targetIdentity ∧ site.expectedKind = kind ∧
    site.argumentCount = argumentCount

/-- `TurboJS_NativeRepatchClutchIdentity`, with the number of the sites that it patches. -/
def repatchClutchIdentity (targetIdentity target generation : Nat) (kind : EntryKind)
    (argumentCount : Nat) (sites : List LinkedSite) : List LinkedSite × Nat :=
  (sites.map fun site =>
      if site.repatched targetIdentity kind argumentCount then
        { site with target := some target, expectedGeneration := generation }
      else site,
    sites.countP (LinkedSite.repatched targetIdentity kind argumentCount))

namespace LinkedCache

def unregisterEntryDependencies (l : LinkedCache) (slot : Nat) : LinkedCache :=
  { l with dependencies := l.dependencies.unregister (dependencyHash l.dependencyBucketCount) slot }

def unregisterEntryRepatchDependencies (l : LinkedCache) (slot : Nat) : LinkedCache :=
  { l with repatches := l.repatches.unregister (identityHash l.repatchBucketCount) slot }

def registerEntryRepatchDependencies (l : LinkedCache) (slot : Nat) : LinkedCache :=
  { l with
    repatches := l.repatches.register (identityHash l.repatchBucketCount) slot
      (((l.sites slot).map (·.targetIdentity)).filter (· ≠ 0)) }

/-- `register_entry_dependencies`, when the allocations succeed. -/
def registerEntryDependencies (l : LinkedCache) (slot : Nat) : LinkedCache :=
  registerEntryRepatchDependencies
    { l with
      dependencies := l.dependencies.register (dependencyHash l.dependencyBucketCount) slot
        ((l.sites slot).filterMap (·.target)) } slot

/-- One node of the bucket in `invalidate_indexed_dependents`. -/
def invalidateNode (c : CodeCache) (target : Nat) (sites : Nat → List LinkedSite)
    (node : IndexNode Nat Nat) : Nat → List LinkedSite :=
  if node.key = target ∧ (c.entries node.owner).state = .live then
    Function.update sites node.owner (invalidateClutchTarget target (sites node.owner))
  else sites

def invalidateIndexedDependents (l : LinkedCache) (target : Nat) : LinkedCache :=
  { l with
    sites := (l.dependencies.buckets (dependencyHash l.dependencyBucketCount target)).foldl
      (invalidateNode l.cache target) l.sites }

/-- The call sites and the indexes at the point of `remove_slot` where it destroys the
function. -/
def detach (l : LinkedCache) (slot : Nat) : LinkedCache :=
  let entry : CacheEntry := l.cache.entries slot
  let invalidated : LinkedCache := match entry.entryHandle with
    | some h =>
      if entry.cacheKind = .function ∧ (l.cache.handles h).function = entry.function.map (·.id) then
        l.invalidateIndexedDependents h
      else l
    | none => l
  (invalidated.unregisterEntryDependencies slot).unregisterEntryRepatchDependencies slot

def removeSlot (l : LinkedCache) (slot : Nat) : LinkedCache :=
  if (l.cache.entries slot).state ≠ .live then l
  else
    { l.detach slot with
      cache := (l.cache.removeSlot slot).1
      sites := Function.update (l.detach slot).sites slot [] }

def evictLru (l : LinkedCache) : Option LinkedCache := l.cache.victim.map l.removeSlot

def makeRoomFrom (codeSize : Nat) : Nat → LinkedCache → LinkedCache
  | 0, l => l
  | fuel + 1, l =>
    if l.cache.count ≠ 0 ∧ l.cache.full codeSize then
      match l.evictLru with
      | none => l
      | some l => makeRoomFrom codeSize fuel l
    else l

def makeRoom (l : LinkedCache) (codeSize : Nat) : LinkedCache :=
  makeRoomFrom codeSize l.cache.count l

def insert (l : LinkedCache) (slot : Nat) (entry : CacheEntry) (sites : List LinkedSite) :
    LinkedCache :=
  registerEntryDependencies
    { l with
      cache := (l.cache.insert slot entry true).1
      sites := Function.update l.sites slot sites } slot

/-- `TurboJS_CodeCacheCompile`, when the allocations succeed; `sites` are those of the compiled
function. -/
def compile (l : LinkedCache) (key : Word) (compiler : Compiler) (sites : List LinkedSite) :
    LinkedCache :=
  if key = 0 then l
  else
    match l.cache.findLive key with
    | some slot => { l with cache := l.cache.touchEntry slot }
    | none =>
      match compiler.result with
      | .error _ => l
      | .ok native =>
        if native.codeSize > l.cache.maximumCodeBytes then l
        else
          let l := l.makeRoom native.codeSize
          if l.cache.full native.codeSize then l
          else
            match l.cache.findSlot key true with
            | none => l
            | some slot =>
              let l := l.insert slot
                (functionEntry l.cache (l.cache.entries slot) key native) sites
              { l with cache := { l.cache with lastKey := key, lastFunction := some native } }

/-- `TurboJS_CodeCacheStoreContinuation`, when the allocations succeed. -/
def storeContinuation (l : LinkedCache) (k : Continuation) (prologueCount : Nat)
    (native : NativeFunction) (sites : List LinkedSite) : LinkedCache :=
  if k.functionId = 0 then l
  else
    match l.cache.findContinuation k with
    | some slot => { l with cache := l.cache.touchEntry slot }
    | none =>
      if native.codeSize > l.cache.maximumCodeBytes then l
      else
        let l := l.makeRoom native.codeSize
        if l.cache.full native.codeSize then l
        else
          match l.cache.firstFree with
          | none => l
          | some slot =>
            l.insert slot
              (continuationEntry l.cache (l.cache.entries slot) k prologueCount native) sites

/-- One owner in `repatch_identity_dependents`. -/
def repatchOwner (targetIdentity handle : Nat) (kind : EntryKind) (argumentCount : Nat)
    (l : LinkedCache) (owner : Nat) : LinkedCache :=
  let (sites, patched) := repatchClutchIdentity targetIdentity handle
    (l.cache.handles handle).generation kind argumentCount (l.sites owner)
  if patched ≠ 0 then
    registerEntryDependencies { l with sites := Function.update l.sites owner sites } owner
  else l

/-- `repatch_identity_dependents`: the owners are collected first. -/
def repatchIdentityDependents (l : LinkedCache) (targetIdentity handle : Nat) (kind : EntryKind)
    (argumentCount : Nat) : LinkedCache :=
  if targetIdentity = 0 then l
  else
    let bucket := l.repatches.buckets (identityHash l.repatchBucketCount targetIdentity)
    let owners := (bucket.filter fun node => node.key = targetIdentity ∧
      (l.cache.entries node.owner).state = .live ∧
      (l.cache.entries node.owner).function.isSome).map (·.owner)
    owners.foldl (repatchOwner targetIdentity handle kind argumentCount) l

def attachEntryHandle (l : LinkedCache) (key : Word) (handle : Nat) (kind : EntryKind)
    (argumentCount targetIdentity : Nat) : LinkedCache :=
  let (cache, status) := l.cache.attachEntryHandle key handle kind argumentCount targetIdentity
  if status = .ok then
    repatchIdentityDependents { l with cache := cache } targetIdentity handle kind argumentCount
  else l

def invalidate (l : LinkedCache) (key : Word) : LinkedCache :=
  if key = 0 then l
  else
    match l.cache.findSlot key false with
    | some slot => l.removeSlot slot
    | none => l

/-- `TurboJS_CodeCacheClear`: all entries with the lists that they own, and the buckets of the
dependencies, are set to zero; the buckets of the other index are not. -/
def clear (l : LinkedCache) : LinkedCache :=
  let l' := forUp l.cache.slotCount (fun i l => l.removeSlot i) l
  { l' with
    cache := l.cache.clear.1
    sites := fun _ => []
    dependencies := { l'.dependencies with buckets := fun _ => [], owned := fun _ => [] }
    repatches := { l'.repatches with owned := fun _ => [] } }

inductive Op where
  | lookup (key : Word)
  | compile (key : Word) (compiler : Compiler) (sites : List LinkedSite)
  | storeContinuation (k : Continuation) (prologueCount : Nat) (native : NativeFunction)
      (sites : List LinkedSite)
  | lookupContinuation (k : Continuation)
  | attachEntryHandle (key : Word) (handle : Nat) (kind : EntryKind)
      (argumentCount targetIdentity : Nat)
  | removeSlot (slot : Nat)
  | invalidate (key : Word)
  | clear

def perform (l : LinkedCache) : Op → LinkedCache
  | .lookup key => { l with cache := (l.cache.lookup key).1 }
  | .compile key compiler sites => l.compile key compiler sites
  | .storeContinuation k prologueCount native sites =>
    l.storeContinuation k prologueCount native sites
  | .lookupContinuation k => { l with cache := (l.cache.lookupContinuation k).1 }
  | .attachEntryHandle key handle kind argumentCount targetIdentity =>
    l.attachEntryHandle key handle kind argumentCount targetIdentity
  | .removeSlot slot => if slot < l.cache.slotCount then l.removeSlot slot else l
  | .invalidate key => l.invalidate key
  | .clear => l.clear

def create (maximumEntries maximumCodeBytes : Nat) : Option LinkedCache :=
  (CodeCache.create maximumEntries maximumCodeBytes).map fun c =>
    ⟨c, fun _ => [], .empty, c.slotCount, .empty, c.slotCount⟩

def run (l : LinkedCache) (ops : List Op) : LinkedCache := ops.foldl perform l

end LinkedCache

end TurboJS.Runtime
