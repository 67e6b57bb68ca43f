import TurboJS.Optimizing.Graph

namespace TurboJS.Optimizing

open IR Foundation

def feedbackLoad : Nat := 1
def feedbackStore : Nat := 2
def feedbackWritable : Nat := 4
def feedbackOwnData : Nat := 8

def hasFlag (flags bit : Nat) : Bool := flags &&& bit != 0

def samePropertyCases (a b : Value) : Bool :=
  a.metadata == b.metadata && a.propertyCases == b.propertyCases

def samePropertySlotIdentity (a b : Value) : Bool :=
  a.propertyCases.length == b.propertyCases.length && a.metadata == b.metadata &&
  (a.propertyCases.zip b.propertyCases).all fun (x, y) =>
    x.shape == y.shape && x.index == y.index && x.generation == y.generation

/-- `same_property_location`, of a store and a load. -/
def samePropertyLocation (a b : Value) : Bool :=
  samePropertySlotIdentity a b &&
  (a.propertyCases.zip b.propertyCases).all fun (x, y) =>
    hasFlag x.flags feedbackWritable && hasFlag y.flags feedbackLoad

def propertyAliasClassKnown (v : Value) : Bool := v.metadata != 0 && v.propertyCases != []

def propertyStoreMayAlias (store load : Value) : Bool :=
  if store.opcode ≠ .propertyStore then false
  else if propertyAliasClassKnown store && propertyAliasClassKnown load &&
      store.metadata != load.metadata then false
  else if store.left = load.left then true
  else if store.propertyCases = [] || load.propertyCases = [] then true
  else store.propertyCases.any fun x => load.propertyCases.any fun y => x.shape == y.shape

/-- The walk of `block_dominates` up the dominator tree. A walk that has not ended after
as many steps as there are blocks is on a cycle and never ends. -/
def dominatesFrom (g : Graph) (dominator : Nat) : Nat → Nat → Option Bool
  | 0, _ => none
  | fuel + 1, cursor =>
    if cursor = noBlock then some false
    else if cursor = dominator then some true
    else dominatesFrom g dominator fuel (g.block cursor).immediateDominator

def blockDominates (g : Graph) (dominator block : Nat) : Option Bool :=
  if g.blockCount ≤ dominator || g.blockCount ≤ block then some false
  else dominatesFrom g dominator (g.blockCount + 2) block

/-- The values with ids from `first` up to but not including `last`. -/
def idRange (first last : Nat) : List Nat := (List.range last).drop first

def noAliasingStore (g : Graph) (load : Nat) (ids : List Nat) : Bool :=
  !ids.any fun i => !(g.value i).removed && i ≠ load && (g.value i).opcode = .propertyStore &&
    propertyStoreMayAlias (g.value i) (g.value load)

def blockEnd (g : Graph) (b : Nat) : Nat :=
  min ((g.block b).firstValue + (g.block b).valueCount) g.valueCount

def propertyBlockPrefixClear (g : Graph) (b load stop : Nat) : Bool :=
  b < g.blockCount &&
  noAliasingStore g load (idRange (g.block b).firstValue (min stop (blockEnd g b)))

/-- The walk of `property_unique_path_clear` along single predecessors, with the same
account of a walk that never ends. -/
def uniquePathFrom (g : Graph) (prior load : Nat) : Nat → Nat → Option Bool
  | 0, _ => none
  | fuel + 1, cursor =>
    if cursor = prior then some true
    else if g.blockCount ≤ cursor then some false
    else
      match (g.block cursor).predecessors with
      | [pred] =>
        let last := if cursor = (g.value load).block then min (g.value load).id (blockEnd g cursor)
          else blockEnd g cursor
        if noAliasingStore g load (idRange (g.block cursor).firstValue last) then
          uniquePathFrom g prior load fuel pred
        else some false
      | _ => some false

def propertyUniquePathClear (g : Graph) (prior loadBlock load : Nat) : Option Bool :=
  uniquePathFrom g prior load (g.blockCount + 2) loadBlock

structure PathSearch where
  visiting : List Nat := []
  memo : List (Nat × Bool) := []

/-- `property_all_paths_clear_rec`. A block is entered only when it is not being visited,
so a nesting of more than the number of blocks does not occur. -/
def allPathsClearRec (g : Graph) (prior load : Nat) : Nat → Nat → PathSearch → Bool × PathSearch
  | 0, _, s => (false, s)
  | fuel + 1, cursor, s =>
    if cursor = prior then (true, s)
    else if g.blockCount ≤ cursor then (false, s)
    else match s.memo.lookup cursor with
      | some answer => (answer, s)
      | none =>
        if s.visiting.contains cursor then (false, s)
        else
          let stop := if cursor = (g.value load).block then (g.value load).id else noValue
          let preds := (g.block cursor).predecessors
          if !propertyBlockPrefixClear g cursor load stop || preds = [] then
            (false, { s with memo := (cursor, false) :: s.memo })
          else
            let step := fun (r : Bool × PathSearch) pred =>
              if r.1 then allPathsClearRec g prior load fuel pred r.2 else r
            let (answer, t) :=
              preds.foldl step (true, { s with visiting := cursor :: s.visiting })
            (answer, { visiting := t.visiting.erase cursor, memo := (cursor, answer) :: t.memo })

def propertyAllPathsClear (g : Graph) (prior load : Nat) : Bool :=
  prior < g.blockCount && (g.value load).block < g.blockCount &&
  (allPathsClearRec g prior load (g.blockCount + 1) (g.value load).block {}).1

def propertyLoopStoreFree (g : Graph) (header load : Nat) : Bool :=
  header < g.blockCount &&
  (List.range g.blockCount).all fun b =>
    (b ≠ header && (g.block b).loopHeader ≠ header) ||
    noAliasingStore g load (idRange (g.block b).firstValue (blockEnd g b))

/-- The backward scan of `property_find_reaching_store`. -/
def reachingStoreIn (g : Graph) (load : Value) : List Nat → Option Nat
  | [] => none
  | i :: rest =>
    let c := g.value i
    if c.removed then reachingStoreIn g load rest
    else if c.opcode = .phi && c.propertyCases != [] && c.propertyStateReceiver == load.left &&
        samePropertySlotIdentity c load then some c.id
    else if c.opcode ≠ .propertyStore then reachingStoreIn g load rest
    else if c.left = load.left && c.right ≠ noValue && samePropertyLocation c load then some c.right
    else if propertyStoreMayAlias c load then none
    else reachingStoreIn g load rest

def propertyFindReachingStore (g : Graph) (b : Nat) (load : Value) : Option Nat :=
  if g.blockCount ≤ b then none
  else reachingStoreIn g load (idRange (g.block b).firstValue (blockEnd g b)).reverse

def isPropertyLoad (v : Value) : Bool :=
  !v.removed && v.opcode = .propertyLoad && v.propertyCases != []

def createStorePhi (i : Nat) (g : Graph) : Graph :=
  let load := g.value i
  if !isPropertyLoad load || g.blockCount ≤ load.block then g
  else match (g.block load.block).predecessors with
    | [p, q] =>
      if !propertyBlockPrefixClear g load.block i load.id then g
      else match propertyFindReachingStore g p load, propertyFindReachingStore g q load with
        | some l, some r =>
          if g.valueCount ≤ l || g.valueCount ≤ r then g
          else if l = r then (replaceValueUses g load.id l).setValue i remove
          else
            let lt := (g.value l).type
            let rt := (g.value r).type
            let g := if load.left < g.valueCount then g.setValue load.left dropUse else g
            let g := (g.setValue l addUse).setValue r addUse
            g.setValue i fun v =>
              { v with propertyStateReceiver := v.left, opcode := .phi
                       type := if lt = rt then lt else .unknown, left := l, right := r }
        | _, _ => g
    | _ => g

def createPropertyStorePhis (g : Graph) : Graph := forUp g.valueCount createStorePhi g

def propertyStoreIsPlainWritable (v : Value) : Bool :=
  v.opcode = .propertyStore && v.propertyCases != [] &&
  v.propertyCases.all fun c => hasFlag c.flags feedbackOwnData &&
    hasFlag c.flags feedbackWritable && hasFlag c.flags feedbackStore

def betweenBlocks (store between : Value) : Bool :=
  !between.removed &&
  ((between.opcode = .propertyLoad && propertyStoreMayAlias store between) ||
   (between.opcode = .propertyStore && propertyStoreMayAlias between store &&
    !samePropertyLocation between store))

/-- The forward scan for a store that overwrites store `i`. -/
def isOverwritten (g : Graph) (i : Nat) : List Nat → Bool
  | [] => false
  | j :: rest =>
    let store := g.value i
    let later := g.value j
    if later.removed then isOverwritten g i rest
    else if later.block ≠ store.block then false
    else if later.opcode = .propertyLoad && propertyStoreMayAlias store later then false
    else if later.opcode ≠ .propertyStore then isOverwritten g i rest
    else if later.left = store.left && samePropertySlotIdentity store later &&
        propertyStoreIsPlainWritable later then
      !(idRange (i + 1) j).any fun k => betweenBlocks store (g.value k)
    else if propertyStoreMayAlias later store then false
    else isOverwritten g i rest

def dropIfValue (g : Graph) (i : Nat) : Graph :=
  if i < g.valueCount then g.setValue i dropUse else g

def eliminateOverwrittenPropertyStores (g : Graph) : Graph :=
  forUp g.valueCount (fun i g =>
    let store := g.value i
    if store.removed || !propertyStoreIsPlainWritable store then g
    else if isOverwritten g i (idRange (i + 1) g.valueCount) then
      (dropIfValue (dropIfValue g store.left) store.right).setValue i remove
    else g) g

inductive Scan where
  | skip
  | stop
  | take (id : Nat)

/-- The scan of `for (j = i; j-- > 0;)`; the inner `none` is a scan that found nothing. -/
def scanDown (visit : Nat → Option Scan) : Nat → Option (Option Nat)
  | 0 => some none
  | j + 1 => do
    match ← visit j with
    | .skip => scanDown visit j
    | .stop => some none
    | .take id => some (some id)

def forwardVisit (g : Graph) (i j : Nat) : Option Scan := do
  let load := g.value i
  let store := g.value j
  if store.removed then return .skip
  if store.block ≠ load.block then
    let dominates ← blockDominates g store.block load.block
    if !dominates then return .skip
    let clear ← propertyUniquePathClear g store.block load.block i
    if !clear then return .skip
  if store.opcode ≠ .propertyStore then return .skip
  if store.left ≠ load.left || store.right = noValue || !samePropertyLocation store load then
    return if propertyStoreMayAlias store load then .stop else .skip
  if (idRange (j + 1) i).any fun k => !(g.value k).removed && propertyStoreMayAlias (g.value k) load
  then return .stop
  return .take store.right

def forwardPropertyStoresToLoads (g : Graph) : Option Graph :=
  forUpM g.valueCount (fun i g =>
    if !isPropertyLoad (g.value i) then some g
    else do
      match ← scanDown (forwardVisit g i) i with
      | none => some g
      | some v => some ((replaceValueUses g i v).setValue i remove)) g

def priorPathClear (g : Graph) (i j : Nat) : Option Bool := do
  let load := g.value i
  let prior := g.value j
  let dominates ← blockDominates g prior.block load.block
  if !dominates then return false
  let unique ← propertyUniquePathClear g prior.block load.block i
  if unique then return true
  if propertyAllPathsClear g prior.block i then return true
  let header := (g.block load.block).loopHeader
  if header = noBlock then return false
  let inside ← blockDominates g prior.block header
  return inside && propertyLoopStoreFree g header i

def redundantVisit (g : Graph) (i j : Nat) : Option Scan := do
  let load := g.value i
  let prior := g.value j
  if prior.removed then return .skip
  if prior.block ≠ load.block then
    let clear ← priorPathClear g i j
    if !clear then return .skip
  if prior.opcode = .propertyStore && propertyStoreMayAlias prior load then return .stop
  if prior.opcode ≠ .propertyLoad || prior.left ≠ load.left || !samePropertyCases prior load then
    return .skip
  if (idRange (j + 1) i).any fun k =>
    ((g.value k).block = prior.block || (g.value k).block = load.block) &&
    !(g.value k).removed && propertyStoreMayAlias (g.value k) load
  then return .stop
  return .take j

def eliminateRedundantPropertyLoads (g : Graph) : Option Graph :=
  forUpM g.valueCount (fun i g =>
    if !isPropertyLoad (g.value i) then some g
    else do
      match ← scanDown (redundantVisit g i) i with
      | none => some g
      | some v => some ((replaceValueUses g i v).setValue i remove)) g

def sameElementLoad (prior load : Value) : Bool :=
  prior.block == load.block && prior.left == load.left && prior.right == load.right &&
  prior.elementKind == load.elementKind && prior.elementGeneration == load.elementGeneration &&
  prior.elementFlags == load.elementFlags

def eliminateRedundantElementLoads (g : Graph) : Graph :=
  forUp g.valueCount (fun i g =>
    let load := g.value i
    if load.removed || load.opcode ≠ .elementLoad then g
    else
      match searchUp i fun j =>
        if !(g.value j).removed && (g.value j).opcode = .elementLoad &&
            sameElementLoad (g.value j) load &&
            !(idRange (j + 1) i).any (fun k => !(g.value k).removed &&
              (g.value k).opcode = .elementStore && (g.value k).left == load.left)
        then some j else none with
      | none => g
      | some j => (replaceValueUses g i j).setValue i remove) g

def valueConstI64 (g : Graph) (id : Nat) (expected : Word) : Bool :=
  id < g.valueCount && !(g.value id).removed && (g.value id).opcode = .constantI64 &&
  (g.value id).immediate == expected

/-- `canonical_unit_induction`, with the limit it reports. -/
def canonicalUnitInduction (g : Graph) (id : Nat) : Option Nat :=
  let phi := g.value id
  if g.valueCount ≤ id || phi.removed || phi.opcode ≠ .phi || g.blockCount ≤ phi.block ||
      (g.block phi.block).loopDepth = 0 then none
  else
    let back :=
      if valueConstI64 g phi.left 0 then some phi.right
      else if valueConstI64 g phi.right 0 then some phi.left
      else none
    match back with
    | none => none
    | some back =>
      let update := g.value back
      if g.valueCount ≤ back || update.removed || update.opcode ≠ .addI64 ||
          !((update.left == id && valueConstI64 g update.right 1) ||
            (update.right == id && valueConstI64 g update.left 1)) then none
      else searchUp g.valueCount fun i =>
        let cmp := g.value i
        if cmp.removed || cmp.opcode ≠ .lessThanI64 || cmp.block ≠ phi.block || cmp.left ≠ id
        then none else some cmp.right

/-- `recognize_element_loop_ranges`, as far as it changes the graph. -/
def recognizeElementLoopRanges (g : Graph) : Graph :=
  forUp g.valueCount (fun i g =>
    let v := g.value i
    if v.removed || (v.opcode ≠ .elementLoad && v.opcode ≠ .elementStore) ||
        g.valueCount ≤ v.right then g
    else match canonicalUnitInduction g v.right with
      | none => g
      | some limit =>
        if v.elementLengthValue ≠ noValue && v.elementLengthValue ≠ limit then g
        else g.setValue i fun v =>
          { v with elementLengthValue := limit, elementRangeMin := 0
                   elementRangeMax := 2147483647, elementInductionStep := 1
                   elementBoundsProven := true, elementLengthHoisted := true
                   elementBaseHoisted := true }) g

def virtualField (g : Graph) (field : Nat) : Nat → Nat → Option Nat
  | 0, _ => none
  | fuel + 1, state =>
    let v := g.value state
    if g.valueCount ≤ state || v.removed || v.opcode ≠ .virtualFieldStore then none
    else if v.immediate.toNat % 4294967296 = field then some v.right
    else virtualField g field fuel v.left

/-- `scalarize_virtual_object_loads`; stores refer to earlier values, so the walk ends. -/
def scalarizeVirtualObjectLoads (g : Graph) : Graph :=
  forUp g.valueCount (fun i g =>
    let load := g.value i
    if load.removed || load.opcode ≠ .propertyLoad then g
    else
      match virtualField g (load.immediate.toNat % 4294967296) (g.valueCount + 1) load.left with
      | none => g
      | some replacement =>
        if g.valueCount ≤ replacement then g
        else ((replaceValueUses g i replacement).setValue i remove).setValue replacement addUse) g

end TurboJS.Optimizing
