import TurboJS.IR.Tagged
import TurboJS.StackMaps.Maps

namespace TurboJS.Runtime
open IR StackMaps Foundation

/-! Who retains the environments of closures, and who releases them. -/

/-- `TurboJSRootingHooks`: what is passed to the callbacks, and which of them are there. -/
structure RootingHooks where
  context : Nat := 0
  retain : Bool := false
  release : Bool := false
  deriving DecidableEq, Repr

structure Root where
  rooting : RootingHooks
  pointer : Word
  deriving DecidableEq, Repr

inductive RootEvent where
  | retained (root : Root)
  | released (root : Root)
  deriving DecidableEq, Repr

structure ClosureOwner where
  closureEnvironment : Word := 0
  environmentRooting : RootingHooks := {}
  ownsEnvironment : Bool := false
  deriving DecidableEq, Repr

def ClosureOwner.root (o : ClosureOwner) : Option Root :=
  if o.ownsEnvironment && o.closureEnvironment != 0 && o.environmentRooting.release then
    some ⟨o.environmentRooting, o.closureEnvironment⟩
  else none

/-- `TurboJS_CallableReferenceDestroy` and `TurboJS_ClutchCallSiteDestroy`. -/
def ClosureOwner.destroy (o : ClosureOwner) : ClosureOwner × List RootEvent :=
  if o.ownsEnvironment && o.closureEnvironment != 0 && o.environmentRooting.release then
    ({}, [.released ⟨o.environmentRooting, o.closureEnvironment⟩])
  else ({}, [])

/-- `TurboJS_CallableReferenceInitRooted`. `answer` is what retain returns. -/
def callableReferenceInitRooted (reference : ClosureOwner) (closureEnvironment : Word)
    (rooting : Option RootingHooks) (answer : Word) : Status × ClosureOwner × List RootEvent :=
  match rooting with
  | none => (.invalidArgument, reference, [])
  | some rooting =>
    if !rooting.retain || !rooting.release then (.invalidArgument, reference, [])
    else if closureEnvironment ≠ 0 then
      if answer = 0 then (.outOfMemory, {}, [])
      else (.ok, ⟨answer, rooting, true⟩, [.retained ⟨rooting, answer⟩])
    else (.ok, ⟨0, rooting, false⟩, [])

def setClosureEnvironment (site : ClosureOwner) (closureEnvironment : Word)
    (rooting : Option RootingHooks) (answer : Word) : Status × ClosureOwner × List RootEvent :=
  let (site, released) := site.destroy
  match rooting with
  | some rooting =>
    if closureEnvironment ≠ 0 then
      if !rooting.retain || !rooting.release then (.invalidArgument, site, released)
      else if answer = 0 then (.outOfMemory, site, released)
      else (.ok, ⟨answer, rooting, true⟩, released ++
        ([.retained ⟨rooting, answer⟩] : List RootEvent))
    else (.ok, { site with closureEnvironment := 0 }, released)
  | none => (.ok, { site with closureEnvironment }, released)

/-- `TurboJS_ClutchCallSiteClone` to another call site. -/
def cloneClosure (source : ClosureOwner) (answer : Word) :
    Status × ClosureOwner × List RootEvent :=
  let destination := { source with ownsEnvironment := false, environmentRooting := {} }
  if source.closureEnvironment ≠ 0 ∧ source.ownsEnvironment then
    if answer = 0 then (.outOfMemory, {}, [])
    else
      (.ok, { destination with
          closureEnvironment := answer
          environmentRooting := source.environmentRooting
          ownsEnvironment := true },
        [.retained ⟨source.environmentRooting, answer⟩])
  else (.ok, destination, [])

/-- `TurboJS_ClutchCallSiteClone` of a call site to itself: by the time the source is read, it
owns nothing. -/
def cloneToItself (site : ClosureOwner) : Status × ClosureOwner × List RootEvent :=
  (.ok, { site with ownsEnvironment := false, environmentRooting := {} }, [])

def unionBits : BoxedValue → Word
  | .undefined => 0
  | .int32 w | .int64 w | .boolean w | .float64 w | .heapReference w | .callableReference w => w

/-- `box_value`: the value, whether it is rooted, and the retain. -/
def boxRooted (value : Word) (kind : ValueKind) (rooting : Option RootingHooks) (answer : Word) :
    BoxedValue × Bool × List RootEvent :=
  match kind with
  | .i32 => (.int32 ((value.setWidth 32).signExtend 64), false, [])
  | .boolean => (.boolean (ofBool (value != 0)), false, [])
  | .i64 => (.int64 value, false, [])
  | .f64 => (.float64 value, false, [])
  | .callableReference => (.callableReference value, false, [])
  | .heapReference =>
    if value = 0 then (.heapReference 0, false, [])
    else
      match rooting with
      | some rooting =>
        if rooting.retain && rooting.release then
          if answer = 0 then (.undefined, false, [])
          else (.heapReference answer, true, [.retained ⟨rooting, answer⟩])
        else (.undefined, false, [])
      | none => (.undefined, false, [])
  | .unknown => (.undefined, false, [])

/-- One of the two arrays of a native frame: its values with their kinds, and which of them are
materialized. -/
structure NativeSlots where
  count : Nat
  materialized : Word
  values : Nat → Word
  kinds : Nat → ValueKind

structure BoxedSlots where
  values : List BoxedValue := []
  referenceMask : Word := 0
  deriving DecidableEq, Repr

/-- `TurboJSBoxedDeoptFrame`, as far as it holds roots. -/
structure BoxedDeoptFrame where
  registers : BoxedSlots := {}
  locals : BoxedSlots := {}
  rooting : RootingHooks := {}
  deriving DecidableEq, Repr

def slotBit (i : Nat) : Word := (1 : Word) <<< i

/-- The loop over an array of `TurboJS_BoxDeoptFrameRooted`, from slot `i` on. -/
def boxFrom (slots : NativeSlots) (rooting : Option RootingHooks) (answers : Nat → Word) :
    Nat → Nat → BoxedSlots × List RootEvent → BoxedSlots × List RootEvent
  | 0, _, r => r
  | left + 1, i, (boxed, events) =>
    if slots.materialized &&& slotBit i ≠ 0 then
      let (value, rooted, retained) :=
        boxRooted (slots.values i) (slots.kinds i) rooting (answers i)
      let referenceMask :=
        if rooted then boxed.referenceMask ||| slotBit i else boxed.referenceMask
      boxFrom slots rooting answers left (i + 1)
        (⟨boxed.values.set i value, referenceMask⟩, events ++ retained)
    else boxFrom slots rooting answers left (i + 1) (boxed, events)

/-- The roots of the slots of an array from slot `i` on. -/
def rootsFrom (rooting : RootingHooks) (referenceMask : Word) : List BoxedValue → Nat → List Root
  | [], _ => []
  | v :: rest, i =>
    if referenceMask &&& slotBit i ≠ 0 then
      ⟨rooting, unionBits v⟩ :: rootsFrom rooting referenceMask rest (i + 1)
    else rootsFrom rooting referenceMask rest (i + 1)

def BoxedDeoptFrame.roots (frame : BoxedDeoptFrame) : List Root :=
  if frame.rooting.release then
    rootsFrom frame.rooting frame.registers.referenceMask frame.registers.values 0 ++
      rootsFrom frame.rooting frame.locals.referenceMask frame.locals.values 0
  else []

def BoxedDeoptFrame.destroy (frame : BoxedDeoptFrame) : BoxedDeoptFrame × List RootEvent :=
  ({}, frame.roots.map .released)

/-- `TurboJS_BoxDeoptFrameRooted`; `none` if a slot beyond the 64 bits of a mask is boxed, where
the shift of C has no result. `allocated` says whether the arrays are allocated. -/
def boxDeoptFrameRooted (frame : BoxedDeoptFrame) (registers locals : NativeSlots)
    (rooting : Option RootingHooks) (registerAnswers localAnswers : Nat → Word)
    (allocated : Bool) : Option (Status × BoxedDeoptFrame × List RootEvent) :=
  if rooting.any fun r => r.retain != r.release then some (.invalidArgument, frame, [])
  else
    let empty (slots : NativeSlots) : BoxedSlots :=
      { values := List.replicate slots.count .undefined }
    let boxed : BoxedDeoptFrame := { rooting := rooting.getD {} }
    if !allocated then
      let (boxed, events) := boxed.destroy
      some (.outOfMemory, boxed, events)
    else if 64 < registers.count ∨ 64 < locals.count then none
    else
      let (boxedRegisters, events) :=
        boxFrom registers rooting registerAnswers registers.count 0 (empty registers, [])
      let (boxedLocals, events) :=
        boxFrom locals rooting localAnswers locals.count 0 (empty locals, events)
      some (.ok, { boxed with registers := boxedRegisters, locals := boxedLocals }, events)

inductive OwnerKind where
  | callSite
  | callableReference
  deriving DecidableEq, Repr

structure OwnerCell where
  kind : OwnerKind
  function : Option Nat := none
  owner : ClosureOwner := {}
  deriving DecidableEq, Repr

/-- The owners of a program by their addresses. A freed one is `none`. -/
structure RootState where
  cells : List (Option OwnerCell) := []
  frames : List BoxedDeoptFrame := []
  deriving DecidableEq, Repr

/-- What a program does with owners. An address at which there is no owner of the kind stands for
the null pointer. -/
inductive RootOp where
  /-- A call site or a callable reference, zeroed: a variable, or allocated for a function. -/
  | allocate (kind : OwnerKind) (function : Option Nat)
  | initReference (i : Nat) (closureEnvironment : Word) (rooting : Option RootingHooks)
      (answer : Word)
  | destroyReference (i : Nat)
  | setEnvironment (i : Nat) (closureEnvironment : Word) (rooting : Option RootingHooks)
      (answer : Word)
  | cloneSite (destination source : Nat) (answer : Word)
  | destroySite (i : Nat)
  /-- The calls of the wrapper, each with its callable reference and what retain answers, and
  whether the rest of the pass succeeds. -/
  | specialize (output : Nat) (calls : List (Nat × Word)) (succeeds : Bool)
  | destroyFunction (function : Nat)
  | allocateFrame
  | boxFrame (i : Nat) (registers locals : NativeSlots) (rooting : Option RootingHooks)
      (registerAnswers localAnswers : Nat → Word) (allocated : Bool)
  | destroyFrame (i : Nat)

def cellAt (cells : List (Option OwnerCell)) (kind : OwnerKind) (i : Nat) : Option OwnerCell :=
  cells[i]?.join.filter fun c => c.kind == kind

def RootState.onOwner (s : RootState) (kind : OwnerKind) (i : Nat)
    (f : ClosureOwner → ClosureOwner × List RootEvent) : RootState × List RootEvent :=
  match cellAt s.cells kind i with
  | none => (s, [])
  | some c =>
    let (owner, events) := f c.owner
    ({ s with cells := s.cells.set i (some { c with owner }) }, events)

/-- One of the two loops of `TurboJS_IRFunctionDestroy`. -/
def destroyOwned (function : Nat) (kind : OwnerKind) :
    List (Option OwnerCell) → List (Option OwnerCell) × List RootEvent
  | [] => ([], [])
  | none :: rest =>
    let (rest, events) := destroyOwned function kind rest
    (none :: rest, events)
  | some c :: rest =>
    let (rest, events) := destroyOwned function kind rest
    if c.function = some function ∧ c.kind = kind then
      (none :: rest, c.owner.destroy.2 ++ events)
    else (some c :: rest, events)

def functionDestroy (function : Nat) (cells : List (Option OwnerCell)) :
    List (Option OwnerCell) × List RootEvent :=
  let (cells, sites) := destroyOwned function .callSite cells
  let (cells, references) := destroyOwned function .callableReference cells
  (cells, sites ++ references)

/-- `TurboJS_IRFunctionInit` forgets what the function owned. -/
def forgetOwned (function : Nat) (cells : List (Option OwnerCell)) : List (Option OwnerCell) :=
  cells.map fun cell => cell.map fun c =>
    if c.function = some function then { c with function := none } else c

def specializedSite (reference : ClosureOwner) (answer : Word) :
    Status × ClosureOwner × List RootEvent :=
  if reference.closureEnvironment ≠ 0 then
    setClosureEnvironment {} reference.closureEnvironment
      (if reference.ownsEnvironment then some reference.environmentRooting else none) answer
  else (.ok, {}, [])

/-- The calls in `TurboJS_IRSpecializeCallableReferences`, up to the first that fails. -/
def specializeCalls (output : Nat) :
    List (Nat × Word) → List (Option OwnerCell) → Bool × List (Option OwnerCell) × List RootEvent
  | [], cells => (true, cells, [])
  | (i, answer) :: rest, cells =>
    match cellAt cells .callableReference i with
    | none => (false, cells, [])
    | some reference =>
      let (status, site, events) := specializedSite reference.owner answer
      let cells := cells ++ [some ⟨.callSite, some output, site⟩]
      if status = .ok then
        let (succeeded, cells, rest) := specializeCalls output rest cells
        (succeeded, cells, events ++ rest)
      else (false, cells, events)

/-- `TurboJS_IRSpecializeCallableReferences`. -/
def specializeReferences (cells : List (Option OwnerCell)) (output : Nat)
    (calls : List (Nat × Word)) (succeeds : Bool) : List (Option OwnerCell) × List RootEvent :=
  let (succeeded, cells, events) := specializeCalls output calls (forgetOwned output cells)
  if succeeded && succeeds then (cells, events)
  else
    let (cells, released) := functionDestroy output cells
    (cells, events ++ released)

def RootState.step (s : RootState) : RootOp → Option (RootState × List RootEvent)
  | .allocate kind function =>
    some ({ s with cells := s.cells ++ [some { kind, function }] }, [])
  | .initReference i environment rooting answer =>
    some (s.onOwner .callableReference i fun o =>
      (callableReferenceInitRooted o environment rooting answer).2)
  | .destroyReference i => some (s.onOwner .callableReference i ClosureOwner.destroy)
  | .setEnvironment i environment rooting answer =>
    some (s.onOwner .callSite i fun o => (setClosureEnvironment o environment rooting answer).2)
  | .cloneSite destination source answer =>
    match cellAt s.cells .callSite source with
    | none => some (s, [])
    | some c =>
      some (s.onOwner .callSite destination fun o =>
        if destination = source then (cloneToItself o).2 else (cloneClosure c.owner answer).2)
  | .destroySite i => some (s.onOwner .callSite i ClosureOwner.destroy)
  | .specialize output calls succeeds =>
    let (cells, events) := specializeReferences s.cells output calls succeeds
    some ({ s with cells }, events)
  | .destroyFunction function =>
    let (cells, events) := functionDestroy function s.cells
    some ({ s with cells }, events)
  | .allocateFrame => some ({ s with frames := s.frames ++ [{}] }, [])
  | .boxFrame i registers locals rooting registerAnswers localAnswers allocated =>
    match s.frames[i]? with
    | none => some (s, [])
    | some frame =>
      (boxDeoptFrameRooted frame registers locals rooting registerAnswers localAnswers
        allocated).map fun (_, frame, events) =>
          ({ s with frames := s.frames.set i frame }, events)
  | .destroyFrame i =>
    match s.frames[i]? with
    | none => some (s, [])
    | some frame =>
      let (frame, events) := frame.destroy
      some ({ s with frames := s.frames.set i frame }, events)

structure RootRun where
  state : RootState := {}
  log : List RootEvent := []

def RootRun.step (r : RootRun) (op : RootOp) : RootRun :=
  match r.state.step op with
  | some (state, events) => ⟨state, r.log ++ events⟩
  | none => r

end TurboJS.Runtime
