import TurboJS.Optimizing.Build
import TurboJS.Optimizing.Memory

namespace TurboJS.Optimizing

open IR Foundation

def mergeNumericType (left right : SSAType) : SSAType :=
  if left = .unknown || right = .unknown then .unknown
  else if left = .float64 || right = .float64 then .float64
  else if left = .int64 || right = .int64 then .int64
  else if left = .int32 && right = .int32 then .int32
  else .unknown

/-- The type `TurboJS_SSAInferTypes` reads off one value. -/
def inferredType (g : Graph) (v : Value) : SSAType :=
  match v.opcode with
  | .constantI64 => if fitsInt32 v.immediate then .int32 else .int64
  | .lessThanI64 | .lessEqualI64 | .greaterThanI64 | .greaterEqualI64 | .equalI64
  | .branchTrue | .branchFalse => .boolean
  | .guardInt32 => .int32
  | .virtualObject | .virtualFieldStore => .reference
  | .addI64 | .subI64 | .mulI64 | .andI64 | .orI64 | .xorI64 | .shlI64 | .sarI64 | .shrI64 =>
    if v.left < g.valueCount && v.right < g.valueCount then
      mergeNumericType (g.value v.left).type (g.value v.right).type
    else v.type
  | .phi =>
    if v.left < g.valueCount && v.right < g.valueCount then
      let l := (g.value v.left).type
      let r := (g.value v.right).type
      if l = r then l else mergeNumericType l r
    else v.type
  | _ => v.type

def inferValue (i : Nat) (g : Graph) : Graph :=
  let v := g.value i
  let inferred := inferredType g v
  if v.removed || inferred = .unknown || inferred = v.type then g
  else g.setValue i fun v => { v with type := inferred }

/-- `TurboJS_SSAInferTypes`; `none` when `fuel` rounds do not settle the types. -/
def ssaInferTypes : Nat → Graph → Option Graph
  | 0, _ => none
  | fuel + 1, g =>
    let next := forUp g.valueCount inferValue g
    if next = g then some g else ssaInferTypes fuel next

def isConst (v : Value) : Bool := v.opcode = .constantI64 && !v.removed

def checked (result : Int) (wrapped : Word) : Option Word :=
  if wrapped.toInt = result then some wrapped else none

def foldBinary (op : SSAOpcode) (l r : Word) : Option Word :=
  match op with
  | .lessThanI64 => some (ofBool (l.slt r))
  | .lessEqualI64 => some (ofBool (l.sle r))
  | .greaterThanI64 => some (ofBool (r.slt l))
  | .greaterEqualI64 => some (ofBool (r.sle l))
  | .equalI64 => some (ofBool (l == r))
  | .addI64 => checked (l.toInt + r.toInt) (l + r)
  | .subI64 => checked (l.toInt - r.toInt) (l - r)
  | .mulI64 => checked (l.toInt * r.toInt) (l * r)
  | .andI64 => some (l &&& r)
  | .orI64 => some (l ||| r)
  | .xorI64 => some (l ^^^ r)
  | .shlI64 => some (l <<< (r.toNat % 64))
  | .sarI64 => some (l.sshiftRight (r.toNat % 64))
  | .shrI64 => some (l >>> (r.toNat % 64))
  | _ => none

def foldedConstant (g : Graph) (v : Value) : Option Word :=
  if v.left < g.valueCount && v.right < g.valueCount && isConst (g.value v.left) &&
      isConst (g.value v.right) then
    foldBinary v.opcode (g.value v.left).immediate (g.value v.right).immediate
  else none

def foldValue (i : Nat) (g : Graph) : Graph :=
  let v := g.value i
  match foldedConstant g v with
  | none => g
  | some folded =>
    let g := (g.setValue v.left dropUse).setValue v.right dropUse
    g.setValue i fun v =>
      { v with opcode := .constantI64, immediate := folded, left := noValue, right := noValue }

def chosenSuccessor (g : Graph) (v : Value) : Option Nat :=
  if (v.opcode = .branchTrue || v.opcode = .branchFalse) && v.left < g.valueCount &&
      isConst (g.value v.left) && v.block < g.blockCount then
    let nonzero := (g.value v.left).immediate != 0
    let take := if v.opcode = .branchFalse then !nonzero else nonzero
    let chosen := if take then v.immediate.toNat % 4294967296
      else (g.block v.block).successors.getD 1 noBlock
    if chosen < g.blockCount then some chosen else none
  else none

def foldBranch (i : Nat) (g : Graph) : Graph :=
  let v := g.value i
  match chosenSuccessor g v with
  | none => g
  | some chosen =>
    let g := (g.setValue v.left dropUse).setValue i fun v =>
      { v with opcode := .jump, left := noValue, right := noValue
               immediate := BitVec.ofNat 64 chosen }
    g.setBlock v.block fun b => { b with successors := [chosen] }

/-- The folding loop of `TurboJS_SSAOptimize`. -/
def foldConstants (g : Graph) : Graph :=
  forUp g.valueCount (fun i g =>
    if (g.value i).removed then g else foldBranch i (foldValue i g)) g

def cseCandidate (v : Value) : Bool :=
  match v.opcode with
  | .constantI64 | .addI64 | .subI64 | .mulI64 | .andI64 | .orI64 | .xorI64
  | .shlI64 | .sarI64 | .shrI64
  | .lessThanI64 | .lessEqualI64 | .greaterThanI64 | .greaterEqualI64 | .equalI64 => true
  | _ => false

def sameExpression (a b : Value) : Bool :=
  a.opcode = b.opcode && a.type = b.type && a.left == b.left && a.right == b.right &&
  a.immediate == b.immediate && a.block == b.block

/-- The shape of the three passes that look for an earlier value to stand for value `i`:
the first match takes over its uses. -/
def reuseEarlier (candidate : Value → Bool) (same : Value → Value → Bool) (g : Graph) : Graph :=
  forUp g.valueCount (fun i g =>
    if (g.value i).removed || !candidate (g.value i) then g
    else
      match searchUp i fun j =>
        if !(g.value j).removed && candidate (g.value j) && same (g.value j) (g.value i)
        then some j else none with
      | none => g
      | some j => (replaceValueUses g i j).setValue i remove) g

def eliminateLocalCommonExpressions (g : Graph) : Graph :=
  reuseEarlier cseCandidate sameExpression g

def eliminateRedundantGuards (g : Graph) : Graph :=
  reuseEarlier (fun v => v.opcode = .guardInt32)
    (fun prior guard => prior.block == guard.block && prior.left == guard.left) g

def removableValue (v : Value) : Bool :=
  match v.opcode with
  | .ret | .argument | .jump | .branchTrue | .branchFalse | .guardInt32
  | .propertyStore | .elementStore => false
  | _ => true

def isDead (v : Value) : Bool := !v.removed && v.useCount == 0 && removableValue v

def releaseInput (input : Nat) (s : Graph × List Nat) : Graph × List Nat :=
  if input < s.1.valueCount && (s.1.value input).useCount != 0 then
    let g := s.1.setValue input dropUse
    (g, if isDead (g.value input) then input :: s.2 else s.2)
  else s

/-- The dead-value worklist, used as a stack; the head is its top. Every visit that goes
on marks one more value as removed and pushes at most two, which bounds the visits. -/
def sweepDead : Nat → Graph → List Nat → Graph
  | 0, g, _ => g
  | _ + 1, g, [] => g
  | fuel + 1, g, i :: work =>
    let v := g.value i
    if !isDead v then sweepDead fuel g work
    else
      let s := releaseInput v.right (releaseInput v.left (g.setValue i remove, work))
      sweepDead fuel s.1 s.2

/-- The dead-value elimination of `TurboJS_SSAOptimize`. -/
def eliminateDeadValues (g : Graph) : Graph :=
  let work := ((List.range g.valueCount).filter fun i => isDead (g.value i)).reverse
  sweepDead (3 * g.valueCount + 1) g work

/-- The reachability step of `TurboJS_SSAOptimize`. -/
def removeUnreachable (g : Graph) : Graph :=
  let g := markReachable g
  { g with blocks := g.blocks.map fun b => if b.reachable then b else { b with removed := true } }

/-- `TurboJS_SSAOptimize`, without its counters; `none` is a loop that does not end
within `fuel`. -/
def ssaOptimize (fuel : Nat) (g : Graph) : Option Graph := do
  let g ← ssaInferTypes fuel g
  let g ← ssaInferTypes fuel (foldConstants g)
  let g := scalarizeVirtualObjectLoads (eliminateLocalCommonExpressions g)
  let g := createPropertyStorePhis (eliminateOverwrittenPropertyStores g)
  let g ← forwardPropertyStoresToLoads g
  let g ← eliminateRedundantPropertyLoads g
  let g := recognizeElementLoopRanges (eliminateRedundantElementLoads g)
  let g := removeUnreachable (eliminateRedundantGuards g)
  some (eliminateDeadValues g)

structure Lowering where
  instructions : List Instruction := []
  registerCount : Nat := 0
  map : Nat → Nat := fun _ => noRegister

/-- Emits an instruction that defines value `id` in a new register. A map entry past the
64 that the C array has is not written, so it is no result of this model. -/
def Lowering.define (s : Lowering) (id : Nat) (insn : Instruction) : Option Lowering :=
  if maxRegisters ≤ s.registerCount || maxRegisters ≤ id then none
  else some
    { instructions := s.instructions ++ [{ insn with destination := s.registerCount }]
      registerCount := s.registerCount + 1
      map := Function.update s.map id s.registerCount }

def Lowering.mapped (s : Lowering) (operand : Nat) : Bool :=
  operand < maxRegisters && s.map operand != noRegister

def loweredOpcode : SSAOpcode → Option Opcode
  | .addI64 => some .addI64
  | .subI64 => some .subI64
  | .mulI64 => some .mulI64
  | .lessThanI64 => some .lessThanI64
  | _ => none

/-- One value of the loop of `lower_graph`. -/
def lowerValue (s : Lowering) (v : Value) : Option Lowering :=
  if v.removed || v.opcode = .nop || v.opcode = .guardInt32 then some s
  else
    match v.opcode with
    | .argument => s.define v.id
        { opcode := .argument, immediate := v.immediate, bytecodeOffset := v.sourceInstruction }
    | .constantI64 => s.define v.id
        { opcode := .constantI64, immediate := v.immediate, bytecodeOffset := v.sourceInstruction }
    | .ret =>
      if !s.mapped v.left then none
      else some { s with instructions := s.instructions ++
        [{ opcode := .returnI64, left := s.map v.left, bytecodeOffset := v.sourceInstruction }] }
    | op =>
      match loweredOpcode op with
      | none => none
      | some opcode =>
        if !s.mapped v.left || !s.mapped v.right then none
        else s.define v.id
          { opcode, left := s.map v.left, right := s.map v.right
            bytecodeOffset := v.sourceInstruction }

/-- `lower_graph`; `none` is any status but OK. -/
def lowerGraph (g : Graph) (argumentCount : Nat) : Option Function :=
  if g.blockCount ≠ 1 then none
  else do
    let s ← g.values.foldlM lowerValue {}
    let out : Function :=
      { instructions := s.instructions, registerCount := s.registerCount
        argumentCount := argumentCount, localCount := 0 }
    if (irVerify out).status = .ok then some out else none

/-- The specialisation step of `TurboJS_OptimizingCompile`, which needs a feedback vector. -/
def specializeWith (feedback : Option FeedbackVector) (g : Graph) : Option Graph :=
  match feedback with
  | none => some g
  | some feedback => ssaSpecializeFromFeedback g feedback

/-- The IR that `TurboJS_OptimizingCompile` hands to the baseline compiler. -/
def optimizingPipeline (fuel : Nat) (f : Function) (feedback : Option FeedbackVector) :
    Option Function := do
  let g ← ssaBuildFromIR fuel f
  let g ← specializeWith feedback g
  let g ← ssaOptimize fuel g
  lowerGraph g f.argumentCount

end TurboJS.Optimizing
