import TurboJS.Optimizing.Graph

namespace TurboJS.Optimizing

open IR Foundation

def typeFor (op : Opcode) : SSAType := if op = .lessThanI64 then .boolean else .int64

/-- `map_op`. Every opcode without a translation becomes NOP and is dropped. -/
def mapOp : Opcode → SSAOpcode
  | .argument => .argument
  | .constantI64 => .constantI64
  | .addI64 | .addI32Checked => .addI64
  | .subI64 | .subI32Checked => .subI64
  | .mulI64 | .mulI32Checked => .mulI64
  | .lessThanI64 => .lessThanI64
  | .jump => .jump
  | .branchTrue => .branchTrue
  | .branchFalse => .branchFalse
  | .returnI64 => .ret
  | _ => .nop

def blockAddSuccessor (g : Graph) (source target : Nat) : Option Graph :=
  if g.blockCount ≤ source || g.blockCount ≤ target then none
  else if (g.block source).successors.contains target then some g
  else if maxBlockEdges ≤ (g.block source).successors.length ||
      maxBlockEdges ≤ (g.block target).predecessors.length then none
  else
    let g := g.setBlock source fun b => { b with successors := b.successors ++ [target] }
    some (g.setBlock target fun b => { b with predecessors := b.predecessors ++ [source] })

def blockForInstruction (g : Graph) (insn : Nat) : Nat :=
  (searchUp g.blockCount fun i =>
    let b := g.block i
    if b.firstInstruction ≤ insn && insn < b.firstInstruction + b.instructionCount then some i
    else none).getD noBlock

def isBranch (op : Opcode) : Bool := op = .jump || op = .branchTrue || op = .branchFalse

/-- The instructions that the scan of `build_blocks` marks because of instruction `i`. -/
def leadersOf (count i : Nat) (insn : Instruction) : List Nat :=
  if isBranch insn.opcode then
    (if insn.target < count then [insn.target] else []) ++ (if i + 1 < count then [i + 1] else [])
  else if insn.opcode = .returnI64 && i + 1 < count then [i + 1] else []

def leaders (f : Function) : List Nat :=
  0 :: (f.instructions.zipIdx.flatMap fun (insn, i) => leadersOf f.instructions.length i insn)

def blockStarts (f : Function) : List Nat :=
  (List.range f.instructions.length).filter fun i => (leaders f).contains i

def initialBlocks (f : Function) : List Block :=
  (blockStarts f).zipIdx.map fun (start, i) =>
    { id := i
      firstInstruction := start
      instructionCount := (blockStarts f).getD (i + 1) f.instructions.length - start
      reachable := i == 0 }

def blockEdges (f : Function) (i : Nat) (g : Graph) : Option Graph :=
  let b := g.block i
  match f.instructions[b.firstInstruction + b.instructionCount - 1]? with
  | none => none
  | some insn =>
    let target := blockForInstruction g insn.target
    if insn.opcode = .jump then
      if target = noBlock then none else blockAddSuccessor g i target
    else if insn.opcode = .branchTrue || insn.opcode = .branchFalse then
      if target = noBlock then none
      else do
        let g ← blockAddSuccessor g i target
        if i + 1 < g.blockCount then blockAddSuccessor g i (i + 1) else some g
    else if insn.opcode ≠ .returnI64 && i + 1 < g.blockCount then blockAddSuccessor g i (i + 1)
    else some g

/-- `build_blocks`; `none` is its failure. -/
def buildBlocks (f : Function) : Option Graph :=
  if f.instructions = [] then none
  else
    let g : Graph := { blocks := initialBlocks f, entryBlock := 0 }
    forUpM g.blockCount (blockEdges f) g

abbrev Exits := Nat → Nat → Nat

/-- The value of register `r` on entry to a block, with the phi it may need. -/
def mergeRegister (exits : Exits) (bi r : Nat) (g : Graph) : Option (Graph × Nat) :=
  let preds := (g.block bi).predecessors
  let incoming := (preds.map fun p => exits p r).filter (· ≠ noValue)
  let merged := incoming.headD noValue
  let conflict := incoming.any (· ≠ merged)
  if conflict && 2 ≤ preds.length then
    let a := exits (preds.getD 0 0) r
    let c := exits (preds.getD 1 0) r
    if a ≠ noValue && c ≠ noValue then do
      let id := g.valueCount
      let g ← emitValue g
        { opcode := .phi, type := (g.value a).type, block := bi, left := a, right := c
          sourceInstruction := (g.block bi).firstInstruction }
      some (g, id)
    else some (g, merged)
  else some (g, merged)

def mergeRegisters (exits : Exits) (bi : Nat) (g : Graph) : Option (Graph × (Nat → Nat)) :=
  forUpM maxRegisters (fun r s => do
    let (g, v) ← mergeRegister exits bi r s.1
    some (g, Function.update s.2 r v)) (g, fun _ => noValue)

def isControl (op : SSAOpcode) : Bool :=
  op = .ret || op = .jump || op = .branchTrue || op = .branchFalse

def readRegister (reg : Nat → Nat) (r : Nat) : Nat := if r < maxRegisters then reg r else noValue

def translate (bi ii : Nat) (insn : Instruction) (s : Graph × (Nat → Nat)) :
    Option (Graph × (Nat → Nat)) :=
  let (g, reg) := s
  let op := mapOp insn.opcode
  if op = .nop then some s
  else
    let readsLeft := !(op = .argument || op = .constantI64 || op = .jump)
    let readsRight := readsLeft && !(op = .branchTrue || op = .branchFalse || op = .ret)
    let immediate := if isBranch insn.opcode then
        BitVec.ofNat 64 (blockForInstruction g insn.target) else insn.immediate
    do
      let id := g.valueCount
      let g ← emitValue g
        { opcode := op, type := typeFor insn.opcode, block := bi
          left := if readsLeft then readRegister reg insn.left else noValue
          right := if readsRight then readRegister reg insn.right else noValue
          immediate := immediate, sourceInstruction := ii }
      some (g, if insn.destination < maxRegisters && !isControl op then
        Function.update reg insn.destination id else reg)

def buildBlock (f : Function) (bi : Nat) (s : Graph × Exits) : Option (Graph × Exits) := do
  let (g, reg) ← mergeRegisters s.2 bi s.1
  let g := g.setBlock bi fun b => { b with firstValue := g.valueCount - b.valueCount }
  let b := g.block bi
  let insns := (f.instructions.zipIdx.drop b.firstInstruction).take b.instructionCount
  let (g, reg) ← insns.foldlM (fun s (insn, ii) => translate bi ii insn s) (g, reg)
  some (g, Function.update s.2 bi reg)

def allBlocks (n : Nat) : Nat := 2 ^ n - 1

def dominatorRound (g : Graph) (dom : List Nat) : List Nat :=
  forUp g.blockCount (fun i dom =>
    if i = g.entryBlock || !(g.block i).reachable then dom
    else
      let preds := (g.block i).predecessors
      let meet := if preds = [] then 0
        else preds.foldl (fun m p => m &&& dom.getD p 0) (allBlocks g.blockCount)
      dom.set i (meet ||| 2 ^ i)) dom

/-- The iteration up to its fixed point; `none` when it has not been reached. -/
def dominatorSets (g : Graph) : Nat → List Nat → Option (List Nat)
  | 0, _ => none
  | fuel + 1, dom =>
    let next := dominatorRound g dom
    if next = dom then some dom else dominatorSets g fuel next

/-- The candidate that `TurboJS_SSAComputeDominators` takes for block `i`. -/
def dominatorCandidate (g : Graph) (dom : List Nat) (i : Nat) : Nat :=
  (searchUp g.blockCount fun j =>
    if j ≠ i && (dom.getD i 0).testBit j &&
        !(List.range g.blockCount).any (fun k => k ≠ i && k ≠ j &&
          (dom.getD i 0).testBit k && (dom.getD j 0).testBit k)
    then some j else none).getD noBlock

/-- `TurboJS_SSAComputeDominators`; a graph of more than 64 blocks is left as it is. The
fuel is explicit in the two loops without a bound of their own. -/
def ssaComputeDominators (fuel : Nat) (g : Graph) : Option Graph :=
  if g.blocks = [] || 64 < g.blockCount then some g
  else do
    let start := (List.range g.blockCount).map fun i =>
      if i = g.entryBlock then 2 ^ i else allBlocks g.blockCount
    let dom ← dominatorSets g fuel start
    some (forUp g.blockCount (fun i g' => g'.setBlock i fun b =>
      { b with immediateDominator :=
          if i = g.entryBlock then noBlock else dominatorCandidate g dom i }) g)

def frontierWalk (i stop : Nat) : Nat → Nat → Graph → Option Graph
  | 0, _, _ => none
  | fuel + 1, runner, g =>
    if runner = noBlock || runner = stop then some g
    else
      let g := g.setBlock runner fun b =>
        { b with dominanceFrontier := b.dominanceFrontier ||| 2 ^ i }
      frontierWalk i stop fuel (g.block runner).immediateDominator g

def ssaComputeDominanceFrontiers (fuel : Nat) (g : Graph) : Option Graph :=
  if g.blocks = [] || 64 < g.blockCount then some g
  else
    let g := { g with blocks := g.blocks.map fun b => { b with dominanceFrontier := 0 } }
    forUpM g.blockCount (fun i g =>
      let b := g.block i
      if !b.reachable || b.predecessors.length < 2 then some g
      else b.predecessors.foldlM
        (fun g runner => frontierWalk i b.immediateDominator fuel runner g) g) g

def floodLoop (header : Nat) : Nat → List Nat → List Nat → Nat → Graph → Graph
  | 0, _, _, _, g => g
  | _ + 1, [], _, _, g => g
  | fuel + 1, block :: work, seen, count, g =>
    let g := g.setBlock block fun b => { b with loopHeader := header, loopDepth := b.loopDepth + 1 }
    let (work, seen, count) := (g.block block).predecessors.foldl
      (fun (s : List Nat × List Nat × Nat) pred =>
        if !s.2.1.contains pred && s.2.2 < maxBlockEdges * 8 then
          (s.1 ++ [pred], pred :: s.2.1, s.2.2 + 1)
        else s) (work, seen, count)
    floodLoop header fuel work seen count g

def ssaDetectLoops (g : Graph) : Graph :=
  let g := { g with blocks := g.blocks.map fun b => { b with loopDepth := 0, loopHeader := noBlock } }
  forUp g.blockCount (fun i g =>
    (g.block i).successors.foldl (fun g header =>
      if i < header || g.blockCount ≤ header || 64 < g.blockCount then g
      else
        let g := floodLoop header (maxBlockEdges * 8) [i] [i, header] 1 g
        g.setBlock header fun b => { b with loopHeader := header, loopDepth := b.loopDepth + 1 }) g) g

/-- `TurboJS_SSABuildFromIR`; `none` is any status but OK, or a loop that `fuel` does
not see to its end. -/
def ssaBuildFromIR (fuel : Nat) (f : Function) : Option Graph := do
  let g ← buildBlocks f
  let (g, _) ← forUpM g.blockCount (buildBlock f) (g, fun _ _ => noValue)
  let g ← ssaComputeDominators fuel (markReachable g)
  let g ← ssaComputeDominanceFrontiers fuel g
  let g := ssaDetectLoops g
  if ssaVerify g then some g else none

structure FeedbackSlot where
  observedTypes : Nat
  observations : Nat
  deriving DecidableEq, Repr

/-- `TurboJSFeedbackVector`, the argument slots in use. -/
abbrev FeedbackVector := List FeedbackSlot

def feedbackInt32 : Nat := 1

/-- `TurboJS_FeedbackSlotIsStable`, at the 32 bits of the type mask. -/
def FeedbackSlot.isStable (slot : FeedbackSlot) : Bool :=
  slot.observations != 0 &&
  (BitVec.ofNat 32 slot.observedTypes &&& (BitVec.ofNat 32 slot.observedTypes - 1)) == 0

def wantsGuard (feedback : FeedbackVector) (v : Value) : Bool :=
  !v.removed && v.opcode = .argument && validIndex v.immediate feedback.length &&
  match feedback[v.immediate.toNat]? with
  | some slot => slot.observedTypes == feedbackInt32 && slot.isStable
  | none => false

/-- The body of the specialisation loop. The guards it appends are no arguments, so the
loop over the grown array does nothing more at them. -/
def specializeValue (feedback : FeedbackVector) (i : Nat) (g : Graph) : Option Graph :=
  if !wantsGuard feedback (g.value i) then some g
  else
    let g := g.setValue i fun v => { v with type := .int32 }
    let v := g.value i
    do
      let g ← emitValue g
        { opcode := .guardInt32, type := .int32, block := v.block, left := v.id
          immediate := v.immediate, sourceInstruction := v.sourceInstruction
          hasDeoptEdge := true, deoptId := g.deoptExitCount }
      some { g with deoptExitCount := g.deoptExitCount + 1 }

def ssaSpecializeFromFeedback (g : Graph) (feedback : FeedbackVector) : Option Graph :=
  if g.blocks = [] then none else forUpM g.valueCount (specializeValue feedback) g

end TurboJS.Optimizing
