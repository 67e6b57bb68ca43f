import TurboJS.Frontend.Opcodes

namespace TurboJS.Frontend

open IR (Status Diagnostic)

/-- What `cfg_branch` reports of a branch. -/
structure Branch where
  displacement : Int
  conditional : Bool
  deriving DecidableEq, Repr

/-- `cfg_branch`. The other opcodes with a label operand are not in its list. -/
def cfgBranch (code : List UInt8) (i : Instruction) : Option Branch :=
  if i.opcode = Op.goto then some ⟨signedAt code (i.offset + 1) 4, false⟩
  else if i.opcode = Op.goto16 then some ⟨signedAt code (i.offset + 1) 2, false⟩
  else if i.opcode = Op.goto8 then some ⟨signedAt code (i.offset + 1) 1, false⟩
  else if i.opcode = Op.ifTrue ∨ i.opcode = Op.ifFalse then
    some ⟨signedAt code (i.offset + 1) 4, true⟩
  else if i.opcode = Op.ifTrue8 ∨ i.opcode = Op.ifFalse8 then
    some ⟨signedAt code (i.offset + 1) 1, true⟩
  else none

def cfgTerminates (op : Nat) : Bool :=
  op ∈ [Op.return, Op.returnUndef, Op.returnAsync, Op.throw, Op.throwError, Op.ret]

/-- The opcodes that `cfg_helper` lists as direct: pushes, stack moves, accesses to locals and
arguments, arithmetic and comparisons, branches and `return`. -/
def directOpcodes : List Nat :=
  [185, 1, 6, 7, 9, 10, 14, 17] ++ [90, 216, 217, 218, 219] ++ [87, 88, 89, 200, 201, 202] ++
  [204, 205, 206, 207, 208, 209, 210, 211, 212, 213, 214, 215] ++
  [157, 158, 154, 155, 156] ++ [166, 167, 168, 169, 172] ++ [144, 143] ++
  [Op.goto, Op.goto16, Op.goto8, Op.ifTrue, Op.ifFalse, Op.ifTrue8, Op.ifFalse8, Op.return]

def cfgHelper (op : Nat) : Bool := !(op ∈ directOpcodes)

/-- The target of a branch at `offset`, as the source computes it. -/
def Branch.target (b : Branch) (offset : Nat) : Int := (offset : Int) + 1 + b.displacement

/-! The first pass: linear decoding and block starts. -/

structure Scan where
  starts : List Nat
  instructions : List Instruction
  deriving DecidableEq, Repr

/-- The offsets that an instruction marks as block starts. Nothing is marked behind a branch
that is not conditional. -/
def marks (code : List UInt8) (i : Instruction) : List Nat :=
  let behind := if i.next < code.length then [i.next] else []
  match cfgBranch code i with
  | some b => (b.target i.offset).toNat :: if b.conditional then behind else []
  | none => if cfgTerminates i.opcode then behind else []

def targetInRange (code : List UInt8) (i : Instruction) : Bool :=
  match cfgBranch code i with
  | some b => 0 ≤ b.target i.offset ∧ b.target i.offset < code.length
  | none => true

def scanInstruction (code : List UInt8) (pc : Nat) : Except Diagnostic Instruction :=
  let op := (code.getD pc 0).toNat
  if opCount ≤ op ∨ op = Op.invalid then
    .error ⟨.invalidOpcode, pc, "invalid engine opcode in CFG"⟩
  else
    let i : Instruction := ⟨pc, op, (opcodeInfo.getD op ⟨0, 0, 0, .none⟩).size⟩
    if code.length < i.next then
      .error ⟨.invalidOpcode, pc, "truncated engine instruction in CFG"⟩
    else .ok i

def scan (code : List UInt8) : Nat → Nat → Scan → Except Diagnostic Scan
  | 0, _, s => .ok s
  | fuel + 1, pc, s =>
    if pc < code.length then do
      let i ← scanInstruction code pc
      if !targetInRange code i then
        .error ⟨.invalidTarget, pc, "CFG branch target is out of range"⟩
      else
        scan code fuel i.next ⟨s.starts ++ marks code i, s.instructions ++ [i]⟩
    else .ok s

/-! The second pass: blocks and the map from offsets to blocks. -/

def Scan.leaders (s : Scan) : List Nat :=
  (List.range s.instructions.length).filter fun k =>
    match s.instructions[k]? with
    | some i => i.offset ∈ s.starts
    | none => false

def Scan.offsetToInstruction (s : Scan) (offset : Nat) : Option Nat :=
  s.instructions.findIdx? fun i => i.offset = offset

/-- `offset_to_block`: the number of blocks opened up to this instruction, less one. -/
def Scan.offsetToBlock (s : Scan) (offset : Nat) : Option Nat :=
  (s.offsetToInstruction offset).map fun k => (s.leaders.countP fun l => l ≤ k) - 1

/-- The index of the first instruction of block `b`, or behind the last block. -/
def Scan.firstInstruction (s : Scan) (b : Nat) : Nat := s.leaders.getD b s.instructions.length

def Scan.offsetOf (s : Scan) (code : List UInt8) (k : Nat) : Nat :=
  (s.instructions[k]?.map (·.offset)).getD code.length

/-- The instructions of block `b`. -/
def Scan.blockInstructions (s : Scan) (b : Nat) : List Instruction :=
  (s.instructions.drop (s.firstInstruction b)).take (s.firstInstruction (b + 1) - s.firstInstruction b)

/-! The third pass: edges from the last instruction of each block. -/

structure Edges where
  successors : List Nat
  backedgeTo : Option Nat
  deriving DecidableEq, Repr

def blockEdges (code : List UInt8) (s : Scan) (b : Nat) : Except Diagnostic Edges :=
  match (s.blockInstructions b).getLast? with
  | none => .ok ⟨[], none⟩
  | some i =>
    match cfgBranch code i with
    | some branch =>
      let target := (branch.target i.offset).toNat
      match s.offsetToBlock target with
      | none =>
        .error ⟨.invalidTarget, i.offset, "CFG branch target is not an instruction boundary"⟩
      | some tb =>
        let behind :=
          if branch.conditional ∧ i.next < code.length then
            match s.offsetToBlock i.next with
            | some fb => if fb ≠ tb then [fb] else []
            | none => []
          else []
        .ok ⟨tb :: behind, if target ≤ i.offset then some tb else none⟩
    | none =>
      if !cfgTerminates i.opcode ∧ s.offsetOf code (s.firstInstruction (b + 1)) < code.length then
        .ok ⟨[b + 1], none⟩
      else .ok ⟨[], none⟩

/-! The fourth pass: predecessors. -/

def maxBlockEdges : Nat := 8

def addPredecessor (start : Nat → Nat) (preds : Nat → List Nat) (edge : Nat × Nat) :
    Except Diagnostic (Nat → List Nat) :=
  if maxBlockEdges ≤ (preds edge.2).length then
    .error ⟨.unsupported, start edge.2, "CFG predecessor limit exceeded"⟩
  else .ok (Function.update preds edge.2 (preds edge.2 ++ [edge.1]))

def edgeList (edges : List Edges) : List (Nat × Nat) :=
  edges.zipIdx.flatMap fun e => e.1.successors.map fun t => (e.2, t)

/-! The fifth pass: operand stack depths over a worklist. -/

structure DepthState where
  entry : Nat → Option Nat
  exit : Nat → Option Nat
  maximum : Nat
  work : List Nat

def stackEffect (stackSize : Nat) (s : Nat × Nat) (i : Instruction) :
    Except Diagnostic (Nat × Nat) :=
  if s.1 < i.info.pop then .error ⟨.invalidOpcode, i.offset, "CFG stack underflow"⟩
  else
    let depth := s.1 - i.info.pop + i.info.push
    if stackSize ≠ 0 ∧ stackSize < depth then
      .error ⟨.invalidRegister, i.offset, "CFG stack exceeds declared stack size"⟩
    else .ok (depth, max s.2 depth)

def mergeDepth (start : Nat → Nat) (depth : Nat) (s : DepthState) (t : Nat) :
    Except Diagnostic DepthState :=
  match s.entry t with
  | none => .ok { s with entry := Function.update s.entry t (some depth), work := s.work ++ [t] }
  | some d =>
    if d ≠ depth then
      .error ⟨.invalidOpcode, start t, "inconsistent operand stack depth at CFG merge"⟩
    else .ok s

def visitBlock (stackSize : Nat) (start : Nat → Nat) (body : Nat → List Instruction)
    (successors : Nat → List Nat) (b : Nat) (s : DepthState) : Except Diagnostic DepthState := do
  let (depth, maximum) ← (body b).foldlM (stackEffect stackSize) ((s.entry b).getD 0, s.maximum)
  (successors b).foldlM (mergeDepth start depth)
    { s with exit := Function.update s.exit b (some depth), maximum }

def visitBlocks (stackSize : Nat) (start : Nat → Nat) (body : Nat → List Instruction)
    (successors : Nat → List Nat) : Nat → DepthState → Except Diagnostic DepthState
  | 0, s => .ok s
  | fuel + 1, s =>
    match s.work with
    | [] => .ok s
    | b :: rest => do
      let s ← visitBlock stackSize start body successors b { s with work := rest }
      visitBlocks stackSize start body successors fuel s

/-- `TurboJSBytecodeBlock`. A depth that was never set and an edge slot that is not used hold
no value. -/
structure Block where
  startOffset : Nat
  endOffset : Nat
  firstInstruction : Nat
  instructionCount : Nat
  entryStackDepth : Option Nat
  exitStackDepth : Option Nat
  successors : List Nat
  predecessors : List Nat
  reachable : Bool
  loopHeader : Bool
  hasBackedge : Bool
  helperExit : Bool
  deriving DecidableEq, Repr

structure CFG where
  blocks : List Block
  instructionOffsets : List Nat
  offsetToBlock : List (Option Nat)
  maximumStackDepth : Nat
  deriving DecidableEq, Repr

def Scan.block (s : Scan) (code : List UInt8) (edges : List Edges) (preds : Nat → List Nat)
    (depths : DepthState) (b : Nat) : Block where
  startOffset := s.offsetOf code (s.firstInstruction b)
  endOffset := s.offsetOf code (s.firstInstruction (b + 1))
  firstInstruction := s.firstInstruction b
  instructionCount := s.firstInstruction (b + 1) - s.firstInstruction b
  entryStackDepth := depths.entry b
  exitStackDepth := depths.exit b
  successors := (edges[b]?.map (·.successors)).getD []
  predecessors := preds b
  reachable := (depths.exit b).isSome
  loopHeader := edges.any fun e => e.backedgeTo = some b
  hasBackedge := ((edges[b]?.map (·.backedgeTo)).getD none).isSome
  helperExit := (s.blockInstructions b).any fun i => cfgHelper i.opcode

def buildCFG (info : BytecodeInfo) : Except Diagnostic CFG := do
  let code := info.bytecode
  if code.length = 0 then .error ⟨.invalidArgument, 0, "empty engine bytecode"⟩
  else
    let s ← scan code code.length 0 ⟨[0], []⟩
    let count := s.leaders.length
    let start := fun b => s.offsetOf code (s.firstInstruction b)
    let edges ← (List.range count).mapM (blockEdges code s)
    let preds ← (edgeList edges).foldlM (addPredecessor start) fun _ => []
    let successors := fun b => (edges[b]?.map (·.successors)).getD []
    let depths ← visitBlocks info.stackSize start s.blockInstructions successors count
      ⟨Function.update (fun _ => none) 0 (some 0), fun _ => none, 0, [0]⟩
    .ok ⟨(List.range count).map (s.block code edges preds depths),
      s.instructions.map (·.offset), (List.range (code.length + 1)).map s.offsetToBlock,
      depths.maximum⟩

end TurboJS.Frontend
