import TurboJS.Frontend.Linear
import TurboJS.Foundation.Worklist

namespace TurboJS.Frontend

open IR (Status Diagnostic)
open Foundation

/-! What the interpreter can do behind an instruction. -/

/-- Where the interpreter continues when an instruction takes its branch. The label of `catch`
is kept for a later exception and is no branch of `catch` itself. -/
def branchTarget (code : List UInt8) (i : Instruction) : Option Int :=
  if i.opcode = Op.catch then none
  else
    match i.info.format with
    | .label8 => some (i.offset + 1 + signedAt code (i.offset + 1) 1)
    | .label16 => some (i.offset + 1 + signedAt code (i.offset + 1) 2)
    | .label => some (i.offset + 1 + signedAt code (i.offset + 1) 4)
    | .atomLabelU8 => some (i.offset + 5 + signedAt code (i.offset + 5) 4)
    | _ => none

def fallsThrough (op : Nat) : Bool :=
  !(op ∈ [Op.goto, Op.goto16, Op.goto8, Op.gosub, Op.tailCall, Op.tailCallMethod, Op.return,
    Op.returnUndef, Op.returnAsync, Op.throw, Op.throwError, Op.ret])

/-- An instruction passes control to the instruction at `q`. -/
def Transfers (code : List UInt8) (i : Instruction) (q : Nat) : Prop :=
  branchTarget code i = some (q : Int) ∨ fallsThrough i.opcode = true ∧ q = i.next

def EndsBlock (code : List UInt8) (i : Instruction) : Prop :=
  (branchTarget code i).isSome = true ∨ fallsThrough i.opcode = false

structure ExactCFG (code : List UInt8) (cfg : CFG) : Prop where
  offsets : ∀ o, o ∈ cfg.instructionOffsets ↔ ∃ i, Linear code i ∧ i.offset = o
  boundaries : ∀ B ∈ cfg.blocks, (∃ i, Linear code i ∧ i.offset = B.startOffset) ∧
    ∃ i, Linear code i ∧ i.next = B.endOffset
  disjoint : ∀ (b c : Nat) (B C : Block), cfg.blocks[b]? = some B → cfg.blocks[c]? = some C → b < c →
    B.endOffset ≤ C.startOffset
  cover : ∀ i, Linear code i → ∃ B ∈ cfg.blocks, B.startOffset ≤ i.offset ∧ i.next ≤ B.endOffset
  onlyLast : ∀ B ∈ cfg.blocks, ∀ i, Linear code i → B.startOffset ≤ i.offset →
    i.offset < B.endOffset → EndsBlock code i → i.next = B.endOffset
  targets : ∀ i t, Linear code i → branchTarget code i = some t →
    ∃ B ∈ cfg.blocks, (B.startOffset : Int) = t
  successors : ∀ (b c : Nat) (B C : Block), cfg.blocks[b]? = some B → cfg.blocks[c]? = some C →
    (c ∈ B.successors ↔ ∃ i, Linear code i ∧ B.startOffset ≤ i.offset ∧ i.next = B.endOffset ∧
      Transfers code i C.startOffset)
  edgesInside : ∀ B ∈ cfg.blocks, (∀ c ∈ B.successors, c < cfg.blocks.length) ∧
    ∀ c ∈ B.predecessors, c < cfg.blocks.length
  predecessors : ∀ (b c : Nat) (B C : Block), cfg.blocks[b]? = some B → cfg.blocks[c]? = some C →
    (b ∈ C.predecessors ↔ c ∈ B.successors)

inductive Kind where
  | goto | conditional | terminator | missedBranch | tailCall | plain
  deriving DecidableEq, Repr

/-- The opcodes by what `cfg_branch` and `cfg_terminates` know of them. `gosub`, the `with`
opcodes and the tail calls are plain for the builder and are not for the interpreter. -/
def kind (op : Nat) : Kind :=
  if op ∈ [Op.goto, Op.goto16, Op.goto8] then .goto
  else if op ∈ [Op.ifTrue, Op.ifFalse, Op.ifTrue8, Op.ifFalse8] then .conditional
  else if cfgTerminates op then .terminator
  else if op ∈ [Op.gosub, Op.withGetVar, Op.withPutVar, Op.withDeleteVar, Op.withMakeRef,
    Op.withGetRef, Op.withGetRefUndef] then .missedBranch
  else if op ∈ [Op.tailCall, Op.tailCallMethod] then .tailCall
  else .plain

/-- A goto or a conditional branch of the code goes to `q`. -/
def Targeted (code : List UInt8) (q : Nat) : Prop :=
  ∃ j, Linear code j ∧ (kind j.opcode = .goto ∨ kind j.opcode = .conditional) ∧
    branchTarget code j = some (q : Int)

/-- A goto ends the code or stands before a branch target, a `gosub` or `with` branch goes to
the next instruction, which is such a target, and a tail call ends the code. -/
def SplitBehind (code : List UInt8) (i : Instruction) : Prop :=
  match kind i.opcode with
  | .goto => i.next = code.length ∨ Targeted code i.next
  | .missedBranch => branchTarget code i = some (i.next : Int) ∧ Targeted code i.next
  | .tailCall => i.next = code.length
  | .conditional | .terminator | .plain => True

def Format.isLabel : Format → Bool
  | .label8 | .label16 | .label | .atomLabelU8 => true
  | _ => false

theorem label_rows : (opcodeInfo.zipIdx.filter fun r => r.1.format.isLabel).map (·.2) =
    [Op.ifFalse, Op.ifTrue, Op.goto, Op.catch, Op.gosub, Op.withGetVar, Op.withPutVar,
      Op.withDeleteVar, Op.withMakeRef, Op.withGetRef, Op.withGetRefUndef, Op.ifFalse8, Op.ifTrue8,
      Op.goto8, Op.goto16] := by
  decide +kernel

theorem kind_fallsThrough : ∀ op < opCount, (fallsThrough op = true ↔
    kind op = .conditional ∨ kind op = .plain ∨ kind op = .missedBranch ∧ op ≠ Op.gosub) := by
  decide +kernel

theorem kind_terminates (op : Nat) : cfgTerminates op = true ↔ kind op = .terminator := by
  constructor
  · intro h
    have hmem : op ∈ [Op.return, Op.returnUndef, Op.returnAsync, Op.throw, Op.throwError, Op.ret] := by
      simpa only [cfgTerminates, decide_eq_true_eq] using h
    simp only [List.mem_cons, List.not_mem_nil, or_false] at hmem
    rcases hmem with rfl | rfl | rfl | rfl | rfl | rfl <;> rfl
  · intro h
    by_contra hnot
    unfold kind at h
    rw [if_neg hnot] at h
    repeat' split at h
    all_goals cases h

section kinds

variable {code : List UInt8} {i : Instruction}

theorem cfgBranch_none (h : kind i.opcode ≠ .goto) (h' : kind i.opcode ≠ .conditional) :
    cfgBranch code i = none := by
  have hgoto : i.opcode ∉ [Op.goto, Op.goto16, Op.goto8] := by
    intro hmem
    exact h (by simp only [kind, if_pos hmem])
  have hcond : i.opcode ∉ [Op.ifTrue, Op.ifFalse, Op.ifTrue8, Op.ifFalse8] := by
    intro hmem
    exact h' (by simp only [kind, if_neg hgoto, if_pos hmem])
  simp only [List.mem_cons, List.not_mem_nil, or_false, not_or] at hgoto hcond
  simp [cfgBranch, hgoto, hcond]

theorem cfgBranch_goto (code : List UInt8) (h : kind i.opcode = .goto) :
    ∃ d, cfgBranch code i = some ⟨d, false⟩ ∧ branchTarget code i = some (i.offset + 1 + d) := by
  have hmem : i.opcode ∈ [Op.goto, Op.goto16, Op.goto8] := by
    by_contra hnot
    simp only [kind, if_neg hnot] at h
    repeat' split at h
    all_goals cases h
  simp only [List.mem_cons, List.not_mem_nil, or_false] at hmem
  rcases hmem with hop | hop | hop
  · refine ⟨signedAt code (i.offset + 1) 4, ?_, ?_⟩
    · simp only [cfgBranch, hop]
      rfl
    · simp only [branchTarget, Instruction.info, hop]
      rfl
  · refine ⟨signedAt code (i.offset + 1) 2, ?_, ?_⟩
    · simp only [cfgBranch, hop]
      rfl
    · simp only [branchTarget, Instruction.info, hop]
      rfl
  · refine ⟨signedAt code (i.offset + 1) 1, ?_, ?_⟩
    · simp only [cfgBranch, hop]
      rfl
    · simp only [branchTarget, Instruction.info, hop]
      rfl

theorem cfgBranch_conditional (code : List UInt8) (h : kind i.opcode = .conditional) :
    ∃ d, cfgBranch code i = some ⟨d, true⟩ ∧ branchTarget code i = some (i.offset + 1 + d) := by
  have hmem : i.opcode ∈ [Op.ifTrue, Op.ifFalse, Op.ifTrue8, Op.ifFalse8] := by
    by_contra hnot
    simp only [kind, if_neg hnot] at h
    repeat' split at h
    all_goals cases h
  simp only [List.mem_cons, List.not_mem_nil, or_false] at hmem
  rcases hmem with hop | hop | hop | hop
  · refine ⟨signedAt code (i.offset + 1) 4, ?_, ?_⟩
    · simp only [cfgBranch, hop]
      rfl
    · simp only [branchTarget, Instruction.info, hop]
      rfl
  · refine ⟨signedAt code (i.offset + 1) 4, ?_, ?_⟩
    · simp only [cfgBranch, hop]
      rfl
    · simp only [branchTarget, Instruction.info, hop]
      rfl
  · refine ⟨signedAt code (i.offset + 1) 1, ?_, ?_⟩
    · simp only [cfgBranch, hop]
      rfl
    · simp only [branchTarget, Instruction.info, hop]
      rfl
  · refine ⟨signedAt code (i.offset + 1) 1, ?_, ?_⟩
    · simp only [cfgBranch, hop]
      rfl
    · simp only [branchTarget, Instruction.info, hop]
      rfl

theorem cfgBranch_known (code : List UInt8) (h : kind i.opcode = .goto ∨ kind i.opcode = .conditional) :
    ∃ branch, cfgBranch code i = some branch ∧
      branchTarget code i = some (branch.target i.offset) := by
  rcases h with h | h
  · obtain ⟨d, hbr, ht⟩ := cfgBranch_goto code h
    exact ⟨_, hbr, ht⟩
  · obtain ⟨d, hbr, ht⟩ := cfgBranch_conditional code h
    exact ⟨_, hbr, ht⟩

theorem branchTarget_none (code : List UInt8) (hk : i.opcode < opCount)
    (h : kind i.opcode = .plain ∨ kind i.opcode = .terminator ∨ kind i.opcode = .tailCall) :
    branchTarget code i = none := by
  by_cases hcatch : i.opcode = Op.catch
  · simp only [branchTarget, if_pos hcatch]
  · have hformat : i.info.format.isLabel = false := by
      by_contra hlabel
      have hrow : (i.info, i.opcode) ∈ opcodeInfo.zipIdx := by
        have hk : i.opcode < opcodeInfo.length := hk
        simp [List.mk_mem_zipIdx_iff_getElem?, Instruction.info, List.getD_eq_getElem?_getD, hk]
      have hop : i.opcode ∈ (opcodeInfo.zipIdx.filter fun r => r.1.format.isLabel).map (·.2) :=
        List.mem_map.mpr ⟨_, List.mem_filter.mpr ⟨hrow, by simpa using hlabel⟩, rfl⟩
      rw [label_rows] at hop
      simp only [List.mem_cons, List.not_mem_nil, or_false] at hop
      rcases hop with hop | hop | hop | hop | hop | hop | hop | hop | hop | hop | hop | hop | hop |
        hop | hop
      all_goals
        first
          | exact hcatch hop
          | rw [hop] at h
            revert h
            decide
    simp only [branchTarget, if_neg hcatch]
    split <;> simp_all [Format.isLabel]

theorem branchTarget_missed (h : kind i.opcode = .missedBranch) :
    (branchTarget code i).isSome = true := by
  have hmem : i.opcode ∈ [Op.gosub, Op.withGetVar, Op.withPutVar, Op.withDeleteVar, Op.withMakeRef,
      Op.withGetRef, Op.withGetRefUndef] := by
    by_contra hnot
    simp only [kind, if_neg hnot] at h
    repeat' split at h
    all_goals cases h
  simp only [List.mem_cons, List.not_mem_nil, or_false] at hmem
  rcases hmem with hop | hop | hop | hop | hop | hop | hop
  all_goals
    simp only [branchTarget, Instruction.info, hop]
    rfl

end kinds

structure Built (info : BytecodeInfo) (s : Scan) (edges : List Edges) (preds : Nat → List Nat)
    (depths : DepthState) : Prop where
  nonempty : info.bytecode ≠ []
  scanned : Scanned info.bytecode s info.bytecode.length
  edgesRun : (List.range s.leaders.length).mapM (blockEdges info.bytecode s) = .ok edges
  predsRun : (edgeList edges).foldlM
    (addPredecessor fun b => s.offsetOf info.bytecode (s.firstInstruction b)) (fun _ => []) = .ok preds
  depthsRun : visitBlocks info.stackSize (fun b => s.offsetOf info.bytecode (s.firstInstruction b))
    s.blockInstructions (fun b => (edges[b]?.map (·.successors)).getD []) s.leaders.length
    ⟨Function.update (fun _ => none) 0 (some 0), fun _ => none, 0, [0]⟩ = .ok depths

theorem buildCFG_built {info : BytecodeInfo} {cfg : CFG} (h : buildCFG info = .ok cfg) :
    ∃ s edges preds depths, Built info s edges preds depths ∧
      cfg.blocks = (List.range s.leaders.length).map (s.block info.bytecode edges preds depths) ∧
      cfg.instructionOffsets = s.instructions.map (·.offset) := by
  unfold buildCFG at h
  simp only at h
  split at h
  · cases h
  · rename_i hne
    simp only [bind, Except.bind] at h
    cases hs : scan info.bytecode info.bytecode.length 0 ⟨[0], []⟩ with
    | error e => simp [hs] at h
    | ok s =>
      simp only [hs] at h
      split at h
      · cases h
      · rename_i edges he
        split at h
        · cases h
        · rename_i preds hp
          split at h
          · cases h
          · rename_i depths hd
            cases h
            refine ⟨s, edges, preds, depths, ⟨?_, ?_, he, hp, hd⟩, rfl, rfl⟩
            · intro hnil
              exact hne (by rw [hnil]; rfl)
            · exact scan_scanned (.start _) (by omega) hs

theorem foldlM_addPredecessor {start : Nat → Nat} {l : List (Nat × Nat)} {p q : Nat → List Nat}
    (h : l.foldlM (addPredecessor start) p = .ok q) (j : Nat) :
    q j = p j ++ (l.filter fun e => e.2 = j).map (·.1) := by
  induction l generalizing p with
  | nil =>
    cases h
    simp
  | cons e l ih =>
    rw [List.foldlM_cons] at h
    by_cases hfull : maxBlockEdges ≤ (p e.2).length
    · simp [addPredecessor, hfull, bind, Except.bind] at h
    · simp only [addPredecessor, if_neg hfull, bind, Except.bind] at h
      rw [ih h]
      by_cases hj : e.2 = j
      · subst hj
        simp
      · simp [Function.update_of_ne (Ne.symm hj), hj]

theorem mem_edgeList {edges : List Edges} {b c : Nat} :
    (b, c) ∈ edgeList edges ↔ ∃ e, edges[b]? = some e ∧ c ∈ e.successors := by
  unfold edgeList
  simp only [List.mem_flatMap, List.mem_map, Prod.mk.injEq, Prod.exists,
    List.mk_mem_zipIdx_iff_getElem?]
  constructor
  · rintro ⟨e, k, hk, d, hd, rfl, rfl⟩
    exact ⟨e, hk, hd⟩
  · rintro ⟨e, he, hc⟩
    exact ⟨e, b, he, c, hc, rfl, rfl⟩

namespace Built

variable {info : BytecodeInfo} {s : Scan} {edges : List Edges} {preds : Nat → List Nat}
  {depths : DepthState} (h : Built info s edges preds depths)

include h

theorem edges_get {b : Nat} (hb : b < s.leaders.length) :
    ∃ e, edges[b]? = some e ∧ blockEdges info.bytecode s b = .ok e := by
  refine (mapM_ok h.edgesRun).2 b b ?_
  simp [hb]

theorem mem_preds {b c : Nat} :
    b ∈ preds c ↔ ∃ e, edges[b]? = some e ∧ c ∈ e.successors := by
  rw [← mem_edgeList, foldlM_addPredecessor h.predsRun c]
  simp only [List.nil_append, List.mem_map, List.mem_filter, decide_eq_true_eq, Prod.exists,
    exists_and_right, exists_eq_right]

theorem last {b : Nat} (hb : b < s.leaders.length) :
    ∃ i, s.instructions[h.scanned.cuts.start (b + 1) - 1]? = some i ∧
      (s.blockInstructions b).getLast? = some i ∧
      i.next = s.offsetOf info.bytecode (s.firstInstruction (b + 1)) := by
  have hlt := h.scanned.cuts.start_lt_start (Nat.lt_add_one b) hb
  have hle := h.scanned.cuts.start_le (b + 1)
  have hget := List.getElem?_eq_getElem
    (show h.scanned.cuts.start (b + 1) - 1 < s.instructions.length by omega)
  refine ⟨_, hget, (h.scanned.blockInstructions_getLast hb).trans hget, ?_⟩
  rw [h.scanned.next_eq hget]
  congr 1
  have hfirst : s.firstInstruction (b + 1) = h.scanned.cuts.start (b + 1) := rfl
  omega

theorem start_inj {b c : Nat} (hb : b ≤ s.leaders.length) (hc : c ≤ s.leaders.length)
    (he : s.offsetOf info.bytecode (s.firstInstruction b) =
      s.offsetOf info.bytecode (s.firstInstruction c)) : b = c := by
  have hsame := h.scanned.index_inj (h.scanned.cuts.start_le b) (h.scanned.cuts.start_le c) he
  rcases Nat.lt_trichotomy b c with hlt | heq | hgt
  · have := h.scanned.cuts.start_lt_start hlt (show b < s.leaders.length by omega)
    omega
  · exact heq
  · have := h.scanned.cuts.start_lt_start hgt (show c < s.leaders.length by omega)
    omega

theorem end_lt_iff {b : Nat} :
    s.offsetOf info.bytecode (s.firstInstruction (b + 1)) < info.bytecode.length ↔
      b + 1 < s.leaders.length := by
  have hfirst : s.firstInstruction (b + 1) = h.scanned.cuts.start (b + 1) := rfl
  rw [← Scanned.offsetOf_length (s := s), hfirst,
    h.scanned.offset_lt_iff (h.scanned.cuts.start_le (b + 1)) (Nat.le_refl _)]
  constructor
  · intro hlt
    by_contra hge
    have := h.scanned.cuts.start_of_le (Nat.le_of_not_lt hge)
    omega
  · exact fun hlt => h.scanned.cuts.start_lt hlt

theorem offsetToBlock_start {b : Nat} (hb : b < s.leaders.length) :
    s.offsetToBlock (s.offsetOf info.bytecode (s.firstInstruction b)) = some b := by
  have hlt := h.scanned.cuts.start_lt hb
  have hget := List.getElem?_eq_getElem hlt
  have hoff : s.offsetOf info.bytecode (s.firstInstruction b) =
      s.instructions[h.scanned.cuts.start b].offset := Scanned.offsetOf_eq _ hget
  rw [hoff, h.scanned.offsetToBlock_eq hget, Option.some.injEq]
  exact (Cuts.segment_unique (Nat.le_refl _)
    (h.scanned.cuts.start_lt_start (Nat.lt_add_one b) hb)).symm

theorem target_inside {i : Instruction} {branch : Branch} (hi : i ∈ s.instructions)
    (hbr : cfgBranch info.bytecode i = some branch) :
    0 ≤ branch.target i.offset ∧ branch.target i.offset < info.bytecode.length := by
  have hrange := h.scanned.inRange i hi
  simpa only [targetInRange, hbr, decide_eq_true_eq] using hrange

theorem successors_branch {b : Nat} (hb : b < s.leaders.length) {i : Instruction} {branch : Branch}
    {e : Edges} (hi : s.instructions[h.scanned.cuts.start (b + 1) - 1]? = some i)
    (hbr : cfgBranch info.bytecode i = some branch) (he : blockEdges info.bytecode s b = .ok e) :
    ∃ t, t < s.leaders.length ∧
      (s.offsetOf info.bytecode (s.firstInstruction t) : Int) = branch.target i.offset ∧
      ∀ c, c ∈ e.successors ↔
        c = t ∨ branch.conditional = true ∧ b + 1 < s.leaders.length ∧ c = b + 1 := by
  obtain ⟨i', hi', hlast, hnext⟩ := h.last hb
  rw [hi] at hi'
  cases hi'
  have hmem : i ∈ s.instructions := List.mem_of_getElem? hi
  have hinside := h.target_inside hmem hbr
  simp only [blockEdges, hlast, hbr] at he
  cases ht : s.offsetToBlock (branch.target i.offset).toNat with
  | none => simp [ht] at he
  | some t =>
    simp only [ht, Except.ok.injEq] at he
    obtain ⟨k, j, hj, hoff, hseg⟩ := h.scanned.offsetToBlock_some ht
    -- The target was marked as a block start when the branch was decoded.
    have hstart : j.offset ∈ s.starts := by
      refine (h.scanned.starts _).mpr (.inr ⟨i, hmem, ?_⟩)
      simp [marks, hbr, hoff]
    have hleader : k ∈ h.scanned.cuts.points := Scanned.mem_leaders.mpr ⟨j, hj, hstart⟩
    have hfirst : s.firstInstruction t = k := by
      rw [hseg]
      exact Cuts.start_segment hleader
    have hk := (List.getElem?_eq_some_iff.mp hj).1
    refine ⟨t, ?_, ?_, ?_⟩
    · rw [hseg]
      exact (Cuts.segment_spec hk).1
    · rw [hfirst, Scanned.offsetOf_eq _ hj, hoff]
      omega
    · intro c
      rw [← he, hnext]
      by_cases hmore : b + 1 < s.leaders.length
      · have hlt := h.end_lt_iff.mpr hmore
        rw [h.offsetToBlock_start hmore]
        cases hc : branch.conditional
        · simp
        · by_cases hne : b + 1 = t
          · simp [hne]
          · simp [hlt, hne, hmore]
      · have hge := mt h.end_lt_iff.mp hmore
        simp [hge, hmore]

theorem successors_other {b : Nat} (hb : b < s.leaders.length) {i : Instruction} {e : Edges}
    (hi : s.instructions[h.scanned.cuts.start (b + 1) - 1]? = some i)
    (hbr : cfgBranch info.bytecode i = none) (he : blockEdges info.bytecode s b = .ok e) (c : Nat) :
    c ∈ e.successors ↔ cfgTerminates i.opcode = false ∧ b + 1 < s.leaders.length ∧ c = b + 1 := by
  obtain ⟨i', hi', hlast, hnext⟩ := h.last hb
  rw [hi] at hi'
  cases hi'
  simp only [blockEdges, hlast, hbr, h.end_lt_iff] at he
  cases hterm : cfgTerminates i.opcode
  · by_cases hmore : b + 1 < s.leaders.length
    · simp only [hterm, hmore, Bool.not_false, and_self, if_true, Except.ok.injEq] at he
      subst he
      simp [hmore]
    · simp only [hterm, hmore, and_false, if_false, Except.ok.injEq] at he
      subst he
      simp [hmore]
  · simp only [hterm, Bool.not_true, Bool.false_eq_true, false_and, if_false, Except.ok.injEq] at he
    subst he
    simp

theorem linear_iff (i : Instruction) : i ∈ s.instructions ↔ Linear info.bytecode i :=
  h.scanned.mem_iff h.nonempty i

theorem opcode_lt {i : Instruction} (hi : i ∈ s.instructions) : i.opcode < opCount :=
  (h.scanned.decoded i hi).known

theorem targeted_start {q : Nat} (hq : Targeted info.bytecode q) : q ∈ s.starts := by
  obtain ⟨j, hj, hkind, ht⟩ := hq
  have hmem := (h.linear_iff j).mpr hj
  refine (h.scanned.starts q).mpr (.inr ⟨j, hmem, ?_⟩)
  obtain ⟨branch, hbr, htarget⟩ := cfgBranch_known info.bytecode hkind
  rw [ht, Option.some.injEq] at htarget
  simp [marks, hbr, ← htarget]

theorem targeted_lt {q : Nat} (hq : Targeted info.bytecode q) : q < info.bytecode.length := by
  obtain ⟨j, hj, hkind, ht⟩ := hq
  obtain ⟨branch, hbr, htarget⟩ := cfgBranch_known info.bytecode hkind
  have hinside := h.target_inside ((h.linear_iff j).mpr hj) hbr
  rw [ht, Option.some.injEq] at htarget
  omega

theorem start_cases {q : Nat} (hq : q ∈ s.starts) : q = 0 ∨ Targeted info.bytecode q ∨
    ∃ j ∈ s.instructions, q = j.next ∧
      (kind j.opcode = .conditional ∨ kind j.opcode = .terminator) := by
  rcases (h.scanned.starts q).mp hq with hz | ⟨j, hj, hmark⟩
  · exact .inl hz
  · refine .inr ?_
    have hlinear := (h.linear_iff j).mp hj
    have htarget : ∀ branch, cfgBranch info.bytecode j = some branch →
        ((branch.target j.offset).toNat : Int) = branch.target j.offset := by
      intro branch hbr
      have hinside := h.target_inside hj hbr
      omega
    unfold marks at hmark
    by_cases hgoto : kind j.opcode = .goto
    · obtain ⟨d, hbr, ht⟩ := cfgBranch_goto info.bytecode hgoto
      simp only [hbr, Bool.false_eq_true, if_false, List.mem_singleton] at hmark
      refine .inl ⟨j, hlinear, .inl hgoto, ?_⟩
      rw [hmark, htarget _ hbr, ht]
      rfl
    · by_cases hcond : kind j.opcode = .conditional
      · obtain ⟨d, hbr, ht⟩ := cfgBranch_conditional info.bytecode hcond
        simp only [hbr, if_true, List.mem_cons] at hmark
        rcases hmark with hmark | hmark
        · refine .inl ⟨j, hlinear, .inr hcond, ?_⟩
          rw [hmark, htarget _ hbr, ht]
          rfl
        · refine .inr ⟨j, hj, ?_, .inl hcond⟩
          split at hmark
          · exact List.mem_singleton.mp hmark
          · cases hmark
      · simp only [cfgBranch_none hgoto hcond] at hmark
        split at hmark
        · rename_i hterm
          refine .inr ⟨j, hj, ?_, .inr ((kind_terminates _).mp hterm)⟩
          split at hmark
          · exact List.mem_singleton.mp hmark
          · cases hmark
        · cases hmark

theorem next_inj {i j : Instruction} (hi : i ∈ s.instructions) (hj : j ∈ s.instructions)
    (he : i.next = j.next) : i = j := by
  obtain ⟨k, hk⟩ := List.mem_iff_getElem?.mp hi
  obtain ⟨m, hm⟩ := List.mem_iff_getElem?.mp hj
  rw [h.scanned.next_eq hk, h.scanned.next_eq hm] at he
  have hkm := h.scanned.index_inj (List.getElem?_eq_some_iff.mp hk).1
    (List.getElem?_eq_some_iff.mp hm).1 he
  obtain rfl : k = m := by omega
  rw [hk, Option.some.injEq] at hm
  exact hm

theorem next_eq_end_iff {b k : Nat} {i : Instruction} (hi : s.instructions[k]? = some i)
    (hl : h.scanned.cuts.start b ≤ k) (hr : k < h.scanned.cuts.start (b + 1)) :
    i.next = s.offsetOf info.bytecode (s.firstInstruction (b + 1)) ↔
      i.next = info.bytecode.length ∨ i.next ∈ s.starts := by
  have hk := (List.getElem?_eq_some_iff.mp hi).1
  have hfirst : s.firstInstruction (b + 1) = h.scanned.cuts.start (b + 1) := rfl
  rw [h.scanned.next_eq hi, hfirst]
  have hle := h.scanned.cuts.start_le (b + 1)
  constructor
  · intro he
    rw [he]
    rcases Nat.lt_or_ge (b + 1) s.leaders.length with hmore | hmore
    · right
      have hmem := h.scanned.cuts.start_mem hmore
      obtain ⟨j, hj, hstart⟩ := Scanned.mem_leaders.mp hmem
      rwa [Scanned.offsetOf_eq _ hj]
    · left
      rw [h.scanned.cuts.start_of_le hmore, Scanned.offsetOf_length]
  · intro hcut
    rcases Nat.lt_or_eq_of_le (show k + 1 ≤ h.scanned.cuts.start (b + 1) from hr) with hlt | heq
    · exfalso
      have hget := List.getElem?_eq_getElem (show k + 1 < s.instructions.length by omega)
      rw [Scanned.offsetOf_eq _ hget] at hcut
      rcases hcut with hend | hstart
      · have := (h.scanned.decoded _ (List.mem_of_getElem? hget)).offset_lt
        omega
      · have hmem : k + 1 ∈ h.scanned.cuts.points := Scanned.mem_leaders.mpr ⟨_, hget, hstart⟩
        have hseg := Cuts.start_segment hmem
        have hb : b = h.scanned.cuts.segment (k + 1) := Cuts.segment_unique (by omega) hlt
        rw [← hb] at hseg
        omega
    · rw [heq]

theorem splits {i : Instruction} (hi : i ∈ s.instructions) (hends : EndsBlock info.bytecode i)
    (hsplit : SplitBehind info.bytecode i) :
    i.next = info.bytecode.length ∨ i.next ∈ s.starts := by
  have hk := h.opcode_lt hi
  have hinside := (h.scanned.decoded i hi).inside
  have hmarked : i.next ∈ marks info.bytecode i →
      i.next = info.bytecode.length ∨ i.next ∈ s.starts :=
    fun hm => .inr ((h.scanned.starts _).mpr (.inr ⟨i, hi, hm⟩))
  rcases Nat.lt_or_eq_of_le hinside with hlt | heq
  · unfold SplitBehind at hsplit
    cases hkind : kind i.opcode
    case goto =>
      rw [hkind] at hsplit
      rcases hsplit with hend | ht
      · exact .inl hend
      · exact .inr (h.targeted_start ht)
    case conditional =>
      obtain ⟨d, hbr, -⟩ := cfgBranch_conditional info.bytecode hkind
      exact hmarked (by simp [marks, hbr, hlt])
    case terminator =>
      have hbr : cfgBranch info.bytecode i = none :=
        cfgBranch_none (by simp [hkind]) (by simp [hkind])
      exact hmarked (by simp [marks, hbr, (kind_terminates _).mpr hkind, hlt])
    case missedBranch =>
      rw [hkind] at hsplit
      exact .inr (h.targeted_start hsplit.2)
    case tailCall =>
      rw [hkind] at hsplit
      exact .inl hsplit
    case plain =>
      have hfalls := (kind_fallsThrough _ hk).mpr (.inr (.inl hkind))
      have hnone := branchTarget_none info.bytecode hk (.inl hkind)
      simp [EndsBlock, hfalls, hnone] at hends
  · exact .inl heq

/-- The recorded successors are the blocks that the last instruction passes control to. -/
theorem successors_exact {b c : Nat} (hb : b < s.leaders.length) (hc : c < s.leaders.length)
    {i : Instruction} {e : Edges}
    (hi : s.instructions[h.scanned.cuts.start (b + 1) - 1]? = some i)
    (he : blockEdges info.bytecode s b = .ok e) (hsplit : SplitBehind info.bytecode i) :
    c ∈ e.successors ↔
      Transfers info.bytecode i (s.offsetOf info.bytecode (s.firstInstruction c)) := by
  obtain ⟨i', hi', -, hnext⟩ := h.last hb
  rw [hi] at hi'
  cases hi'
  have hmem := List.mem_of_getElem? hi
  have hk := h.opcode_lt hmem
  have hfall : s.offsetOf info.bytecode (s.firstInstruction c) = i.next ↔
      b + 1 < s.leaders.length ∧ c = b + 1 := by
    rw [hnext]
    constructor
    · intro hoff
      have := h.start_inj (Nat.le_of_lt hc) (show b + 1 ≤ s.leaders.length from hb) hoff
      omega
    · rintro ⟨-, rfl⟩
      rfl
  have htarget : ∀ {t : Nat}, t < s.leaders.length →
      ((s.offsetOf info.bytecode (s.firstInstruction t) : Int) =
        s.offsetOf info.bytecode (s.firstInstruction c) ↔ c = t) := by
    intro t ht
    constructor
    · intro hoff
      exact (h.start_inj (Nat.le_of_lt ht) (Nat.le_of_lt hc) (by omega)).symm
    · rintro rfl
      rfl
  have hfalls := kind_fallsThrough i.opcode hk
  have hterm := kind_terminates i.opcode
  unfold SplitBehind at hsplit
  unfold Transfers
  cases hkind : kind i.opcode
  case goto =>
    obtain ⟨d, hbr, ht⟩ := cfgBranch_goto info.bytecode hkind
    obtain ⟨t, htlt, htoff, hsucc⟩ := h.successors_branch hb hi hbr he
    have hno : fallsThrough i.opcode = false := by simpa [hkind] using hfalls
    rw [Branch.target] at htoff
    simp only [hsucc, ht, ← htoff, Option.some.injEq, htarget htlt, hno, Bool.false_eq_true,
      false_and, or_false]
  case conditional =>
    obtain ⟨d, hbr, ht⟩ := cfgBranch_conditional info.bytecode hkind
    obtain ⟨t, htlt, htoff, hsucc⟩ := h.successors_branch hb hi hbr he
    have hyes : fallsThrough i.opcode = true := by simpa [hkind] using hfalls
    rw [Branch.target] at htoff
    simp only [hsucc, ht, ← htoff, Option.some.injEq, htarget htlt, hyes, true_and, hfall]
  case terminator =>
    have hbr : cfgBranch info.bytecode i = none := cfgBranch_none (by simp [hkind]) (by simp [hkind])
    have hno : fallsThrough i.opcode = false := by simpa [hkind] using hfalls
    have hyes : cfgTerminates i.opcode = true := hterm.mpr hkind
    rw [h.successors_other hb hi hbr he, branchTarget_none _ hk (.inr (.inl hkind))]
    simp [hno, hyes]
  case missedBranch =>
    have hbr : cfgBranch info.bytecode i = none := cfgBranch_none (by simp [hkind]) (by simp [hkind])
    have hno : cfgTerminates i.opcode = false := by simpa [hkind] using hterm
    rw [hkind] at hsplit
    rw [h.successors_other hb hi hbr he, hsplit.1, ← hfall]
    simp only [hno, true_and, Option.some.injEq]
    constructor
    · exact fun hoff => .inl (by omega)
    · rintro (hoff | ⟨-, hoff⟩)
      · omega
      · exact hoff
  case tailCall =>
    have hbr : cfgBranch info.bytecode i = none := cfgBranch_none (by simp [hkind]) (by simp [hkind])
    have hno : fallsThrough i.opcode = false := by simpa [hkind] using hfalls
    have hlast : ¬ b + 1 < s.leaders.length := by
      rw [← h.end_lt_iff, ← hnext]
      rw [hkind] at hsplit
      omega
    rw [h.successors_other hb hi hbr he, branchTarget_none _ hk (.inr (.inr hkind))]
    simp [hno, hlast]
  case plain =>
    have hbr : cfgBranch info.bytecode i = none := cfgBranch_none (by simp [hkind]) (by simp [hkind])
    have hyes : fallsThrough i.opcode = true := by simpa [hkind] using hfalls
    have hno : cfgTerminates i.opcode = false := by simpa [hkind] using hterm
    rw [h.successors_other hb hi hbr he, branchTarget_none _ hk (.inl hkind)]
    simp [hyes, hno, hfall]

theorem in_block_iff {b k : Nat} {i : Instruction} (hi : s.instructions[k]? = some i) :
    (s.offsetOf info.bytecode (s.firstInstruction b) ≤ i.offset ∧
      i.offset < s.offsetOf info.bytecode (s.firstInstruction (b + 1))) ↔
    h.scanned.cuts.start b ≤ k ∧ k < h.scanned.cuts.start (b + 1) := by
  have hk := (List.getElem?_eq_some_iff.mp hi).1
  have hb : s.firstInstruction b = h.scanned.cuts.start b := rfl
  have hb' : s.firstInstruction (b + 1) = h.scanned.cuts.start (b + 1) := rfl
  rw [hb, hb', ← Scanned.offsetOf_eq info.bytecode hi,
    h.scanned.offset_lt_iff (Nat.le_of_lt hk) (h.scanned.cuts.start_le _), ← Nat.not_lt,
    h.scanned.offset_lt_iff (Nat.le_of_lt hk) (h.scanned.cuts.start_le _), Nat.not_lt]

theorem block_of {i : Instruction} (hi : i ∈ s.instructions) :
    ∃ b k, b < s.leaders.length ∧ s.instructions[k]? = some i ∧ h.scanned.cuts.start b ≤ k ∧
      k < h.scanned.cuts.start (b + 1) := by
  obtain ⟨k, hk⟩ := List.mem_iff_getElem?.mp hi
  obtain ⟨hb, hl, hr⟩ := Cuts.segment_spec (c := h.scanned.cuts)
    (List.getElem?_eq_some_iff.mp hk).1
  exact ⟨_, k, hb, hk, hl, hr⟩

theorem last_of_next {b k : Nat} {i : Instruction} (hi : s.instructions[k]? = some i)
    (hend : i.next = s.offsetOf info.bytecode (s.firstInstruction (b + 1))) :
    s.instructions[h.scanned.cuts.start (b + 1) - 1]? = some i := by
  have hk := (List.getElem?_eq_some_iff.mp hi).1
  rw [h.scanned.next_eq hi] at hend
  have hidx := h.scanned.index_inj hk (h.scanned.cuts.start_le (b + 1)) hend
  rw [← hidx]
  exact hi

end Built

theorem block_get {info : BytecodeInfo} {s : Scan} {edges : List Edges} {preds : Nat → List Nat}
    {depths : DepthState} {cfg : CFG}
    (hblocks : cfg.blocks =
      (List.range s.leaders.length).map (s.block info.bytecode edges preds depths))
    {b : Nat} {B : Block} : cfg.blocks[b]? = some B ↔
      b < s.leaders.length ∧ B = s.block info.bytecode edges preds depths b := by
  rw [hblocks, List.getElem?_map, Option.map_eq_some_iff]
  constructor
  · rintro ⟨k, hk, rfl⟩
    obtain ⟨hlt, rfl⟩ := List.getElem?_eq_some_iff.mp hk
    simp only [List.length_range] at hlt
    simp [hlt]
  · rintro ⟨hb, rfl⟩
    exact ⟨b, by simp [hb], rfl⟩

section exactness

variable {info : BytecodeInfo} {s : Scan} {edges : List Edges} {preds : Nat → List Nat}
  {depths : DepthState} {cfg : CFG} (h : Built info s edges preds depths)
  (hblocks : cfg.blocks =
    (List.range s.leaders.length).map (s.block info.bytecode edges preds depths))

include h in
theorem successors_lt {b c : Nat} {e : Edges} (hb : b < s.leaders.length)
    (he : edges[b]? = some e) (hc : c ∈ e.successors) : c < s.leaders.length := by
  obtain ⟨e', he', hrun⟩ := h.edges_get hb
  rw [he] at he'
  cases he'
  obtain ⟨i, hi, -, -⟩ := h.last hb
  cases hbr : cfgBranch info.bytecode i with
  | none =>
    obtain ⟨-, hmore, rfl⟩ := (h.successors_other hb hi hbr hrun c).mp hc
    exact hmore
  | some branch =>
    obtain ⟨t, ht, -, hsucc⟩ := h.successors_branch hb hi hbr hrun
    rcases (hsucc c).mp hc with rfl | ⟨-, hmore, rfl⟩
    · exact ht
    · exact hmore

include hblocks

theorem mem_successors {b c : Nat} {B : Block} {e : Edges} (hB : cfg.blocks[b]? = some B)
    (he : edges[b]? = some e) : c ∈ B.successors ↔ c ∈ e.successors := by
  obtain ⟨hb, rfl⟩ := (block_get hblocks).mp hB
  simp [Scan.block, he]

theorem block_mem {b : Nat} (hb : b < s.leaders.length) :
    s.block info.bytecode edges preds depths b ∈ cfg.blocks :=
  List.mem_of_getElem? ((block_get hblocks).mpr ⟨hb, rfl⟩)

theorem mem_block {B : Block} (hB : B ∈ cfg.blocks) :
    ∃ b, b < s.leaders.length ∧ B = s.block info.bytecode edges preds depths b := by
  obtain ⟨b, hb⟩ := List.mem_iff_getElem?.mp hB
  exact ⟨b, (block_get hblocks).mp hb⟩

include h

theorem block_boundaries {B : Block} (hB : B ∈ cfg.blocks) :
    (∃ i, Linear info.bytecode i ∧ i.offset = B.startOffset) ∧
      ∃ i, Linear info.bytecode i ∧ i.next = B.endOffset := by
  obtain ⟨b, hb, rfl⟩ := mem_block hblocks hB
  constructor
  · have hi := List.getElem?_eq_getElem (h.scanned.cuts.start_lt hb)
    exact ⟨_, (h.linear_iff _).mp (List.mem_of_getElem? hi), (Scanned.offsetOf_eq _ hi).symm⟩
  · obtain ⟨i, hi, -, hnext⟩ := h.last hb
    exact ⟨i, (h.linear_iff i).mp (List.mem_of_getElem? hi), hnext⟩

theorem blocks_cover {i : Instruction} (hi : Linear info.bytecode i) :
    ∃ B ∈ cfg.blocks, B.startOffset ≤ i.offset ∧ i.next ≤ B.endOffset := by
  obtain ⟨b, k, hb, hk, hl, hr⟩ := h.block_of ((h.linear_iff i).mpr hi)
  refine ⟨_, block_mem hblocks hb, ((h.in_block_iff hk).mpr ⟨hl, hr⟩).1, ?_⟩
  rw [h.scanned.next_eq hk]
  exact h.scanned.offset_le_offset hr (h.scanned.cuts.start_le (b + 1))

theorem blocks_disjoint {b c : Nat} {B C : Block} (hB : cfg.blocks[b]? = some B)
    (hC : cfg.blocks[c]? = some C) (hbc : b < c) : B.endOffset ≤ C.startOffset := by
  obtain ⟨hb, rfl⟩ := (block_get hblocks).mp hB
  obtain ⟨hc, rfl⟩ := (block_get hblocks).mp hC
  exact h.scanned.offset_le_offset (h.scanned.cuts.start_mono hbc) (h.scanned.cuts.start_le c)

theorem edges_inside {B : Block} (hB : B ∈ cfg.blocks) :
    (∀ c ∈ B.successors, c < cfg.blocks.length) ∧ ∀ c ∈ B.predecessors, c < cfg.blocks.length := by
  have hlength : cfg.blocks.length = s.leaders.length := by simp [hblocks]
  obtain ⟨b, hb⟩ := List.mem_iff_getElem?.mp hB
  obtain ⟨hlt, hBeq⟩ := (block_get hblocks).mp hb
  rw [hlength]
  constructor
  · intro c hc
    obtain ⟨e, he, -⟩ := h.edges_get hlt
    exact successors_lt h hlt he ((mem_successors hblocks hb he).mp hc)
  · intro c hc
    subst hBeq
    obtain ⟨e, he, -⟩ := h.mem_preds.mp hc
    have hlen := (mapM_ok h.edgesRun).1
    have := (List.getElem?_eq_some_iff.mp he).1
    rw [List.length_range] at hlen
    omega

theorem predecessors_mirror {b c : Nat} {B C : Block} (hB : cfg.blocks[b]? = some B)
    (hC : cfg.blocks[c]? = some C) : b ∈ C.predecessors ↔ c ∈ B.successors := by
  obtain ⟨hb, -⟩ := (block_get hblocks).mp hB
  obtain ⟨hc, rfl⟩ := (block_get hblocks).mp hC
  obtain ⟨e, he, -⟩ := h.edges_get hb
  rw [mem_successors hblocks hB he]
  constructor
  · intro hmem
    obtain ⟨e', he', hsucc⟩ := h.mem_preds.mp hmem
    rw [he] at he'
    cases he'
    exact hsucc
  · exact fun hsucc => h.mem_preds.mpr ⟨e, he, hsucc⟩

section splitBehind

variable (hsplit : ∀ i, Linear info.bytecode i → SplitBehind info.bytecode i)

include hsplit

omit hblocks in
theorem ends_last {b k : Nat} {i : Instruction} (hi : s.instructions[k]? = some i)
    (hl : h.scanned.cuts.start b ≤ k) (hr : k < h.scanned.cuts.start (b + 1))
    (hends : EndsBlock info.bytecode i) :
    i.next = s.offsetOf info.bytecode (s.firstInstruction (b + 1)) := by
  have hin := List.mem_of_getElem? hi
  have hcut := h.splits hin hends (hsplit i ((h.linear_iff i).mp hin))
  exact (h.next_eq_end_iff hi hl hr).mpr hcut

theorem targets_start {i : Instruction} {t : Int} (hi : Linear info.bytecode i)
    (ht : branchTarget info.bytecode i = some t) :
    ∃ B ∈ cfg.blocks, (B.startOffset : Int) = t := by
  have hin := (h.linear_iff i).mpr hi
  obtain ⟨b, k, hb, hk, hl, hr⟩ := h.block_of hin
  have hend := ends_last h hsplit hk hl hr (.inl (by rw [ht]; rfl))
  have hkop := h.opcode_lt hin
  -- The end of the block is checked by the third pass, since the branch is last.
  have hknown : kind i.opcode = .goto ∨ kind i.opcode = .conditional →
      ∃ B ∈ cfg.blocks, (B.startOffset : Int) = t := by
    intro hkind
    obtain ⟨branch, hbr, htarget⟩ := cfgBranch_known info.bytecode hkind
    rw [ht, Option.some.injEq] at htarget
    obtain ⟨e, -, he⟩ := h.edges_get hb
    obtain ⟨c, hc, hoff, -⟩ := h.successors_branch hb (h.last_of_next hk hend) hbr he
    exact ⟨_, block_mem hblocks hc, hoff.trans htarget.symm⟩
  have hnone : kind i.opcode = .plain ∨ kind i.opcode = .terminator ∨ kind i.opcode = .tailCall →
      ∃ B ∈ cfg.blocks, (B.startOffset : Int) = t := by
    intro hkind
    rw [branchTarget_none _ hkop hkind] at ht
    cases ht
  cases hkind : kind i.opcode
  case goto => exact hknown (.inl hkind)
  case conditional => exact hknown (.inr hkind)
  case terminator => exact hnone (.inr (.inl hkind))
  case tailCall => exact hnone (.inr (.inr hkind))
  case plain => exact hnone (.inl hkind)
  case missedBranch =>
    have hs := hsplit i hi
    simp only [SplitBehind, hkind] at hs
    rw [ht, Option.some.injEq] at hs
    have hmore : b + 1 < s.leaders.length := by
      rw [← h.end_lt_iff, ← hend]
      exact h.targeted_lt hs.2
    refine ⟨_, block_mem hblocks hmore, ?_⟩
    rw [hs.1, hend]
    rfl

theorem successors_transfer {b c : Nat} {B C : Block} (hB : cfg.blocks[b]? = some B)
    (hC : cfg.blocks[c]? = some C) : c ∈ B.successors ↔ ∃ i, Linear info.bytecode i ∧
      B.startOffset ≤ i.offset ∧ i.next = B.endOffset ∧
      Transfers info.bytecode i C.startOffset := by
  obtain ⟨hb, hBeq⟩ := (block_get hblocks).mp hB
  obtain ⟨hc, hCeq⟩ := (block_get hblocks).mp hC
  obtain ⟨e, he, hrun⟩ := h.edges_get hb
  obtain ⟨i, hi, -, hnext⟩ := h.last hb
  have hlinear := (h.linear_iff i).mp (List.mem_of_getElem? hi)
  rw [mem_successors hblocks hB he, h.successors_exact hb hc hi hrun (hsplit i hlinear)]
  subst hBeq hCeq
  constructor
  · intro htransfers
    have hlt := h.scanned.cuts.start_lt_start (Nat.lt_add_one b) hb
    refine ⟨i, hlinear, ?_, hnext, htransfers⟩
    exact ((h.in_block_iff hi).mpr ⟨by omega, by omega⟩).1
  · rintro ⟨j, hj, -, hjnext, htransfers⟩
    have hji : j = i := h.next_inj ((h.linear_iff j).mpr hj) (List.mem_of_getElem? hi)
      (hjnext.trans hnext.symm)
    rw [← hji]
    exact htransfers

theorem exact_of_splitBehind (hoffsets : cfg.instructionOffsets = s.instructions.map (·.offset)) :
    ExactCFG info.bytecode cfg where
  offsets := by
    intro o
    simp only [hoffsets, List.mem_map, h.linear_iff]
  boundaries := fun _ hB => block_boundaries h hblocks hB
  disjoint := fun _ _ _ _ hB hC hbc => blocks_disjoint h hblocks hB hC hbc
  cover := fun _ hi => blocks_cover h hblocks hi
  onlyLast := by
    intro B hB i hi hl hr hends
    obtain ⟨b, hb, rfl⟩ := mem_block hblocks hB
    obtain ⟨k, hk⟩ := List.mem_iff_getElem?.mp ((h.linear_iff i).mpr hi)
    obtain ⟨hl, hr⟩ := (h.in_block_iff hk).mp ⟨hl, hr⟩
    exact ends_last h hsplit hk hl hr hends
  targets := fun _ _ hi ht => targets_start h hblocks hsplit hi ht
  successors := fun _ _ _ _ hB hC => successors_transfer h hblocks hsplit hB hC
  edgesInside := fun _ hB => edges_inside h hblocks hB
  predecessors := fun _ _ _ _ hB hC => predecessors_mirror h hblocks hB hC

end splitBehind

theorem split_of_exact (hexact : ExactCFG info.bytecode cfg) {i : Instruction}
    (hi : Linear info.bytecode i) (hends : EndsBlock info.bytecode i) :
    ∃ b, b < s.leaders.length ∧ s.instructions[h.scanned.cuts.start (b + 1) - 1]? = some i ∧
      i.next = s.offsetOf info.bytecode (s.firstInstruction (b + 1)) ∧
      (i.next = info.bytecode.length ∨ i.next ∈ s.starts) := by
  obtain ⟨b, k, hb, hk, hl, hr⟩ := h.block_of ((h.linear_iff i).mpr hi)
  obtain ⟨hl', hr'⟩ := (h.in_block_iff hk).mpr ⟨hl, hr⟩
  have hend := hexact.onlyLast _ (block_mem hblocks hb) i hi hl' hr' hends
  exact ⟨b, hb, h.last_of_next hk hend, hend, (h.next_eq_end_iff hk hl hr).mp hend⟩

omit hblocks in
theorem targeted_of_start {i : Instruction} (hi : Linear info.bytecode i)
    (hkind : kind i.opcode ≠ .conditional ∧ kind i.opcode ≠ .terminator)
    (hstart : i.next ∈ s.starts) : Targeted info.bytecode i.next := by
  have hin := (h.linear_iff i).mpr hi
  rcases h.start_cases hstart with hz | ht | ⟨j, hj, hnext, hjkind⟩
  · have hpos := (h.scanned.decoded i hin).size_pos
    unfold Instruction.next at hz
    omega
  · exact ht
  · rw [← h.next_inj hin hj hnext] at hjkind
    rcases hjkind with hc | ht
    · exact absurd hc hkind.1
    · exact absurd ht hkind.2

theorem splitBehind_of_exact (hexact : ExactCFG info.bytecode cfg) {i : Instruction}
    (hi : Linear info.bytecode i) : SplitBehind info.bytecode i := by
  have hk := h.opcode_lt ((h.linear_iff i).mpr hi)
  have hfalls := kind_fallsThrough i.opcode hk
  unfold SplitBehind
  cases hkind : kind i.opcode
  case conditional => trivial
  case terminator => trivial
  case plain => trivial
  case goto =>
    have hends : EndsBlock info.bytecode i := .inr (by simpa [hkind] using hfalls)
    obtain ⟨b, -, -, -, hend | hstart⟩ := split_of_exact h hblocks hexact hi hends
    · exact .inl hend
    · exact .inr (targeted_of_start h hi (by simp [hkind]) hstart)
  case missedBranch =>
    have hsome : (branchTarget info.bytecode i).isSome = true := branchTarget_missed hkind
    obtain ⟨b, hb, hlast, hnext, hcut⟩ := split_of_exact h hblocks hexact hi (.inl hsome)
    obtain ⟨t, ht⟩ := Option.isSome_iff_exists.mp hsome
    obtain ⟨C, hC, hstart⟩ := hexact.targets i t hi ht
    obtain ⟨c, hc⟩ := List.mem_iff_getElem?.mp hC
    have hB := (block_get hblocks).mpr ⟨hb, rfl⟩
    have hlt := h.scanned.cuts.start_lt_start (Nat.lt_add_one b) hb
    have hbegin := ((h.in_block_iff (b := b) hlast).mpr ⟨by omega, by omega⟩).1
    -- The branch is an edge of the exact graph, but the builder only records the next block.
    have hsucc : c ∈ (s.block info.bytecode edges preds depths b).successors := by
      refine (hexact.successors b c _ _ hB hc).mpr ⟨i, hi, hbegin, hnext, .inl ?_⟩
      rw [ht, hstart]
    obtain ⟨e, he, hrun⟩ := h.edges_get hb
    have hbr : cfgBranch info.bytecode i = none := cfgBranch_none (by simp [hkind]) (by simp [hkind])
    obtain ⟨-, hmore, rfl⟩ :=
      (h.successors_other hb hlast hbr hrun c).mp ((mem_successors hblocks hB he).mp hsucc)
    obtain ⟨-, rfl⟩ := (block_get hblocks).mp hc
    have hinside := h.end_lt_iff.mpr hmore
    rw [← hnext] at hinside
    have htargeted : Targeted info.bytecode i.next := by
      rcases hcut with hend | hcut
      · omega
      · exact targeted_of_start h hi (by simp [hkind]) hcut
    refine ⟨?_, htargeted⟩
    rw [ht, ← hstart, hnext]
    rfl
  case tailCall =>
    have hno : fallsThrough i.opcode = false := by simpa [hkind] using hfalls
    obtain ⟨b, hb, hlast, hnext, -⟩ := split_of_exact h hblocks hexact hi (.inr hno)
    by_contra hinside
    have hle := (h.scanned.decoded i ((h.linear_iff i).mpr hi)).inside
    have hmore : b + 1 < s.leaders.length := by
      rw [← h.end_lt_iff, ← hnext]
      exact Nat.lt_of_le_of_ne hle hinside
    obtain ⟨e, he, hrun⟩ := h.edges_get hb
    have hbr : cfgBranch info.bytecode i = none := cfgBranch_none (by simp [hkind]) (by simp [hkind])
    have hterm : cfgTerminates i.opcode = false := by
      simpa [hkind] using kind_terminates i.opcode
    have hB := (block_get hblocks).mpr ⟨hb, rfl⟩
    have hC := (block_get hblocks).mpr ⟨hmore, rfl⟩
    have hsucc := (h.successors_other hb hlast hbr hrun (b + 1)).mpr ⟨hterm, hmore, rfl⟩
    obtain ⟨j, hj, -, hjnext, htransfers⟩ :=
      (hexact.successors b (b + 1) _ _ hB hC).mp ((mem_successors hblocks hB he).mpr hsucc)
    have hji : j = i := h.next_inj ((h.linear_iff j).mpr hj) ((h.linear_iff i).mpr hi)
      (hjnext.trans hnext.symm)
    rw [hji] at htransfers
    simp [Transfers, branchTarget_none _ hk (.inr (.inr hkind)), hno] at htransfers

end exactness

/-- The graph of an accepted function is a partition with exact edges exactly when the code is
split behind every instruction that does more than fall through. -/
theorem control_flow_exact_iff {info : BytecodeInfo} {cfg : CFG} (h : buildCFG info = .ok cfg) :
    ExactCFG info.bytecode cfg ↔ ∀ i, Linear info.bytecode i → SplitBehind info.bytecode i := by
  obtain ⟨s, edges, preds, depths, hbuilt, hblocks, hoffsets⟩ := buildCFG_built h
  constructor
  · exact fun hexact i hi => splitBehind_of_exact hbuilt hblocks hexact hi
  · exact fun hsplit => exact_of_splitBehind hbuilt hblocks hsplit hoffsets

/-- `goto8 L; push_i32 0; return` with `L` inside the operand of `push_i32`. -/
def jumpIntoOperand : BytecodeInfo := ⟨[243, 3, 1, 0, 0, 0, 0, 40], 0, 0⟩

/-- The builder accepts it as one block: the goto is not last in the block, so nothing looks at
its target. -/
theorem jump_into_operand_is_accepted : ∃ cfg, buildCFG jumpIntoOperand = .ok cfg ∧
    ¬ ExactCFG jumpIntoOperand.bytecode cfg := by
  let cfg : CFG := ⟨[⟨0, 8, 0, 3, some 0, some 0, [], [], true, false, false, false⟩], [0, 2, 7],
    [some 0, none, some 0, none, none, none, none, some 0, none], 1⟩
  refine ⟨cfg, ok_of_toOption (by decide +kernel), ?_⟩
  intro hexact
  have hi : Linear jumpIntoOperand.bytecode ⟨0, Op.goto8, 2⟩ := .first (by decide +kernel)
  obtain ⟨B, hB, hstart⟩ := hexact.targets _ 4 hi (by decide +kernel)
  rw [List.mem_singleton.mp hB] at hstart
  exact absurd hstart (by decide)

/-- `push_0; if_false8 L; push_0; return; L: push_1; return`. -/
def smallConditional : BytecodeInfo := ⟨[187, 241, 3, 187, 40, 188, 40], 0, 0⟩

theorem smallConditional_linear {i : Instruction} (h : Linear smallConditional.bytecode i) :
    i ∈ [⟨0, 187, 1⟩, ⟨1, 241, 2⟩, ⟨3, 187, 1⟩, ⟨4, 40, 1⟩, ⟨5, 188, 1⟩, ⟨6, 40, 1⟩] := by
  induction h with
  | first h =>
    have h0 : decodeAt smallConditional.bytecode 0 = some ⟨0, 187, 1⟩ := by decide +kernel
    rw [h0] at h
    cases h
    decide
  | next _ h ih =>
    simp only [List.mem_cons, List.not_mem_nil, or_false] at ih
    rcases ih with rfl | rfl | rfl | rfl | rfl | rfl
    · have h1 : decodeAt smallConditional.bytecode 1 = some ⟨1, 241, 2⟩ := by decide +kernel
      cases h1.symm.trans h
      decide
    · have h1 : decodeAt smallConditional.bytecode 3 = some ⟨3, 187, 1⟩ := by decide +kernel
      cases h1.symm.trans h
      decide
    · have h1 : decodeAt smallConditional.bytecode 4 = some ⟨4, 40, 1⟩ := by decide +kernel
      cases h1.symm.trans h
      decide
    · have h1 : decodeAt smallConditional.bytecode 5 = some ⟨5, 188, 1⟩ := by decide +kernel
      cases h1.symm.trans h
      decide
    · have h1 : decodeAt smallConditional.bytecode 6 = some ⟨6, 40, 1⟩ := by decide +kernel
      cases h1.symm.trans h
      decide
    · have h1 : decodeAt smallConditional.bytecode 7 = none := by decide +kernel
      cases h1.symm.trans h

theorem small_conditional_is_exact : ∃ cfg, buildCFG smallConditional = .ok cfg ∧
    ExactCFG smallConditional.bytecode cfg := by
  have hsome : (buildCFG smallConditional).toOption.isSome = true := by decide +kernel
  obtain ⟨cfg, hcfg⟩ := Option.isSome_iff_exists.mp hsome
  refine ⟨cfg, ok_of_toOption hcfg, (control_flow_exact_iff (ok_of_toOption hcfg)).mpr ?_⟩
  intro i hi
  have hmem := smallConditional_linear hi
  simp only [List.mem_cons, List.not_mem_nil, or_false] at hmem
  rcases hmem with rfl | rfl | rfl | rfl | rfl | rfl <;> trivial

end TurboJS.Frontend
