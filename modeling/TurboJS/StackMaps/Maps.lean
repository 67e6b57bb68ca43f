import TurboJS.Baseline.DeoptFrame
import TurboJS.Foundation.Sweep

namespace TurboJS.StackMaps

open IR Foundation Baseline

inductive Slot where
  | reg (r : Nat)
  | loc (l : Nat)
  deriving DecidableEq, Repr

structure SlotSet where
  registers : Word
  locals : Word
  deriving DecidableEq, Repr

def SlotSet.empty : SlotSet := ⟨0, 0⟩

def SlotSet.mem (s : SlotSet) : Slot → Bool
  | .reg r => s.registers.getLsbD r
  | .loc l => s.locals.getLsbD l

def SlotSet.union (s t : SlotSet) : SlotSet := ⟨s.registers ||| t.registers, s.locals ||| t.locals⟩

def SlotSet.diff (s t : SlotSet) : SlotSet :=
  ⟨s.registers &&& ~~~t.registers, s.locals &&& ~~~t.locals⟩

/-- `reg_bit` and `local_bit`. -/
def bit (n : Nat) : Word := if n < 64 then (1 : Word) <<< n else 0

def regSet (r : Nat) : SlotSet := ⟨bit r, 0⟩
def locSet (immediate : Word) : SlotSet := ⟨0, bit immediate.toNat⟩

/-- `instruction_use_def`: the slots that the table lists as read, and as written. -/
def instructionUseDef (i : Instruction) : SlotSet × SlotSet :=
  match i.opcode with
  | .argument | .constantI64 | .constantF64 => (.empty, regSet i.destination)
  | .addI64 | .subI64 | .mulI64 | .callNativeI64 | .callNativeF64
  | .addF64 | .subF64 | .mulF64 | .divF64 | .lessThanF64 | .lessEqualF64 | .equalF64
  | .addI32Checked | .subI32Checked | .mulI32Checked | .divI32Checked | .remI32Checked
  | .runtimeHelper | .lessThanI64 =>
    ((regSet i.left).union (regSet i.right), regSet i.destination)
  | .i64ToF64 | .f64ToI64Trunc => (regSet i.left, regSet i.destination)
  | .localGet => (locSet i.immediate, regSet i.destination)
  | .localSet => (regSet i.left, locSet i.immediate)
  | .branchTrue | .branchFalse | .returnI64 | .returnF64 => (regSet i.left, .empty)
  | _ => (.empty, .empty)

/-- The instructions whose live slots `compute_liveness` joins behind the one at `k`. -/
def listedSuccessors (f : Function) (k : Nat) (i : Instruction) : List Nat :=
  let behind := if k + 1 < f.instructions.length then [k + 1] else []
  if i.opcode = .jump then [i.target]
  else if i.opcode = .branchTrue ∨ i.opcode = .branchFalse then i.target :: behind
  else if i.opcode ≠ .returnI64 then behind
  else []

def joinAll (live : Nat → SlotSet) (ks : List Nat) : SlotSet :=
  ks.foldl (fun s k => s.union (live k)) .empty

/-- The live slots in front of the instruction at `k`. -/
def newLive (f : Function) (live : Nat → SlotSet) (k : Nat) : SlotSet :=
  match f.instructions[k]? with
  | none => live k
  | some i =>
    let (use, define) := instructionUseDef i
    use.union ((joinAll live (listedSuccessors f k i)).diff define)

/-- `compute_liveness`; `none` if the sweeps do not settle. -/
def computeLiveness (f : Function) : Option (Nat → SlotSet) :=
  settle (newLive f) f.instructions.length (f.instructions.length * 4 + 8) fun _ => .empty

/-- A slot is live at `k` by the reads and writes that the table lists. -/
inductive ListedLive (f : Function) : Nat → Slot → Prop where
  | use {k : Nat} {i : Instruction} {x : Slot} (hi : f.instructions[k]? = some i)
      (hu : (instructionUseDef i).1.mem x = true) : ListedLive f k x
  | pass {k k' : Nat} {i : Instruction} {x : Slot} (hi : f.instructions[k]? = some i)
      (hs : k' ∈ listedSuccessors f k i) (rest : ListedLive f k' x)
      (hd : (instructionUseDef i).2.mem x = false) : ListedLive f k x

section

variable {f : Function} {live : Nat → SlotSet} {k : Nat} {x : Slot}

@[simp] theorem SlotSet.mem_empty : SlotSet.empty.mem x = false := by
  cases x <;> simp [SlotSet.empty, SlotSet.mem]

@[simp] theorem SlotSet.mem_union (s t : SlotSet) : (s.union t).mem x = (s.mem x || t.mem x) := by
  cases x <;> simp [SlotSet.union, SlotSet.mem]

theorem SlotSet.mem_lt {s : SlotSet} {n : Nat} :
    (s.mem (.reg n) = true → n < 64) ∧ (s.mem (.loc n) = true → n < 64) :=
  ⟨fun h => BitVec.lt_of_getLsbD h, fun h => BitVec.lt_of_getLsbD h⟩

@[simp] theorem SlotSet.mem_diff (s t : SlotSet) : (s.diff t).mem x = (s.mem x && !t.mem x) := by
  have hdiff : ∀ a b : Word, ∀ j, (a &&& ~~~b).getLsbD j = (a.getLsbD j && !b.getLsbD j) := by
    intro a b j
    by_cases hj : j < 64
    · simp [hj]
    · rw [BitVec.getLsbD_of_ge _ _ (Nat.not_lt.mp hj), BitVec.getLsbD_of_ge a _ (Nat.not_lt.mp hj),
        Bool.false_and]
  cases x <;> simp only [SlotSet.diff, SlotSet.mem, hdiff]

theorem getLsbD_bit (n j : Nat) : (bit n).getLsbD j = (decide (j = n) && decide (n < 64)) := by
  unfold bit
  split
  · rename_i hn
    rw [BitVec.getLsbD_shiftLeft, Bool.eq_iff_iff]
    simp only [BitVec.ofNat_eq_ofNat, BitVec.getLsbD_one, Bool.and_eq_true, decide_eq_true_eq,
      Bool.not_eq_true', decide_eq_false_iff_not]
    omega
  · rename_i hn
    simp [hn]

theorem mem_joinAll (live : Nat → SlotSet) (ks : List Nat) :
    (joinAll live ks).mem x = true ↔ ∃ k ∈ ks, (live k).mem x = true := by
  have hfold : ∀ s : SlotSet, (ks.foldl (fun s k => s.union (live k)) s).mem x = true ↔
      s.mem x = true ∨ ∃ k ∈ ks, (live k).mem x = true := by
    intro s
    induction ks generalizing s with
    | nil => simp
    | cons k ks ih => simp [ih, or_assoc]
  simp [joinAll, hfold]

theorem listedSuccessors_lt {i : Instruction} {k' : Nat} (hverified : (irVerify f).status = .ok)
    (hi : f.instructions[k]? = some i) (hs : k' ∈ listedSuccessors f k i) :
    k' < f.instructions.length := by
  obtain ⟨-, hall, -⟩ := irVerify_ok.mp hverified
  have hcheck := hall i (List.mem_of_getElem? hi)
  have htarget := checkInstruction_target hcheck
  unfold listedSuccessors at hs
  dsimp only at hs
  have hbehind : ∀ k', k' ∈ (if k + 1 < f.instructions.length then [k + 1] else []) →
      k' < f.instructions.length := by
    intro k' hk'
    split at hk'
    · rename_i hlt
      rw [List.mem_singleton.mp hk']
      exact hlt
    · cases hk'
  split at hs
  · rename_i hop
    rw [List.mem_singleton.mp hs]
    exact htarget (.inl hop)
  · split at hs
    · rename_i hop
      rcases List.mem_cons.mp hs with rfl | hs
      · exact htarget (.inr hop)
      · exact hbehind k' hs
    · split at hs
      · exact hbehind k' hs
      · cases hs

theorem computeLiveness_iff (h : computeLiveness f = some live) (hk : k < f.instructions.length)
    (hverified : (irVerify f).status = .ok) :
    (live k).mem x = true ↔ ListedLive f k x := by
  have hstable := settle_stable h
  have hbelow : ∀ j, ∀ x, (live j).mem x = true → ListedLive f j x := by
    refine settle_keeps (P := fun j s => ∀ x, s.mem x = true → ListedLive f j x) ?_ ?_ h
    · intro t ht j x hx
      unfold newLive at hx
      cases hi : f.instructions[j]? with
      | none =>
        simp only [hi] at hx
        exact ht j x hx
      | some i =>
        simp only [hi, SlotSet.mem_union, SlotSet.mem_diff, Bool.or_eq_true, Bool.and_eq_true,
          Bool.not_eq_true'] at hx
        rcases hx with hx | ⟨hx, hd⟩
        · exact .use hi hx
        · obtain ⟨k', hk', hx⟩ := (mem_joinAll t _).mp hx
          exact .pass hi hk' (ht k' x hx) hd
    · intro j x hx
      simp at hx
  constructor
  · exact hbelow k x
  · intro hlive
    induction hlive with
    | use hi hu =>
      rw [← hstable _ hk]
      simp [newLive, hi, hu]
    | pass hi hs _ hd ih =>
      rw [← hstable _ hk]
      simp only [newLive, hi, SlotSet.mem_union, SlotSet.mem_diff, hd, Bool.not_false, Bool.and_true,
        Bool.or_eq_true, mem_joinAll]
      right
      exact ⟨_, hs, ih (listedSuccessors_lt hverified hi hs)⟩

end

inductive ValueKind where
  | unknown | i64 | i32 | boolean | f64 | heapReference | callableReference
  deriving DecidableEq, Repr

structure Hints where
  registers : Nat → ValueKind
  locals : Nat → ValueKind

def registerHint (f : Function) (hints : Hints) (r : Nat) : ValueKind :=
  if r < f.registerCount ∧ r < maxRegisters then hints.registers r else .unknown

def localHint (f : Function) (hints : Hints) (l : Nat) : ValueKind :=
  if l < f.localCount ∧ l < maxRegisters then hints.locals l else .unknown

inductive SafepointKind where
  | bailout | loopBackedge | ret | runtimeCall | clutchCall
  deriving DecidableEq, Repr

structure StackMap where
  kind : SafepointKind
  instructionIndex : Nat
  live : SlotSet
  references : SlotSet
  deriving DecidableEq, Repr

def SlotSet.inter (s t : SlotSet) : SlotSet := ⟨s.registers &&& t.registers, s.locals &&& t.locals⟩

/-- The bits below `count` that `p` selects. -/
def maskWhere (count : Nat) (p : Nat → Bool) : Word :=
  (List.range count).foldl (fun mask k => if p k then mask ||| bit k else mask) 0

structure Kinds where
  registers : Nat → ValueKind
  locals : Nat → ValueKind

def Kinds.references (kinds : Kinds) (f : Function) : SlotSet :=
  ⟨maskWhere (min f.registerCount 64) fun k => kinds.registers k = .heapReference,
    maskWhere (min f.localCount 64) fun k => kinds.locals k = .heapReference⟩

/-- The kind that the pass of `TurboJS_BaselineCompile` gives a destination. -/
def baselineResultKind : Opcode → ValueKind
  | .lessThanI64 | .lessThanF64 | .lessEqualF64 | .equalF64 => .boolean
  | .addI32Checked | .subI32Checked | .mulI32Checked | .divI32Checked | .remI32Checked => .i32
  | .constantF64 | .addF64 | .subF64 | .mulF64 | .divF64 | .i64ToF64 => .f64
  | _ => .i64

def Kinds.baselineStep (f : Function) (kinds : Kinds) (i : Instruction) : Kinds :=
  if marksDestination i.opcode then
    if i.destination < f.registerCount then
      { kinds with
        registers := Function.update kinds.registers i.destination (baselineResultKind i.opcode) }
    else kinds
  else if i.opcode = .localSet ∧ i.immediate.toNat < f.localCount then
    { kinds with
      locals := Function.update kinds.locals i.immediate.toNat
        (if i.left < f.registerCount then kinds.registers i.left else .unknown) }
  else kinds

/-- `register_kinds` and `local_kinds` when the pass is over. -/
def baselineKinds (f : Function) : Kinds :=
  f.instructions.foldl (Kinds.baselineStep f) ⟨fun _ => .unknown, fun _ => .unknown⟩

def isBackwardBranch (k : Nat) (i : Instruction) : Bool :=
  (i.opcode = .jump || i.opcode = .branchTrue || i.opcode = .branchFalse) && i.target ≤ k

def baselineSafepoint (k : Nat) (i : Instruction) : Option SafepointKind :=
  match i.opcode with
  | .addI32Checked | .subI32Checked | .mulI32Checked | .divI32Checked | .remI32Checked =>
    some .bailout
  | .runtimeHelper => some .runtimeCall
  | .callNativeI64 | .callNativeF64 => some .clutchCall
  | .returnI64 | .returnF64 => some .ret
  | _ => if isBackwardBranch k i then some .loopBackedge else none

/-- The stack map of `TurboJS_BaselineCompile` for the instruction at `k`. -/
def baselineStackMap (f : Function) (live : Nat → SlotSet) (k : Nat) : Option StackMap := do
  let i ← f.instructions[k]?
  let kind ← baselineSafepoint k i
  some ⟨kind, k, live k, ((baselineKinds f).references f).inter (live k)⟩

/-- `TurboJS_RelocateDeoptFrame` on the frame of a bailout at `k`. -/
def relocateDeoptFrame (f : Function) (live : SlotSet) (k : Nat) (relocate : Word → Word)
    (slots : Slot → Word) : Slot → Word
  | .reg r =>
    if r < f.registerCount ∧ r < 64 ∧ live.mem (.reg r) = true ∧
        (materializedAt f k).registers r = true ∧
        (baselineKinds f).registers r = .heapReference then relocate (slots (.reg r))
    else slots (.reg r)
  | .loc l =>
    if l < f.localCount ∧ l < 64 ∧ live.mem (.loc l) = true ∧
        (materializedAt f k).locals l = true ∧
        (baselineKinds f).locals l = .heapReference then relocate (slots (.loc l))
    else slots (.loc l)

/-- `result_kind`; `beyond` is what stands behind the array of 64 local kinds. -/
def resultKind (f : Function) (hints : Hints) (beyond : Nat → ValueKind) (kinds : Kinds)
    (i : Instruction) : ValueKind :=
  if registerHint f hints i.destination ≠ .unknown then registerHint f hints i.destination
  else match i.opcode with
    | .constantF64 | .addF64 | .subF64 | .mulF64 | .divF64 | .i64ToF64 => .f64
    | .lessThanI64 | .lessThanF64 | .lessEqualF64 | .equalF64 => .boolean
    | .addI32Checked | .subI32Checked | .mulI32Checked | .divI32Checked | .remI32Checked => .i32
    | .localGet =>
      if i.immediate.toNat < f.localCount then
        if i.immediate.toNat < maxRegisters then kinds.locals i.immediate.toNat
        else beyond i.immediate.toNat
      else .unknown
    | .argument =>
      if kinds.registers i.destination ≠ .unknown then kinds.registers i.destination else .i64
    | .constantI64 | .addI64 | .subI64 | .mulI64 | .f64ToI64Trunc => .i64
    | .runtimeHelper => kinds.registers i.destination
    | _ => .unknown

def Kinds.arm64Step (f : Function) (hints : Hints) (beyond : Nat → ValueKind) (kinds : Kinds)
    (i : Instruction) : Kinds :=
  if i.opcode = .localSet ∧ i.immediate.toNat < f.localCount ∧
      i.immediate.toNat < maxRegisters then
    { kinds with
      locals := Function.update kinds.locals i.immediate.toNat
        (if localHint f hints i.immediate.toNat ≠ .unknown then localHint f hints i.immediate.toNat
          else kinds.registers i.left) }
  else if i.destination < f.registerCount then
    { kinds with
      registers := Function.update kinds.registers i.destination
        (resultKind f hints beyond kinds i) }
  else kinds

def arm64Kinds (f : Function) (hints : Hints) (beyond : Nat → ValueKind) : Kinds :=
  f.instructions.foldl (Kinds.arm64Step f hints beyond)
    ⟨registerHint f hints, localHint f hints⟩

/-- The mask of all slots below `count`. -/
def lowBits (count : Nat) : Word :=
  if 64 ≤ count then BitVec.allOnes 64 else (1 : Word) <<< count - 1

def arm64Safepoint (k : Nat) (i : Instruction) : Option SafepointKind :=
  match i.opcode with
  | .addI32Checked | .subI32Checked | .mulI32Checked => some .bailout
  | .runtimeHelper => some .runtimeCall
  | .returnI64 | .returnF64 => some .ret
  | _ => if isBackwardBranch k i then some .loopBackedge else none

/-- The stack map of `TurboJS_Arm64LowerIREx` for the instruction at `k`. -/
def arm64StackMap (f : Function) (hints : Hints) (beyond : Nat → ValueKind) (k : Nat) :
    Option StackMap := do
  let i ← f.instructions[k]?
  let kind ← arm64Safepoint k i
  let all : SlotSet := ⟨lowBits f.registerCount, lowBits f.localCount⟩
  some ⟨kind, k, all, ((arm64Kinds f hints beyond).references f).inter all⟩

/-- `TurboJS_Arm64RelocateFrameReferences`; `none` is a map that names a local the frame does
not have. -/
def arm64RelocateFrameReferences (f : Function) (map : StackMap) (relocate : Word → Word)
    (slots : Slot → Word) : Option (Slot → Word) :=
  if (List.range 64).any fun l => map.references.mem (.loc l) && decide (f.localCount ≤ l) then none
  else some fun x =>
    match x with
    | .reg r =>
      if r < 64 ∧ r < f.registerCount ∧ map.references.mem (.reg r) = true then
        relocate (slots (.reg r))
      else slots (.reg r)
    | .loc l =>
      if l < 64 ∧ map.references.mem (.loc l) = true then relocate (slots (.loc l))
      else slots (.loc l)

end TurboJS.StackMaps
