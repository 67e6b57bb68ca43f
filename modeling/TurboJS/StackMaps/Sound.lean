import TurboJS.StackMaps.Maps

namespace TurboJS.StackMaps

open IR Foundation Baseline

def slotReads (i : Instruction) : List Slot :=
  match i.opcode with
  | .addI64 | .subI64 | .mulI64 | .addF64 | .subF64 | .mulF64 | .divF64
  | .lessThanF64 | .lessEqualF64 | .equalF64
  | .addI32Checked | .subI32Checked | .mulI32Checked | .divI32Checked | .remI32Checked
  | .runtimeHelper | .lessThanI64 => [.reg i.left, .reg i.right]
  | .i64ToF64 | .f64ToI64Trunc | .localSet | .branchTrue | .branchFalse | .returnI64 | .returnF64 =>
    [.reg i.left]
  | .localGet => [.loc i.immediate.toNat]
  | .callNativeI64 | .callNativeF64 =>
    match i.site with
    | none => []
    | some site =>
      (if site.hasReceiverShapeGuard then [.reg site.receiverRegister] else []) ++
        site.arguments.map .reg
  | _ => []

def slotWrite (i : Instruction) : Option Slot :=
  if marksDestination i.opcode then some (.reg i.destination)
  else if i.opcode = .localSet then some (.loc i.immediate.toNat)
  else none

def flowsTo (k : Nat) (i : Instruction) : List Nat :=
  match i.opcode with
  | .jump => [i.target]
  | .branchTrue | .branchFalse => [i.target, k + 1]
  | .returnI64 | .returnF64 => []
  | _ => [k + 1]

/-- The value of the slot is read on some path from `k` before it is overwritten. -/
inductive Live (f : Function) : Nat → Slot → Prop where
  | read {k : Nat} {i : Instruction} {x : Slot} (hi : f.instructions[k]? = some i)
      (hr : x ∈ slotReads i) : Live f k x
  | pass {k k' : Nat} {i : Instruction} {x : Slot} (hi : f.instructions[k]? = some i)
      (hs : k' ∈ flowsTo k i) (rest : Live f k' x) (hw : slotWrite i ≠ some x) : Live f k x

/-- Whether a value of this kind is a heap reference; a slot without a hint holds one if what
is copied into it is one. -/
def holdsReference (hint : ValueKind) (copied : Bool) : Bool :=
  if hint = .unknown then copied else hint = .heapReference

/-- The slots that hold heap references behind an instruction: as the hints declare, and as
local loads and stores copy. -/
def referencesAfter (f : Function) (hints : Hints) (i : Instruction) (refs : Slot → Bool) :
    Slot → Bool :=
  match slotWrite i with
  | none => refs
  | some (.reg r) => Function.update refs (.reg r) (holdsReference (registerHint f hints r)
      (i.opcode = .localGet && refs (.loc i.immediate.toNat)))
  | some (.loc l) => Function.update refs (.loc l)
      (holdsReference (localHint f hints l) (refs (.reg i.left)))

/-- An execution comes to `k`, with heap references in these slots. -/
inductive Reaches (f : Function) (hints : Hints) : Nat → (Slot → Bool) → Prop where
  | entry : Reaches f hints 0 fun _ => false
  | step {k k' : Nat} {refs : Slot → Bool} {i : Instruction} (h : Reaches f hints k refs)
      (hi : f.instructions[k]? = some i) (hs : k' ∈ flowsTo k i) :
      Reaches f hints k' (referencesAfter f hints i refs)

/-- The map at `k` names every live slot, and among the slots that it names exactly the heap
references; relocation changes these and no other. -/
structure MapSound (f : Function) (k : Nat) (refs : Slot → Bool) (map : StackMap)
    (relocated : (Word → Word) → (Slot → Word) → Option (Slot → Word)) : Prop where
  covers : ∀ x, Live f k x → map.live.mem x = true
  exact : ∀ x, map.live.mem x = true → (map.references.mem x = true ↔ refs x = true)
  relocates : ∀ relocate slots, relocated relocate slots =
    some fun x => if map.live.mem x = true ∧ refs x = true then relocate (slots x) else slots x

/-- The stack maps of both compilers at `k`, where they have one. -/
def StackMapsSound (f : Function) (hints : Hints) (beyond : Nat → ValueKind)
    (live : Nat → SlotSet) (k : Nat) (refs : Slot → Bool) : Prop :=
  (∀ map, baselineStackMap f live k = some map → MapSound f k refs map
    fun relocate slots => some (relocateDeoptFrame f (live k) k relocate slots)) ∧
  (∀ map, arm64StackMap f hints beyond k = some map → MapSound f k refs map
    (arm64RelocateFrameReferences f map))

def InMasks (f : Function) : Slot → Prop
  | .reg r => r < f.registerCount
  | .loc l => l < f.localCount ∧ l < 64

/-- What the maps need: at a baseline safepoint every live slot is live by the listed reads
(call operands are not among them, nor locals from 64 on) and none holds a heap reference; at
an ARM64 safepoint every live slot is in the masks, and the kind that a slot has behind its
last definition in program order is HEAP_REFERENCE exactly if it holds one. -/
def MapsPrecise (f : Function) (hints : Hints) (beyond : Nat → ValueKind) (k : Nat)
    (refs : Slot → Bool) : Prop :=
  ((∃ i, f.instructions[k]? = some i ∧ (baselineSafepoint k i).isSome = true) →
    (∀ x, Live f k x → ListedLive f k x) ∧ ∀ x, ListedLive f k x → refs x = false) ∧
  ((∃ i, f.instructions[k]? = some i ∧ (arm64Safepoint k i).isSome = true) →
    (∀ x, Live f k x → InMasks f x) ∧
    (∀ r, r < f.registerCount →
      ((arm64Kinds f hints beyond).registers r = .heapReference ↔ refs (.reg r) = true)) ∧
    ∀ l, l < f.localCount → l < 64 →
      ((arm64Kinds f hints beyond).locals l = .heapReference ↔ refs (.loc l) = true))

section

variable {f : Function} {hints : Hints} {beyond : Nat → ValueKind} {live : Nat → SlotSet}
  {k : Nat} {refs : Slot → Bool} {x : Slot}

theorem getLsbD_maskWhere {count : Nat} (hc : count ≤ 64) (p : Nat → Bool) (j : Nat) :
    (maskWhere count p).getLsbD j = (decide (j < count) && p j) := by
  unfold maskWhere
  induction count with
  | zero => simp
  | succ n ih =>
    rw [List.range_succ, List.foldl_append]
    have hrest := ih (by omega)
    simp only [List.foldl_cons, List.foldl_nil]
    split
    · rename_i hp
      rw [BitVec.getLsbD_or, hrest, getLsbD_bit, Bool.eq_iff_iff]
      simp only [Bool.or_eq_true, Bool.and_eq_true, decide_eq_true_eq]
      constructor
      · rintro (⟨hlt, hj⟩ | ⟨rfl, -⟩)
        · exact ⟨by omega, hj⟩
        · exact ⟨by omega, hp⟩
      · rintro ⟨hlt, hj⟩
        by_cases hjn : j = n
        · exact .inr ⟨hjn, by omega⟩
        · exact .inl ⟨by omega, hj⟩
    · rename_i hp
      rw [hrest, Bool.eq_iff_iff]
      simp only [Bool.and_eq_true, decide_eq_true_eq]
      constructor
      · rintro ⟨hlt, hj⟩
        exact ⟨by omega, hj⟩
      · rintro ⟨hlt, hj⟩
        refine ⟨?_, hj⟩
        by_cases hjn : j = n
        · subst hjn
          exact absurd hj hp
        · omega

theorem getLsbD_lowBits (count j : Nat) :
    (lowBits count).getLsbD j = (decide (j < count) && decide (j < 64)) := by
  unfold lowBits
  split
  · rename_i hc
    rw [BitVec.getLsbD_allOnes, Bool.eq_iff_iff]
    simp only [Bool.and_eq_true, decide_eq_true_eq]
    omega
  · rename_i hc
    have hpow : 2 ^ count < 2 ^ 64 := Nat.pow_lt_pow_right (by omega) (by omega)
    have hone : ((1 : Word) <<< count).toNat = 2 ^ count := by
      rw [BitVec.toNat_shiftLeft, Nat.shiftLeft_eq]
      simp only [BitVec.ofNat_eq_ofNat, BitVec.toNat_ofNat]
      omega
    have hval : ((1 : Word) <<< count - 1).toNat = 2 ^ count - 1 := by
      have hpos : 0 < 2 ^ count := Nat.two_pow_pos count
      rw [BitVec.toNat_sub_of_le]
      · rw [hone]
        rfl
      · rw [BitVec.le_def, hone]
        exact hpos
    rw [BitVec.getLsbD, hval, Nat.testBit_two_pow_sub_one, Bool.eq_iff_iff]
    simp only [Bool.and_eq_true, decide_eq_true_eq]
    omega

@[simp] theorem SlotSet.mem_inter (s t : SlotSet) : (s.inter t).mem x = (s.mem x && t.mem x) := by
  cases x <;> simp [SlotSet.inter, SlotSet.mem]

theorem Kinds.mem_references (kinds : Kinds) : (kinds.references f).mem x = true ↔
    match x with
    | .reg r => r < min f.registerCount 64 ∧ kinds.registers r = .heapReference
    | .loc l => l < min f.localCount 64 ∧ kinds.locals l = .heapReference := by
  cases x <;> simp [Kinds.references, SlotSet.mem, getLsbD_maskWhere]

theorem baselineKinds_no_reference (f : Function) (n : Nat) :
    (baselineKinds f).registers n ≠ .heapReference ∧ (baselineKinds f).locals n ≠ .heapReference := by
  have hstep : ∀ (kinds : Kinds) (i : Instruction),
      (∀ n, kinds.registers n ≠ .heapReference ∧ kinds.locals n ≠ .heapReference) →
      ∀ n, (kinds.baselineStep f i).registers n ≠ .heapReference ∧
        (kinds.baselineStep f i).locals n ≠ .heapReference := by
    intro kinds i hkinds n
    unfold Kinds.baselineStep
    split
    · split
      · refine ⟨?_, (hkinds n).2⟩
        simp only [Function.update_apply]
        split
        · unfold baselineResultKind
          split <;> simp
        · exact (hkinds n).1
      · exact hkinds n
    · split
      · refine ⟨(hkinds n).1, ?_⟩
        simp only [Function.update_apply]
        split
        · split
          · exact (hkinds i.left).1
          · simp
        · exact (hkinds n).2
      · exact hkinds n
  have hfold : ∀ (is : List Instruction) (kinds : Kinds),
      (∀ n, kinds.registers n ≠ .heapReference ∧ kinds.locals n ≠ .heapReference) →
      ∀ n, (is.foldl (Kinds.baselineStep f) kinds).registers n ≠ .heapReference ∧
        (is.foldl (Kinds.baselineStep f) kinds).locals n ≠ .heapReference := by
    intro is
    induction is with
    | nil => exact fun _ h => h
    | cons i is ih => exact fun kinds h => ih _ (hstep kinds i h)
  exact hfold f.instructions _ (fun _ => ⟨by simp, by simp⟩) n

theorem relocateDeoptFrame_eq (live : SlotSet) (relocate : Word → Word) (slots : Slot → Word) :
    relocateDeoptFrame f live k relocate slots = slots := by
  funext x
  cases x with
  | reg r =>
    rw [relocateDeoptFrame, if_neg]
    rintro ⟨-, -, -, -, hkind⟩
    exact (baselineKinds_no_reference f r).1 hkind
  | loc l =>
    rw [relocateDeoptFrame, if_neg]
    rintro ⟨-, -, -, -, hkind⟩
    exact (baselineKinds_no_reference f l).2 hkind

theorem baselineMap_sound_iff (hverified : (irVerify f).status = .ok)
    (hlive : computeLiveness f = some live) :
    (∀ map, baselineStackMap f live k = some map → MapSound f k refs map
      fun relocate slots => some (relocateDeoptFrame f (live k) k relocate slots)) ↔
    ((∃ i, f.instructions[k]? = some i ∧ (baselineSafepoint k i).isSome = true) →
      (∀ x, Live f k x → ListedLive f k x) ∧ ∀ x, ListedLive f k x → refs x = false) := by
  have hnone : ∀ x, (((baselineKinds f).references f).inter (live k)).mem x = false := by
    intro x
    rw [SlotSet.mem_inter, Bool.and_eq_false_iff]
    left
    by_contra hmem
    rw [Bool.not_eq_false, Kinds.mem_references] at hmem
    cases x with
    | reg r => exact (baselineKinds_no_reference f r).1 hmem.2
    | loc l => exact (baselineKinds_no_reference f l).2 hmem.2
  cases hi : f.instructions[k]? with
  | none => simp [baselineStackMap, hi]
  | some i =>
    have hk : k < f.instructions.length := (List.getElem?_eq_some_iff.mp hi).1
    have hlisted : ∀ x, (live k).mem x = true ↔ ListedLive f k x :=
      fun x => computeLiveness_iff hlive hk hverified
    cases hkind : baselineSafepoint k i with
    | none => simp [baselineStackMap, hi, hkind]
    | some kind =>
      have hmap : baselineStackMap f live k =
          some ⟨kind, k, live k, ((baselineKinds f).references f).inter (live k)⟩ := by
        simp [baselineStackMap, hi, hkind]
      constructor
      · intro hsound _
        have h := hsound _ hmap
        refine ⟨fun x hx => (hlisted x).mp (h.covers x hx), ?_⟩
        intro x hx
        have hexact := h.exact x ((hlisted x).mpr hx)
        rw [hnone x] at hexact
        simpa using hexact
      · intro hprecise map hm
        rw [hmap] at hm
        cases hm
        obtain ⟨hcovers, hfree⟩ := hprecise ⟨i, rfl, by simp [hkind]⟩
        refine ⟨fun x hx => (hlisted x).mpr (hcovers x hx), ?_, ?_⟩
        · intro x hx
          rw [hnone x, hfree x ((hlisted x).mp hx)]
        · intro relocate slots
          rw [relocateDeoptFrame_eq, Option.some.injEq]
          funext x
          rw [if_neg]
          rintro ⟨hx, hr⟩
          rw [hfree x ((hlisted x).mp hx)] at hr
          cases hr

theorem mem_all (hverified : (irVerify f).status = .ok) :
    (⟨lowBits f.registerCount, lowBits f.localCount⟩ : SlotSet).mem x = true ↔ InMasks f x := by
  have hregisters : f.registerCount ≤ maxRegisters := (irVerify_ok.mp hverified).1
  cases x with
  | reg r =>
    simp only [SlotSet.mem, getLsbD_lowBits, InMasks, Bool.and_eq_true, decide_eq_true_eq]
    unfold maxRegisters at hregisters
    omega
  | loc l => simp [SlotSet.mem, getLsbD_lowBits, InMasks]

theorem mem_arm64References (hverified : (irVerify f).status = .ok) (kinds : Kinds) :
    ((kinds.references f).inter ⟨lowBits f.registerCount, lowBits f.localCount⟩).mem x = true ↔
      InMasks f x ∧ match x with
        | .reg r => kinds.registers r = .heapReference
        | .loc l => kinds.locals l = .heapReference := by
  have hregisters : f.registerCount ≤ maxRegisters := (irVerify_ok.mp hverified).1
  unfold maxRegisters at hregisters
  rw [SlotSet.mem_inter, Bool.and_eq_true, Kinds.mem_references, mem_all hverified]
  cases x with
  | reg r =>
    simp only [InMasks, Nat.lt_min]
    constructor
    · rintro ⟨⟨-, hkind⟩, hr⟩
      exact ⟨hr, hkind⟩
    · rintro ⟨hr, hkind⟩
      exact ⟨⟨⟨hr, by omega⟩, hkind⟩, hr⟩
  | loc l =>
    simp only [InMasks, Nat.lt_min]
    constructor
    · rintro ⟨⟨-, hkind⟩, hl⟩
      exact ⟨hl, hkind⟩
    · rintro ⟨hl, hkind⟩
      exact ⟨⟨hl, hkind⟩, hl⟩

theorem arm64Relocate_eq {map : StackMap} (hmasks : ∀ x, map.references.mem x = true → InMasks f x)
    (relocate : Word → Word) (slots : Slot → Word) :
    arm64RelocateFrameReferences f map relocate slots =
      some fun x => if map.references.mem x = true then relocate (slots x) else slots x := by
  unfold arm64RelocateFrameReferences
  rw [if_neg]
  · rw [Option.some.injEq]
    funext x
    cases x with
    | reg r =>
      have hiff : (r < 64 ∧ r < f.registerCount ∧ map.references.mem (.reg r) = true) ↔
          map.references.mem (.reg r) = true := by
        constructor
        · exact fun h => h.2.2
        · intro h
          exact ⟨SlotSet.mem_lt.1 h, hmasks _ h, h⟩
      simp only [hiff]
    | loc l =>
      have hiff : (l < 64 ∧ map.references.mem (.loc l) = true) ↔
          map.references.mem (.loc l) = true := by
        constructor
        · exact fun h => h.2
        · intro h
          exact ⟨SlotSet.mem_lt.2 h, h⟩
      simp only [hiff]
  · simp only [List.any_eq_true, Bool.and_eq_true, decide_eq_true_eq, not_exists, not_and]
    intro l _ hmem hle
    exact absurd (hmasks _ hmem).1 (Nat.not_lt.mpr hle)

theorem arm64Map_sound_iff (hverified : (irVerify f).status = .ok) :
    (∀ map, arm64StackMap f hints beyond k = some map → MapSound f k refs map
      (arm64RelocateFrameReferences f map)) ↔
    ((∃ i, f.instructions[k]? = some i ∧ (arm64Safepoint k i).isSome = true) →
      (∀ x, Live f k x → InMasks f x) ∧
      (∀ r, r < f.registerCount →
        ((arm64Kinds f hints beyond).registers r = .heapReference ↔ refs (.reg r) = true)) ∧
      ∀ l, l < f.localCount → l < 64 →
        ((arm64Kinds f hints beyond).locals l = .heapReference ↔ refs (.loc l) = true)) := by
  cases hi : f.instructions[k]? with
  | none => simp [arm64StackMap, hi]
  | some i =>
    cases hkind : arm64Safepoint k i with
    | none => simp [arm64StackMap, hi, hkind]
    | some kind =>
      generalize hkinds : arm64Kinds f hints beyond = kinds
      have hmap : arm64StackMap f hints beyond k =
          some ⟨kind, k, ⟨lowBits f.registerCount, lowBits f.localCount⟩,
            (kinds.references f).inter ⟨lowBits f.registerCount, lowBits f.localCount⟩⟩ := by
        simp [arm64StackMap, hi, hkind, hkinds]
      constructor
      · intro hsound _
        have h := hsound _ hmap
        refine ⟨fun x hx => (mem_all hverified).mp (h.covers x hx), ?_, ?_⟩
        · intro r hr
          have hin : InMasks f (.reg r) := hr
          have hexact := h.exact (.reg r) ((mem_all hverified).mpr hin)
          rw [mem_arm64References hverified] at hexact
          exact ⟨fun hk => hexact.mp ⟨hin, hk⟩, fun hr => (hexact.mpr hr).2⟩
        · intro l hl hlt
          have hin : InMasks f (.loc l) := ⟨hl, hlt⟩
          have hexact := h.exact (.loc l) ((mem_all hverified).mpr hin)
          rw [mem_arm64References hverified] at hexact
          exact ⟨fun hk => hexact.mp ⟨hin, hk⟩, fun hr => (hexact.mpr hr).2⟩
      · intro hprecise map hm
        rw [hmap] at hm
        cases hm
        obtain ⟨hcovers, hregisters, hlocals⟩ := hprecise ⟨i, rfl, by simp [hkind]⟩
        have hexact : ∀ x, InMasks f x →
            (((kinds.references f).inter ⟨lowBits f.registerCount, lowBits f.localCount⟩).mem x =
              true ↔ refs x = true) := by
          intro x hx
          rw [mem_arm64References hverified]
          cases x with
          | reg r => exact ⟨fun h => (hregisters r hx).mp h.2, fun h => ⟨hx, (hregisters r hx).mpr h⟩⟩
          | loc l =>
            exact ⟨fun h => (hlocals l hx.1 hx.2).mp h.2,
              fun h => ⟨hx, (hlocals l hx.1 hx.2).mpr h⟩⟩
        refine ⟨fun x hx => (mem_all hverified).mpr (hcovers x hx), ?_, ?_⟩
        · intro x hx
          exact hexact x ((mem_all hverified).mp hx)
        · intro relocate slots
          have hmasks : ∀ x, ((kinds.references f).inter
              ⟨lowBits f.registerCount, lowBits f.localCount⟩).mem x = true → InMasks f x :=
            fun x hx => ((mem_arm64References hverified kinds).mp hx).1
          rw [arm64Relocate_eq hmasks, Option.some.injEq]
          funext x
          have hiff : ((kinds.references f).inter
              ⟨lowBits f.registerCount, lowBits f.localCount⟩).mem x = true ↔
              (⟨lowBits f.registerCount, lowBits f.localCount⟩ : SlotSet).mem x = true ∧
                refs x = true := by
            rw [mem_all hverified]
            constructor
            · intro hx
              exact ⟨hmasks x hx, (hexact x (hmasks x hx)).mp hx⟩
            · rintro ⟨hx, hr⟩
              exact (hexact x hx).mpr hr
          simp only [hiff]

end

def noHints : Hints := ⟨fun _ => .unknown, fun _ => .unknown⟩

def constantReturn : Function where
  instructions := [{ opcode := .constantI64, destination := 0, immediate := 7 },
    { opcode := .returnI64, left := 0 }]
  registerCount := 1
  argumentCount := 0
  localCount := 0

def referenceHints : Hints where
  registers := fun r => if r = 0 then .heapReference else .unknown
  locals := fun _ => .unknown

def keptReference : Function where
  instructions := [{ opcode := .argument, destination := 0, immediate := 0 },
    { opcode := .argument, destination := 1, immediate := 1 },
    { opcode := .addI32Checked, destination := 2, left := 1, right := 1 },
    { opcode := .returnI64, left := 0 }]
  registerCount := 3
  argumentCount := 2
  localCount := 0

end TurboJS.StackMaps
