import TurboJS.Baseline.Resume

namespace TurboJS.Baseline

open IR Foundation StackMaps

def irResumeAfterBailout (env : Env) (f : Function) (frame : DeoptFrame) (slowPathResult : Word) :
    Outcome :=
  if !resumes f frame then .status .invalidArgument
  else match f.instructions[frame.instructionIndex]? with
    | none => .status .invalidArgument
    | some failed =>
      if resumable failed.opcode then
        executeFrom env f (stepLimit f)
          ((frame.restore .zero).setRegister failed.destination slowPathResult)
          (frame.instructionIndex + 1)
      else .status .unsupported

/-- `TurboJS_NativeLastDeoptFrame`, for the machine that has returned. -/
def lastDeoptFrame (f : Function) (m : Machine) : DeoptFrame :=
  let reason := bailoutReason (((m.word 0).getD 0).setWidth 32)
  let index := (m.deopt 0).toNat
  { reason := reason
    instructionIndex := index
    registerCount := f.registerCount
    localCount := f.localCount
    registerMask := maskWhere 64 (deoptMasks f index).registers
    localMask := maskWhere 64 (deoptMasks f index).locals
    registerValues := (List.range f.registerCount).map fun r => m.deopt (1 + r)
    localValues := (List.range f.localCount).map fun l => m.deopt (1 + (f.registerCount + l))
    registerKinds := f.registerCount
    localKinds := f.localCount }

def frameValue (frame : DeoptFrame) : Slot → Option Word
  | .reg r => if frame.registerMask.getLsbD r then frame.registerValues[r]? else none
  | .loc l => if frame.localMask.getLsbD l then frame.localValues[l]? else none

def frameKind (f : Function) : Slot → ValueKind
  | .reg r => (baselineKinds f).registers r
  | .loc l => (baselineKinds f).locals l

inductive BoxedValue where
  | undefined
  | int32 (v : BitVec 32)
  | int64 (v : Word)
  | boolean (b : Bool)
  | float64 (bits : Word)
  | callable (bits : Word)
  | nullReference
  deriving DecidableEq, Repr

/-- `box_value` without rooting: a heap reference does not escape. -/
def boxValue (v : Word) : ValueKind → BoxedValue
  | .i32 => .int32 (v.setWidth 32)
  | .boolean => .boolean (v != 0)
  | .i64 => .int64 v
  | .f64 => .float64 v
  | .callableReference => .callable v
  | .heapReference => if v = 0 then .nullReference else .undefined
  | .unknown => .undefined

def boxSlot (f : Function) (frame : DeoptFrame) (x : Slot) : BoxedValue :=
  match frameValue frame x with
  | none => .undefined
  | some v => boxValue v (frameKind f x)

/-- The value that the slot has at `k` may be read behind `k`. -/
def LiveAfter (f : Function) (k : Nat) (x : Slot) : Prop :=
  ∃ i k', f.instructions[k]? = some i ∧ k' ∈ flowsTo k i ∧ Live f k' x ∧ slotWrite i ≠ some x

def kindsAfter (i : Instruction) (kinds : Slot → ValueKind) : Slot → ValueKind :=
  match slotWrite i with
  | none => kinds
  | some (.reg r) => Function.update kinds (.reg r) (baselineResultKind i.opcode)
  | some (.loc l) => Function.update kinds (.loc l) (kinds (.reg i.left))

inductive Traced (w : World) (f : Function) : NativeState → (Slot → ValueKind) → Prop where
  | entry : Traced w f .initial fun _ => .unknown
  | step {s s' : NativeState} {kinds : Slot → ValueKind} {i : Instruction} (h : Traced w f s kinds)
      (hi : f.instructions[s.pc]? = some i) (hs : nativeNext w f s = some s') :
      Traced w f s' (kindsAfter i kinds)

def referenceNext (w : World) (f : Function) (s : Nat × Frame) : Option (Nat × Frame) := do
  let i ← f.instructions[s.1]?
  match refEffect w.env f w.arguments i s.2 with
  | .next fr => some (s.1 + 1, fr)
  | .goto t fr => some (t, fr)
  | _ => none

/-- The interpreter comes to `k` with this frame. -/
def ReferenceReaches (w : World) (f : Function) (k : Nat) (fr : Frame) : Prop :=
  Runs (referenceNext w f) (fun _ => True) (0, .zero) (k, fr)

def hasResult (i : Instruction) : Bool := resumable i.opcode || i.opcode = .callNativeF64

/-- The deopt frame of a bailout holds what is read later, as the interpreter has it, and
resuming goes on as the interpreter does. -/
structure DeoptComplete (w : World) (f : Function) (s : NativeState) (reaching : Slot → ValueKind)
    (reason : BailoutReason) (m : Machine) : Prop where
  bailed : (lastDeoptFrame f m).reason = reason ∧ (lastDeoptFrame f m).instructionIndex = s.pc
  reference : ReferenceReaches w f s.pc s.frame
  values : ∀ x, LiveAfter f s.pc x →
    frameValue (lastDeoptFrame f m) x = some (slotValue s.frame x)
  kinds : ∀ x, LiveAfter f s.pc x → frameKind f x = reaching x
  boxed : ∀ x, LiveAfter f s.pc x →
    boxSlot f (lastDeoptFrame f m) x = boxValue (slotValue s.frame x) (reaching x)
  resumed : ∀ i v, f.instructions[s.pc]? = some i → hasResult i = true →
    irResumeAfterBailout w.env f (lastDeoptFrame f m) v =
      executeFrom w.env f (stepLimit f) (s.frame.setRegister i.destination v) (s.pc + 1)

def Slot.index : Slot → Nat
  | .reg r => r
  | .loc l => l

def slotCell (f : Function) : Slot → Nat
  | .reg r => r
  | .loc l => f.registerCount + l

/-- An instruction in front of `k` in program order defines the slot, and the masks have a
bit for it. -/
def DefinedBefore (f : Function) (k : Nat) (x : Slot) : Prop :=
  Slot.index x < 64 ∧ ∃ j i, j < k ∧ f.instructions[j]? = some i ∧ slotWrite i = some x

/-- What a deopt frame at a bailout needs: each slot read later is defined in front of the
bailout in program order, has been written by this run, and its last definition in program
order has the kind of the one that reached the bailout; and the instruction is no native call
of a double. -/
structure Restorable (f : Function) (s : NativeState) (reaching : Slot → ValueKind) : Prop where
  earlier : ∀ x, LiveAfter f s.pc x → DefinedBefore f s.pc x
  written : ∀ x, LiveAfter f s.pc x → slotCell f x ∈ s.written
  kinds : ∀ x, LiveAfter f s.pc x → frameKind f x = reaching x
  resumable : ∀ i, f.instructions[s.pc]? = some i → i.opcode ≠ .callNativeF64

section

variable {w : World} {f : Function} {code : List Op} {s : NativeState}
  {kinds : Slot → ValueKind} {reason : BailoutReason} {m : Machine} {k : Nat} {x : Slot}

theorem Mask.add_apply (mask : Mask) (bit n : Nat) :
    mask.add bit n = true ↔ mask n = true ∨ n = bit ∧ bit < 64 := by
  unfold Mask.add
  split
  · rename_i hb
    rw [Function.update_apply]
    split
    · rename_i hn
      simp [hn, hb]
    · rename_i hn
      simp [hn]
  · rename_i hb
    simp [hb]

def Masks.mem (masks : Masks) : Slot → Bool
  | .reg r => masks.registers r
  | .loc l => masks.locals l

theorem Masks.mem_mark (masks : Masks) (i : Instruction) :
    (masks.mark i).mem x = true ↔
      masks.mem x = true ∨ slotWrite i = some x ∧ Slot.index x < 64 := by
  unfold Masks.mark slotWrite
  split
  · cases x with
    | reg r =>
      simp only [Masks.mem, Mask.add_apply, Option.some.injEq, Slot.reg.injEq, Slot.index]
      constructor
      · rintro (h | ⟨rfl, h⟩)
        · exact .inl h
        · exact .inr ⟨rfl, h⟩
      · rintro (h | ⟨rfl, h⟩)
        · exact .inl h
        · exact .inr ⟨rfl, h⟩
    | loc l => simp [Masks.mem]
  · split
    · cases x with
      | reg r => simp [Masks.mem]
      | loc l =>
        simp only [Masks.mem, Mask.add_apply, Option.some.injEq, Slot.loc.injEq, Slot.index]
        constructor
        · rintro (h | ⟨rfl, h⟩)
          · exact .inl h
          · exact .inr ⟨rfl, h⟩
        · rintro (h | ⟨rfl, h⟩)
          · exact .inl h
          · exact .inr ⟨rfl, h⟩
    · simp

theorem mem_materializedAt (hk : k ≤ f.instructions.length) :
    (materializedAt f k).mem x = true ↔ DefinedBefore f k x := by
  unfold materializedAt
  induction k with
  | zero =>
    constructor
    · intro h
      cases x <;> simp [Masks.mem, Mask.empty] at h
    · rintro ⟨-, j, -, hj, -⟩
      omega
  | succ n ih =>
    have hi : f.instructions[n]? = some f.instructions[n] := List.getElem?_eq_getElem (by omega)
    rw [List.take_add_one, hi, Option.toList_some, List.foldl_append, List.foldl_cons,
      List.foldl_nil, Masks.mem_mark, ih (by omega)]
    constructor
    · rintro (⟨hx, j, i, hj, hget, hw⟩ | ⟨hw, hx⟩)
      · exact ⟨hx, j, i, by omega, hget, hw⟩
      · exact ⟨hx, n, _, by omega, hi, hw⟩
    · rintro ⟨hx, j, i, hj, hget, hw⟩
      by_cases hjn : j = n
      · subst hjn
        rw [hi] at hget
        cases hget
        exact .inr ⟨hw, hx⟩
      · exact .inl ⟨hx, j, i, by omega, hget, hw⟩

theorem slotWrite_bound {i : Instruction} (hcheck : checkInstruction f i = none)
    (hw : slotWrite i = some x) :
    match x with
    | .reg r => r < f.registerCount
    | .loc l => l < f.localCount := by
  unfold slotWrite marksDestination at hw
  cases hop : i.opcode
  case callNativeI64 | callNativeF64 =>
    cases hs : i.site with
    | none => simp [checkInstruction, hop, hs] at hcheck
    | some site =>
      simp [checkInstruction, hop, hs, validRegister, check_passed] at hcheck
      simp only [hop, if_true, Option.some.injEq] at hw
      subst hw
      simp only
      omega
  all_goals simp [hop] at hw
  all_goals
    subst hw
    simp [checkInstruction, hop, validRegister, validIndex, check_passed] at hcheck ⊢
    omega

theorem frameValue_lastDeoptFrame (hk : s.pc < f.instructions.length)
    (hindex : (lastDeoptFrame f m).instructionIndex = s.pc) (hx : DefinedBefore f s.pc x)
    (hcheck : ∀ (j : Nat) (i : Instruction), f.instructions[j]? = some i →
      checkInstruction f i = none) :
    frameValue (lastDeoptFrame f m) x = some (m.deopt (1 + slotCell f x)) := by
  have hnat : (m.deopt 0).toNat = s.pc := hindex
  have hmem := (mem_materializedAt (Nat.le_of_lt hk)).mpr hx
  obtain ⟨hsmall, j, i, -, hget, hw⟩ := hx
  have hbound := slotWrite_bound (hcheck j i hget) hw
  cases x with
  | reg r =>
    simp only [Masks.mem, Slot.index] at hmem hsmall hbound
    have hbit : (maskWhere 64 (materializedAt f s.pc).registers).getLsbD r = true := by
      rw [getLsbD_maskWhere (Nat.le_refl 64), hmem, decide_eq_true hsmall]
      rfl
    simp only [frameValue, lastDeoptFrame, hnat, deoptMasks, if_pos hk, hbit, if_true]
    simp [hbound, slotCell]
  | loc l =>
    simp only [Masks.mem, Slot.index] at hmem hsmall hbound
    have hbit : (maskWhere 64 (materializedAt f s.pc).locals).getLsbD l = true := by
      rw [getLsbD_maskWhere (Nat.le_refl 64), hmem, decide_eq_true hsmall]
      rfl
    simp only [frameValue, lastDeoptFrame, hnat, deoptMasks, if_pos hk, hbit, if_true]
    simp [hbound, slotCell]

theorem Traced.follows (h : Traced w f s kinds) : Follows w f .initial s := by
  induction h with
  | entry => exact .refl _
  | step _ _ hs ih => exact ih.trans (.one trivial hs)

theorem reference_reaches (hcode : baselineCode f = some code)
    (hrun : ∀ t, Follows w f .initial t → Comparable w f t) (h : Follows w f .initial s) :
    ReferenceReaches w f s.pc s.frame := by
  refine Runs.keeps (P := fun t => Follows w f .initial t ∧ ReferenceReaches w f t.pc t.frame)
    ?_ h ⟨.refl _, .refl _⟩ |>.2
  rintro t t' ⟨ht, hreference⟩ hs
  refine ⟨ht.trans (.one trivial hs), hreference.trans (.one trivial ?_)⟩
  obtain ⟨i, hi, hcases⟩ := nativeNext_cases hs
  rcases (hrun t ht).compares hcode hi with ⟨hsame, -⟩ | ⟨reason, hbail, -⟩
  · rcases hcases with ⟨fr, he, rfl⟩ | ⟨t', fr, he, rfl⟩
    · rw [hsame] at he
      simp [referenceNext, hi, he]
    · rw [hsame] at he
      simp [referenceNext, hi, he]
  · rcases hcases with ⟨fr, he, -⟩ | ⟨t', fr, he, -⟩
    · rw [hbail] at he
      cases he
    · rw [hbail] at he
      cases he

theorem restore_slotValue {frame : DeoptFrame} {v : Word}
    (hr : frame.registerCount = frame.registerValues.length)
    (hl : frame.localCount = frame.localValues.length) (h : frameValue frame x = some v) :
    slotValue (frame.restore .zero) x = v := by
  cases x with
  | reg r =>
    simp only [frameValue] at h
    split at h
    · rename_i hbit
      obtain ⟨hlt, hv⟩ := List.getElem?_eq_some_iff.mp h
      simp [slotValue, DeoptFrame.restore, hbit, hr, hlt, hv]
    · cases h
  | loc l =>
    simp only [frameValue] at h
    split at h
    · rename_i hbit
      obtain ⟨hlt, hv⟩ := List.getElem?_eq_some_iff.mp h
      simp [slotValue, DeoptFrame.restore, hbit, hl, hlt, hv]
    · cases h

theorem Follows.traced (h : Follows w f .initial s) : ∃ kinds, Traced w f s kinds := by
  refine Runs.keeps (P := fun t => ∃ kinds, Traced w f t kinds) ?_ h ⟨_, .entry⟩
  rintro t t' ⟨kinds, ht⟩ hs
  obtain ⟨i, hi, -⟩ := nativeNext_cases hs
  exact ⟨_, .step ht hi hs⟩

theorem slotValue_frameCell (hx : DefinedBefore f k x)
    (hcheck : ∀ (j : Nat) (i : Instruction), f.instructions[j]? = some i →
      checkInstruction f i = none) (fr : Frame) :
    frameCell f fr (slotCell f x) = slotValue fr x := by
  obtain ⟨-, j, i, -, hget, hw⟩ := hx
  have hbound := slotWrite_bound (hcheck j i hget) hw
  cases x with
  | reg r => simp [frameCell, slotCell, slotValue, hbound]
  | loc l => simp [frameCell, slotCell, slotValue]

theorem irResumeAfterBailout_same {frame : DeoptFrame} {i : Instruction} {fr : Frame} (env : Env)
    (v : Word) (hi : f.instructions[k]? = some i) (hresumes : resumes f frame = true)
    (hk : frame.instructionIndex = k) (hresult : hasResult i = true)
    (hop : i.opcode ≠ .callNativeF64)
    (hvalues : SameOn (LiveAfter f k) (frame.restore .zero) fr) :
    irResumeAfterBailout env f frame v =
      executeFrom env f (stepLimit f) (fr.setRegister i.destination v) (k + 1) := by
  have hresumable : resumable i.opcode = true := by
    simpa [hasResult, hop] using hresult
  have hflows : k + 1 ∈ flowsTo k i := by
    unfold resumable at hresumable
    unfold flowsTo
    cases hop' : i.opcode <;> simp_all
  have hwrite : slotWrite i = some (.reg i.destination) := by
    unfold resumable at hresumable
    unfold slotWrite marksDestination
    cases hop' : i.opcode <;> simp_all
  have hsame := hvalues.setRegister i.destination v
  have hlive : SameOn (Live f (k + 1)) ((frame.restore .zero).setRegister i.destination v)
      (fr.setRegister i.destination v) := by
    refine hsame.mono ?_
    intro x hx
    by_cases hw : slotWrite i = some x
    · rw [hwrite, Option.some.injEq] at hw
      exact .inr hw.symm
    · exact .inl ⟨i, k + 1, hi, hflows, hx, hw⟩
  simp only [irResumeAfterBailout, hresumes, hk, hi, hresumable, Bool.not_true, Bool.false_eq_true,
    if_false, if_true]
  exact executeFrom_same hlive

theorem Exits.deoptFrame (hcode : baselineCode f = some code)
    (hsmall : extent Op.size code < 2 ^ 31) (hend : nativeEnd w f s = some (.bailed reason))
    (h : Exits f s (.bailed reason) m) :
    (lastDeoptFrame f m).reason = reason ∧ (lastDeoptFrame f m).instructionIndex = s.pc ∧
      resumes f (lastDeoptFrame f m) = true := by
  obtain ⟨i, hi, heff⟩ := nativeEnd_effect hend
  have hflows := nativeEffect_flows w f s.pc i s.polls s.frame
  rw [heff] at hflows
  obtain ⟨-, hcoded⟩ := bailoutReason_statusCode hflows
  have hk : s.pc < f.instructions.length := (List.getElem?_eq_some_iff.mp hi).1
  have hpc : s.pc < 2 ^ 64 := by
    have hle := le_offsetOf hcode (Nat.le_of_lt hk)
    have hbound := baselineCode_offset_le hcode hi
    omega
  have hreason : (lastDeoptFrame f m).reason = reason := by
    simp only [lastDeoptFrame, Machine.word, h.status, Option.getD_some]
    exact hcoded
  have hindex : (lastDeoptFrame f m).instructionIndex = s.pc := by
    simp only [lastDeoptFrame, h.index]
    rw [BitVec.toNat_ofNat, Nat.mod_eq_of_lt hpc]
  refine ⟨hreason, hindex, ?_⟩
  simp only [resumes, hreason, hindex, (baselineCode_parts hcode).1, decide_eq_true_eq]
  exact ⟨hflows, hk, trivial, rfl, rfl⟩

theorem Exits.complete (hcode : baselineCode f = some code) (hsmall : extent Op.size code < 2 ^ 31)
    (hrun : ∀ t, Follows w f .initial t → Comparable w f t) (htraced : Traced w f s kinds)
    (hend : nativeEnd w f s = some (.bailed reason)) (hrestorable : Restorable f s kinds)
    (h : Exits f s (.bailed reason) m) : DeoptComplete w f s kinds reason m := by
  obtain ⟨i, hi, -⟩ := nativeEnd_effect hend
  obtain ⟨hreason, hindex, hresumes⟩ := h.deoptFrame hcode hsmall hend
  have hk : s.pc < f.instructions.length := (List.getElem?_eq_some_iff.mp hi).1
  have hcheck : ∀ (j : Nat) (i : Instruction), f.instructions[j]? = some i →
      checkInstruction f i = none := fun j i hj => baselineCode_checks hcode hj
  have hvalues : ∀ x, LiveAfter f s.pc x →
      frameValue (lastDeoptFrame f m) x = some (slotValue s.frame x) := by
    intro x hx
    have hdefined := hrestorable.earlier x hx
    rw [frameValue_lastDeoptFrame hk hindex hdefined hcheck,
      h.cells _ (hrestorable.written x hx), slotValue_frameCell hdefined hcheck]
  refine ⟨⟨hreason, hindex⟩, reference_reaches hcode hrun htraced.follows, hvalues, hrestorable.kinds, ?_, ?_⟩
  · intro x hx
    rw [boxSlot, hvalues x hx]
    simp only [hrestorable.kinds x hx]
  · intro i' v hi' hresult
    refine irResumeAfterBailout_same w.env v hi' hresumes hindex hresult
      (hrestorable.resumable i' hi') ?_
    intro x hx
    exact restore_slotValue (by simp [lastDeoptFrame]) (by simp [lastDeoptFrame]) (hvalues x hx)

end

theorem follows_chain {w : World} {f : Function} {s u : NativeState} {states : List NativeState}
    (hchain : (s :: states).IsChain fun a b => nativeNext w f a = some b)
    (hstop : nativeNext w f ((s :: states).getLast (List.cons_ne_nil _ _)) = none)
    (h : Follows w f s u) : u ∈ s :: states := by
  induction states generalizing s with
  | nil =>
    rcases h.first with rfl | ⟨t, ht, -⟩
    · exact List.mem_singleton.mpr rfl
    · simp only [List.getLast_singleton] at hstop
      rw [hstop] at ht
      cases ht
  | cons t rest ih =>
    obtain ⟨hst, hrest⟩ := List.isChain_cons_cons.mp hchain
    rcases h.first with rfl | ⟨t', ht', h'⟩
    · exact List.mem_cons_self
    · rw [hst] at ht'
      cases ht'
      rw [List.getLast_cons (List.cons_ne_nil _ _)] at hstop
      exact List.mem_cons_of_mem _ (ih hrest hstop h')

def overflowingSum : Function where
  instructions := [{ opcode := .constantI64, destination := 0, immediate := 2147483647 },
    { opcode := .constantI64, destination := 1, immediate := 1 },
    { opcode := .addI32Checked, destination := 2, left := 0, right := 1 },
    { opcode := .returnI64, left := 0 }]
  registerCount := 3
  argumentCount := 0
  localCount := 0

def summands : Frame := (Frame.zero.setRegister 0 2147483647).setRegister 1 1

theorem overflowingSum_chain :
    [NativeState.initial, ⟨1, 0, Frame.zero.setRegister 0 2147483647, insert 0 ∅⟩,
      ⟨2, 0, summands, insert 1 (insert 0 ∅)⟩].IsChain
      fun a b => nativeNext (stillWorld []) overflowingSum a = some b := by
  simp [nativeNext, effectAt, nativeEffect, pollsAt, isCallNative, divisionFaults, refEffect,
    effect, overflowingSum, NativeState.initial, pollsAfter, writtenAfter, cellWrite, summands]

theorem summands_overflow : checkedI32 (summands.registers 0 + summands.registers 1) summands 2 =
    .bail .integerOverflow := by
  rw [checkedI32, if_neg (by decide)]

theorem overflowingSum_end (W : Set Nat) : nativeEnd (stillWorld []) overflowingSum
    ⟨2, 0, summands, W⟩ = some (.bailed .integerOverflow) := by
  simp [nativeEnd, effectAt, nativeEffect, pollsAt, isCallNative, divisionFaults, refEffect,
    effect, overflowingSum, summands_overflow]

theorem comparable_plain {w : World} {f : Function} {s : NativeState} {i : Instruction}
    (hi : f.instructions[s.pc]? = some i) (hlocals : localsInBounds i = true)
    (hdivides : divisionFaults i s.frame = false) (hcall : isCallNative i = false) :
    Comparable w f s := by
  have hsame : ∀ j, f.instructions[s.pc]? = some j → j = i := by
    intro j hj
    exact Option.some.inj (hj.symm.trans hi)
  refine ⟨(List.getElem?_eq_some_iff.mp hi).1, ?_, ?_, ?_⟩
  · intro j hj
    rw [hsame j hj]
    exact hlocals
  · intro j hj
    rw [hsame j hj]
    exact hdivides
  · intro j site hj hcall'
    rw [hsame j hj, hcall] at hcall'
    cases hcall'

theorem overflowingSum_states {s : NativeState}
    (h : Follows (stillWorld []) overflowingSum .initial s) :
    s = .initial ∨ s = ⟨1, 0, Frame.zero.setRegister 0 2147483647, insert 0 ∅⟩ ∨
      s = ⟨2, 0, summands, insert 1 (insert 0 ∅)⟩ := by
  have hmem := follows_chain overflowingSum_chain (nativeNext_of_end (overflowingSum_end _)) h
  simpa using hmem

theorem overflowingSum_runs {s : NativeState}
    (h : Follows (stillWorld []) overflowingSum .initial s) :
    Comparable (stillWorld []) overflowingSum s ∧ Defined (stillWorld []) overflowingSum s := by
  rcases overflowingSum_states h with rfl | rfl | rfl
  · exact ⟨comparable_plain rfl rfl rfl rfl, _, rfl, by simp [cellReads],
      by simp [nativeEffect, pollsAt, isCallNative, divisionFaults, refEffect, effect]⟩
  · exact ⟨comparable_plain rfl rfl rfl rfl, _, rfl, by simp [cellReads],
      by simp [nativeEffect, pollsAt, isCallNative, divisionFaults, refEffect, effect]⟩
  · exact ⟨comparable_plain rfl rfl rfl rfl, _, rfl, by simp [cellReads],
      by simp [nativeEffect, pollsAt, isCallNative, divisionFaults, refEffect, effect,
        summands_overflow]⟩

theorem overflowingSum_kinds {s : NativeState} {kinds : Slot → ValueKind}
    (h : Traced (stillWorld []) overflowingSum s kinds) :
    s = .initial ∨ kinds (.reg 0) = .i64 := by
  induction h with
  | entry => exact .inl rfl
  | step h hi hs ih =>
    right
    rcases overflowingSum_states h.follows with rfl | rfl | rfl
    · cases hi
      rfl
    · cases hi
      exact ih.resolve_left (by simp [NativeState.initial])
    · rw [nativeNext_of_end (overflowingSum_end _)] at hs
      cases hs

theorem overflowingSum_live {x : Slot} (h : LiveAfter overflowingSum 2 x) : x = .reg 0 := by
  obtain ⟨i, k, hi, hk, hlive, -⟩ := h
  cases hi
  rw [List.mem_singleton.mp hk] at hlive
  cases hlive with
  | read hi hr =>
    cases hi
    exact List.mem_singleton.mp hr
  | pass hi hs _ _ =>
    cases hi
    cases hs

theorem overflowingSum_restorable {s : NativeState} {kinds : Slot → ValueKind}
    {reason : BailoutReason} (htraced : Traced (stillWorld []) overflowingSum s kinds)
    (hend : nativeEnd (stillWorld []) overflowingSum s = some (.bailed reason)) :
    Restorable overflowingSum s kinds := by
  have hchain := overflowingSum_chain
  simp only [List.isChain_cons_cons] at hchain
  have hkinds := overflowingSum_kinds htraced
  rcases overflowingSum_states htraced.follows with rfl | rfl | rfl
  · rw [nativeNext_of_end hend] at hchain
    cases hchain.1
  · rw [nativeNext_of_end hend] at hchain
    cases hchain.2.1
  · refine ⟨?_, ?_, ?_, ?_⟩
    · intro x hx
      rw [overflowingSum_live hx]
      exact ⟨by decide, 0, _, by decide, rfl, rfl⟩
    · intro x hx
      rw [overflowingSum_live hx]
      exact .inr (.inl rfl)
    · intro x hx
      rw [overflowingSum_live hx, hkinds.resolve_left (by simp [NativeState.initial])]
      rfl
    · rintro i ⟨⟩
      simp

def lateDefinitions : Function where
  instructions := [{ opcode := .jump, target := 3 },
    { opcode := .addI32Checked, destination := 2, left := 0, right := 1 },
    { opcode := .returnI64, left := 0 },
    { opcode := .constantI64, destination := 0, immediate := 2147483647 },
    { opcode := .constantI64, destination := 1, immediate := 1 },
    { opcode := .jump, target := 1 }]
  registerCount := 3
  argumentCount := 0
  localCount := 0

theorem lateDefinitions_chain :
    [NativeState.initial, ⟨3, 0, .zero, ∅⟩, ⟨4, 0, Frame.zero.setRegister 0 2147483647, insert 0 ∅⟩,
      ⟨5, 0, summands, insert 1 (insert 0 ∅)⟩, ⟨1, 1, summands, insert 1 (insert 0 ∅)⟩].IsChain
      fun a b => nativeNext (stillWorld []) lateDefinitions a = some b := by
  simp [nativeNext, effectAt, nativeEffect, pollsAt, isCallNative, divisionFaults, refEffect,
    effect, lateDefinitions, NativeState.initial, pollsAfter, writtenAfter, cellWrite, summands,
    stillWorld]

theorem lateDefinitions_end (W : Set Nat) : nativeEnd (stillWorld []) lateDefinitions
    ⟨1, 1, summands, W⟩ = some (.bailed .integerOverflow) := by
  simp [nativeEnd, effectAt, nativeEffect, pollsAt, isCallNative, divisionFaults, refEffect,
    effect, lateDefinitions, summands_overflow]

theorem lateDefinitions_runs {s : NativeState}
    (h : Follows (stillWorld []) lateDefinitions .initial s) :
    Defined (stillWorld []) lateDefinitions s := by
  have hmem := follows_chain lateDefinitions_chain (nativeNext_of_end (lateDefinitions_end _)) h
  simp only [List.mem_cons, List.not_mem_nil, or_false] at hmem
  rcases hmem with rfl | rfl | rfl | rfl | rfl
  · exact ⟨_, rfl, by simp [cellReads],
      by simp [nativeEffect, pollsAt, isCallNative, divisionFaults, refEffect, effect,
        NativeState.initial]⟩
  · exact ⟨_, rfl, by simp [cellReads],
      by simp [nativeEffect, pollsAt, isCallNative, divisionFaults, refEffect, effect]⟩
  · exact ⟨_, rfl, by simp [cellReads],
      by simp [nativeEffect, pollsAt, isCallNative, divisionFaults, refEffect, effect]⟩
  · exact ⟨_, rfl, by simp [cellReads],
      by simp [nativeEffect, pollsAt, isCallNative, divisionFaults, refEffect, effect,
        stillWorld]⟩
  · exact ⟨_, rfl, by simp [cellReads],
      by simp [nativeEffect, pollsAt, isCallNative, divisionFaults, refEffect, effect,
        summands_overflow]⟩

end TurboJS.Baseline
