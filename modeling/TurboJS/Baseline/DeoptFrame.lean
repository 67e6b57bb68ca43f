import TurboJS.Baseline.Native

namespace TurboJS.Baseline

open IR Foundation

abbrev Mask := Nat → Bool

def Mask.empty : Mask := fun _ => false

/-- `mask |= 1 << bit`, for the bits that the mask has. -/
def Mask.add (mask : Mask) (bit : Nat) : Mask :=
  if bit < 64 then Function.update mask bit true else mask

def marksDestination : Opcode → Bool
  | .argument | .constantI64 | .constantF64
  | .addI64 | .subI64 | .mulI64 | .addF64 | .subF64 | .mulF64 | .divF64
  | .addI32Checked | .subI32Checked | .mulI32Checked | .divI32Checked | .remI32Checked
  | .runtimeHelper | .callNativeI64 | .callNativeF64 | .lessThanI64
  | .lessThanF64 | .lessEqualF64 | .equalF64 | .i64ToF64 | .f64ToI64Trunc | .localGet => true
  | _ => false

structure Masks where
  registers : Mask
  locals : Mask

def Masks.mark (masks : Masks) (i : Instruction) : Masks :=
  if marksDestination i.opcode then { masks with registers := masks.registers.add i.destination }
  else if i.opcode = .localSet then { masks with locals := masks.locals.add i.immediate.toNat }
  else masks

/-- `materialized_masks[k]` and `materialized_local_masks[k]`: what the instructions in front
of `k` in program order define. -/
def materializedAt (f : Function) (k : Nat) : Masks :=
  (f.instructions.take k).foldl Masks.mark ⟨.empty, .empty⟩

/-- The reason that `TurboJS_NativeInvoke` records for a return code. -/
def bailoutReason (rc : BitVec 32) : BailoutReason :=
  if rc = 1 then .integerOverflow
  else if rc = 2 then .divisionByZero
  else if rc = 3 then .divisionOverflow
  else if rc = 4 then .safepointRequested
  else if rc = 5 then .runtimeHelper
  else .none

inductive NativeResult where
  | invalidArgument
  | ok (v : Word)
  | bailout (reason : BailoutReason) (index : Nat) (registers locals : Nat → Option Word)

/-- The masks of `TurboJS_NativeLastDeoptFrame`. -/
def deoptMasks (f : Function) (index : Nat) : Masks :=
  if index < f.instructions.length then materializedAt f index else ⟨.empty, .empty⟩

def deoptRegister (f : Function) (m : Machine) (index r : Nat) : Option Word :=
  if r < f.registerCount ∧ (deoptMasks f index).registers r = true then some (m.deopt (1 + r))
  else none

def deoptLocal (f : Function) (m : Machine) (index l : Nat) : Option Word :=
  if l < f.localCount ∧ (deoptMasks f index).locals l = true then
    some (m.deopt (1 + (f.registerCount + l)))
  else none

/-- What `TurboJS_NativeInvoke` makes of the machine that has returned. -/
def nativeResult (f : Function) (m : Machine) : Option NativeResult := do
  let rax ← m.word 0
  let rc := rax.setWidth 32
  if rc = 0 then some (.ok m.result)
  else
    let index := (m.deopt 0).toNat
    some (.bailout (bailoutReason rc) index (deoptRegister f m index) (deoptLocal f m index))

/-- `TurboJS_NativeInvoke` on a machine with this frame. -/
inductive Invokes (w : World) (f : Function) (code : List Op) (m : Machine) : NativeResult → Prop
    where
  | rejected (h : w.arguments.length < f.argumentCount) : Invokes w f code m .invalidArgument
  | ran {m' : Machine} {r : NativeResult} (h : f.argumentCount ≤ w.arguments.length)
      (hleaves : Leaves w f code (0, m) m') (hr : nativeResult f m' = some r) :
      Invokes w f code m r

def resultOf (f : Function) (s : NativeState) : NativeEnding → NativeResult
  | .returned v => .ok v
  | .bailed reason => .bailout reason s.pc
      (fun r => if r < f.registerCount ∧ (materializedAt f s.pc).registers r = true then
        some (frameCell f s.frame r) else none)
      (fun l => if l < f.localCount ∧ (materializedAt f s.pc).locals l = true then
        some (frameCell f s.frame (f.registerCount + l)) else none)

/-- The cells that the masks of `k` promise. -/
def materializedCells (f : Function) (k : Nat) : Set Nat :=
  { c | c < f.registerCount ∧ (materializedAt f k).registers c = true ∨
    ∃ l, l < f.localCount ∧ (materializedAt f k).locals l = true ∧ c = f.registerCount + l }

section

variable {w : World} {f : Function} {code : List Op} {s : NativeState} {m : Machine}
  {e : NativeEnding}

theorem bailoutReason_statusCode {reason : BailoutReason} (h : reason ≠ .none) :
    (BitVec.ofNat 64 (statusCode reason)).setWidth 32 ≠ 0 ∧
      bailoutReason ((BitVec.ofNat 64 (statusCode reason)).setWidth 32) = reason := by
  cases reason
  case none => exact absurd rfl h
  all_goals decide

theorem le_offsetOf (hcode : baselineCode f = some code) {k : Nat}
    (hk : k ≤ f.instructions.length) : k ≤ offsetOf f k := by
  induction k with
  | zero => exact Nat.zero_le _
  | succ k ih =>
    have hi : f.instructions[k]? = some f.instructions[k] := List.getElem?_eq_getElem (by omega)
    have hlt := offsetOf_lt_succ hcode hi
    have hle := ih (by omega)
    omega

theorem nativeEnd_effect (h : nativeEnd w f s = some e) :
    ∃ i, f.instructions[s.pc]? = some i ∧
      nativeEffect w f s.pc i s.polls s.frame =
        match e with
        | .returned v => .done v
        | .bailed reason => .bail reason := by
  unfold nativeEnd effectAt at h
  cases hi : f.instructions[s.pc]? with
  | none => simp [hi] at h
  | some i =>
    refine ⟨i, rfl, ?_⟩
    rw [hi, Option.bind_eq_bind, Option.bind_some] at h
    cases he : nativeEffect w f s.pc i s.polls s.frame <;> simp only [he] at h <;> cases h <;> rfl

theorem Exits.bailout (hcode : baselineCode f = some code) (hsmall : extent Op.size code < 2 ^ 31)
    {reason : BailoutReason} (hend : nativeEnd w f s = some (.bailed reason))
    (h : Exits f s (.bailed reason) m) :
    nativeResult f m =
      some (.bailout reason s.pc (deoptRegister f m s.pc) (deoptLocal f m s.pc)) := by
  obtain ⟨i, hi, heff⟩ := nativeEnd_effect hend
  have hflows := nativeEffect_flows w f s.pc i s.polls s.frame
  rw [heff] at hflows
  obtain ⟨hrc, hreason⟩ := bailoutReason_statusCode hflows
  have hlt : s.pc < f.instructions.length := (List.getElem?_eq_some_iff.mp hi).1
  have hindex : (BitVec.ofNat 64 s.pc).toNat = s.pc := by
    have hle := le_offsetOf hcode (Nat.le_of_lt hlt)
    have hbound := baselineCode_offset_le hcode hi
    rw [BitVec.toNat_ofNat, Nat.mod_eq_of_lt (by omega)]
  simp only [nativeResult, Machine.word, h.status, Option.bind_eq_bind, Option.bind_some,
    if_neg hrc, hreason, h.index, hindex]

theorem Exits.result (hcode : baselineCode f = some code) (hsmall : extent Op.size code < 2 ^ 31)
    (hend : nativeEnd w f s = some e)
    (hmasks : ∀ reason, e = .bailed reason → materializedCells f s.pc ⊆ s.written)
    (h : Exits f s e m) : nativeResult f m = some (resultOf f s e) := by
  cases e with
  | returned v =>
    obtain ⟨hstatus, hresult⟩ := h
    simp [nativeResult, Machine.word, hstatus, hresult, resultOf]
  | bailed reason =>
    have hwritten := hmasks reason rfl
    obtain ⟨i, hi, -⟩ := nativeEnd_effect hend
    have hlt : s.pc < f.instructions.length := (List.getElem?_eq_some_iff.mp hi).1
    have hregisters : deoptRegister f m s.pc = fun r =>
        if r < f.registerCount ∧ (materializedAt f s.pc).registers r = true then
          some (frameCell f s.frame r) else none := by
      funext r
      simp only [deoptRegister, deoptMasks, hlt, if_true]
      split
      · rename_i hr
        rw [h.cells r (hwritten (.inl hr))]
      · rfl
    have hlocals : deoptLocal f m s.pc = fun l =>
        if l < f.localCount ∧ (materializedAt f s.pc).locals l = true then
          some (frameCell f s.frame (f.registerCount + l)) else none := by
      funext l
      simp only [deoptLocal, deoptMasks, hlt, if_true]
      split
      · rename_i hl
        rw [h.cells _ (hwritten (.inr ⟨l, hl.1, hl.2, rfl⟩))]
      · rfl
    rw [h.bailout hcode hsmall hend, hregisters, hlocals]
    rfl

end

end TurboJS.Baseline
