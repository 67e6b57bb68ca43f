import TurboJS.Baseline.Located
import TurboJS.IR.Reference

namespace TurboJS.Baseline

open IR Foundation

/-! What the code of one instruction does, in terms of the IR's frame. -/

def frameCell (f : Function) (fr : Frame) (c : Nat) : Word :=
  if c < f.registerCount then fr.registers c else fr.locals (c - f.registerCount)

def cellReads (f : Function) (i : Instruction) : List Nat :=
  match i.opcode with
  | .addI64 | .subI64 | .mulI64 | .addF64 | .subF64 | .mulF64 | .divF64
  | .lessThanF64 | .lessEqualF64 | .equalF64
  | .addI32Checked | .subI32Checked | .mulI32Checked | .divI32Checked | .remI32Checked
  | .lessThanI64 => [i.left, i.right]
  | .i64ToF64 | .f64ToI64Trunc | .localSet | .branchTrue | .branchFalse | .returnI64 | .returnF64 =>
    [i.left]
  | .localGet => [f.registerCount + i.immediate.toNat]
  | .callNativeI64 | .callNativeF64 =>
    match i.site with
    | none => []
    | some site =>
      (if site.hasReceiverShapeGuard then [site.receiverRegister] else []) ++ site.arguments
  | _ => []

def cellWrite (f : Function) (i : Instruction) : Option Nat :=
  match i.opcode with
  | .argument | .constantI64 | .constantF64
  | .addI64 | .subI64 | .mulI64 | .addF64 | .subF64 | .mulF64 | .divF64
  | .lessThanF64 | .lessEqualF64 | .equalF64 | .i64ToF64 | .f64ToI64Trunc
  | .addI32Checked | .subI32Checked | .mulI32Checked | .divI32Checked | .remI32Checked
  | .lessThanI64 | .localGet | .callNativeI64 | .callNativeF64 => some i.destination
  | .localSet => some (f.registerCount + i.immediate.toNat)
  | _ => none

def successors (k : Nat) (i : Instruction) : List Nat :=
  match i.opcode with
  | .jump => [i.target]
  | .branchTrue | .branchFalse => [i.target, k + 1]
  | .returnI64 | .returnF64 | .runtimeHelper => []
  | _ => [k + 1]

/-- Whether the branch at `k` polls the safepoint. -/
def pollsAt (k : Nat) (i : Instruction) : Bool :=
  (i.opcode = .jump || i.opcode = .branchTrue || i.opcode = .branchFalse) && i.target ≤ k

def divisionFaults (i : Instruction) (fr : Frame) : Bool :=
  (i.opcode = .divI32Checked || i.opcode = .remI32Checked) &&
    fr.registers i.left == BitVec.intMin 64 && fr.registers i.right == -1

def receiverRefused (w : World) (f : Function) (site : ClutchCallSite) (fr : Frame) : Bool :=
  site.hasReceiverShapeGuard &&
    (frameCell f fr site.receiverRegister == 0 ||
      w.heap (frameCell f fr site.receiverRegister) site.receiverShapeOffset !=
        site.receiverShapeIdentity)

def publishedEntry (site : ClutchCallSite) : Option Nat :=
  match site.target with
  | none => none
  | some handle =>
    if BitVec.ofNat 64 site.expectedGeneration ≠ BitVec.ofNat 64 handle.generation ∨
        site.expectedKind ≠ handle.kind then none
    else handle.function

/-- A native call with the guards of the native code. A function that takes more arguments
than the site passes reads cells that nobody wrote. -/
def nativeCall (w : World) (f : Function) (i : Instruction) (fr : Frame) : Effect :=
  match i.site with
  | none => .fail .invalidArgument
  | some site =>
    if receiverRefused w f site fr then .bail .runtimeHelper
    else match publishedEntry site with
      | none => .bail .runtimeHelper
      | some id =>
        if site.argumentCount < w.env.arity id then .fail .invalidArgument
        else match w.env.native id ((site.arguments.map fr.registers).take (w.env.arity id)) with
          | none => .bail .runtimeHelper
          | some v => .next (fr.setRegister i.destination v)

/-- The code of the instruction at `k`, at the safepoint poll number `n`. `fail` is what
native code gives no result for. -/
def nativeEffect (w : World) (f : Function) (k : Nat) (i : Instruction) (n : Nat) (fr : Frame) :
    Effect :=
  if pollsAt k i && w.requested n then .bail .safepointRequested
  else if isCallNative i then nativeCall w f i fr
  else if divisionFaults i fr then .fail .unsupported
  else refEffect w.env f w.arguments i fr

def statusCode : BailoutReason → Nat
  | .none => 0
  | .integerOverflow => 1
  | .divisionByZero => 2
  | .divisionOverflow => 3
  | .safepointRequested => 4
  | .runtimeHelper => 5

/-- The machine holds the frame in the cells of `W`, and the pointers of its caller. -/
structure Agrees (f : Function) (W : Set Nat) (fr : Frame) (n : Nat) (m : Machine) : Prop where
  cells : ∀ c ∈ W, m.frame (slotDisp c) = frameCell f fr c
  safepoint : m.gpr 8 = .pointer .safepoint
  deopt : m.gpr 9 = .pointer .deopt
  result : m.gpr 10 = .pointer .result
  arguments : m.gpr 11 = .pointer .arguments
  polls : m.polls = n

structure Scratched (m m' : Machine) : Prop where
  frame : m'.frame = m.frame
  gpr : ∀ r, 8 ≤ r → m'.gpr r = m.gpr r
  polls : m'.polls = m.polls

section

variable {f : Function} {W : Set Nat} {fr : Frame} {n c : Nat}
  {m m' m'' : Machine} {v : Word}

theorem Scratched.refl (m : Machine) : Scratched m m := ⟨rfl, fun _ _ => rfl, rfl⟩

theorem Scratched.trans (h : Scratched m m') (h' : Scratched m' m'') : Scratched m m'' :=
  ⟨h'.frame.trans h.frame, fun r hr => (h'.gpr r hr).trans (h.gpr r hr), h'.polls.trans h.polls⟩

theorem Scratched.set (m : Machine) {r : Nat} (hr : r < 8) (v : Value) : Scratched m (m.set r v) := by
  refine ⟨rfl, ?_, rfl⟩
  intro s hs
  rw [Machine.set_gpr, Function.update_of_ne (by omega)]

theorem Scratched.setFlags (m : Machine) (fl : Option Flags) : Scratched m (m.setFlags fl) :=
  ⟨rfl, fun _ _ => rfl, rfl⟩

theorem Scratched.setXmm (m : Machine) (x : Nat) (v : Word) : Scratched m (m.setXmm x v) :=
  ⟨rfl, fun _ _ => rfl, rfl⟩

theorem Agrees.scratched (h : Agrees f W fr n m) (hs : Scratched m m') : Agrees f W fr n m' where
  cells := by
    intro c hc
    rw [hs.frame]
    exact h.cells c hc
  safepoint := (hs.gpr 8 (by omega)).trans h.safepoint
  deopt := (hs.gpr 9 (by omega)).trans h.deopt
  result := (hs.gpr 10 (by omega)).trans h.result
  arguments := (hs.gpr 11 (by omega)).trans h.arguments
  polls := hs.polls.trans h.polls

theorem Agrees.store {fr' : Frame} (h : Agrees f W fr n m) (hc : frameCell f fr' c = v)
    (hother : ∀ d, d ≠ c → frameCell f fr' d = frameCell f fr d) :
    Agrees f (insert c W) fr' n (m.setFrame (slotDisp c) v) where
  cells := by
    intro d hd
    by_cases hdc : d = c
    · subst hdc
      rw [Machine.setFrame_frame, Function.update_self, hc]
    · have hne : slotDisp d ≠ slotDisp c := fun he => hdc (slotDisp_inj.mp he)
      rw [Machine.setFrame_frame, Function.update_of_ne hne, hother d hdc]
      exact h.cells d (Set.mem_of_mem_insert_of_ne hd hdc)
  safepoint := h.safepoint
  deopt := h.deopt
  result := h.result
  arguments := h.arguments
  polls := h.polls

theorem frameCell_setRegister (hc : c < f.registerCount) (d : Nat) :
    frameCell f (fr.setRegister c v) d = if d = c then v else frameCell f fr d := by
  simp only [frameCell, Frame.setRegister_registers, Frame.setRegister_locals, Function.update_apply]
  by_cases hd : d = c
  · simp [hd, hc]
  · simp [hd]

theorem frameCell_setLocal (l d : Nat) :
    frameCell f (fr.setLocal l v) d =
      if d = f.registerCount + l then v else frameCell f fr d := by
  simp only [frameCell, Frame.setLocal_registers, Frame.setLocal_locals, Function.update_apply]
  by_cases hd : d < f.registerCount
  · have hne : d ≠ f.registerCount + l := by omega
    simp [hd, hne]
  · have hiff : d - f.registerCount = l ↔ d = f.registerCount + l := by omega
    simp [hd, hiff]

theorem Agrees.storeRegister (h : Agrees f W fr n m) (hc : c < f.registerCount) (v : Word) :
    Agrees f (insert c W) (fr.setRegister c v) n (m.setFrame (slotDisp c) v) := by
  apply h.store
  · rw [frameCell_setRegister hc, if_pos rfl]
  · intro d hd
    rw [frameCell_setRegister hc, if_neg hd]

theorem Agrees.storeLocal (h : Agrees f W fr n m) (l : Nat) (v : Word) :
    Agrees f (insert (f.registerCount + l) W) (fr.setLocal l v) n
      (m.setFrame (slotDisp (f.registerCount + l)) v) := by
  apply h.store
  · rw [frameCell_setLocal, if_pos rfl]
  · intro d hd
    rw [frameCell_setLocal, if_neg hd]

theorem Agrees.register (h : Agrees f W fr n m) (hc : c < f.registerCount) (hW : c ∈ W) :
    m.frame (slotDisp c) = fr.registers c := by
  rw [h.cells c hW, frameCell, if_pos hc]

end

end TurboJS.Baseline
