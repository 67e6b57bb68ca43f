import TurboJS.Leaf.AffineRange
import TurboJS.Leaf.Stores
import TurboJS.OSR.CallLoop

namespace TurboJS.OSR
open Bytecode Foundation Leaf

/-! The leaf-call loop `acc = (acc + f(i)) | 0`: its runner, and what a bailout leaves behind. -/

structure LeafCallLoop extends CountedLoop where
  functionSlot : Slot
  argc : Nat
  fixed : Float64

structure LeafTarget where
  plan : Plan
  fuel : Nat
  realm : Realm
  property : Nat → Nat → Option LeafValue
  codeUnits : LeafValue → Option (List (BitVec 16))

def LeafTarget.env (leaf : LeafTarget) (p : LeafCallLoop) (i : ℤ) : CallEnv where
  realm := leaf.realm
  args := .int (toBits i) :: (if p.argc = 2 then [.float p.fixed] else [])
  property := leaf.property
  codeUnits := leaf.codeUnits

/-- `JS_ToInt32` of a result, which is a number. -/
def leafTerm : LeafValue → BitVec 32
  | .int x => x
  | .float x => x.toInt32
  | _ => 0

inductive ChunkEnd where
  | done (value : BitVec 32) (cells : Cells)
  | bailout (cells : Cells)

/-- `n` iterations from `i` on. -/
def leafChunk (leaf : LeafTarget) (p : LeafCallLoop) :
    Nat → ℤ → BitVec 32 → Cells → Option ChunkEnd
  | 0, _, value, cells => some (.done value cells)
  | n + 1, i, value, cells => do
    match ← leaf.plan.call leaf.fuel (leaf.env p i) cells with
    | .handled result cells => leafChunk leaf p n (i + 1) (value + leafTerm result) cells
    | .declined cells => some (.bailout cells)

inductive LeafExit where
  | completed (exit : OSRExit) (cells : Cells)
  | bailout (slots : Slot → JSValue) (cells : Cells)

def LeafCallLoop.start (p : LeafCallLoop) (b : FunctionBytecode) (slots : Slot → JSValue) :
    Option (ℤ × ℤ × BitVec 32) := do
  let index := frameLocal b ⟨.local, p.induction⟩
  if index ≥ localCount b then none
  else
    let i ← intValue ((captureFrame b slots).locals index)
    let limit ← p.runtimeLimit slots
    let acc ← intValue (slots p.accumulatorSlot)
    if i < 0 ∨ i ≥ limit then none else some (i, limit, toBits acc)

/-- The end of an entry that has come to `stop`. -/
def LeafCallLoop.finish (p : LeafCallLoop) (b : FunctionBytecode) (slots : Slot → JSValue)
    (limit stop : ℤ) (value : BitVec 32) (cells : Cells) : LeafExit :=
  let frame := captureFrame b slots
  match frame.store b p.accumulatorSlot value with
  | none => .bailout slots cells
  | some frame =>
    let index := frameLocal b ⟨.local, p.induction⟩
    let frame := { frame with locals := Function.update frame.locals index (.number stop) }
    .completed ⟨frame.writeBack b, if stop < limit then p.loopHeader else p.resume⟩ cells

def LeafCallLoop.run (p : LeafCallLoop) (b : FunctionBytecode) (leaf : LeafTarget)
    (slots : Slot → JSValue) (cells : Cells) : Option LeafExit :=
  match p.start b slots with
  | none => some (.bailout slots cells)
  | some (i, limit, acc) =>
    match affineForRange leaf.plan p.argc p.fixed i (limit - 1) with
    | some (slope, intercept) =>
      some (p.finish b slots limit limit (acc + leafDelta slope intercept i limit) cells)
    | none =>
      let stop := chunkLimit i limit
      match leafChunk leaf p (stop - i).toNat i acc cells with
      | none => none
      | some (.bailout cells) => some (.bailout slots cells)
      | some (.done value cells) => some (p.finish b slots limit stop value cells)

def chunkPath (leaf : LeafTarget) (p : LeafCallLoop) : Nat → ℤ → Cells → Option Path
  | 0, _, _ => some ⟨false, []⟩
  | n + 1, i, cells => do
    let path ← leaf.plan.path leaf.fuel (leaf.env p i) cells
    if path.declined then some path
    else
      (chunkPath leaf p n (i + 1) (applyWrites path.stores cells)).map (Path.after path.stores)

def LeafCallLoop.path (p : LeafCallLoop) (b : FunctionBytecode) (leaf : LeafTarget)
    (slots : Slot → JSValue) (cells : Cells) : Option Path :=
  match p.start b slots with
  | none => some ⟨true, []⟩
  | some (i, limit, _) =>
    let stored := ((captureFrame b slots).store b p.accumulatorSlot 0).isSome
    if (affineForRange leaf.plan p.argc p.fixed i (limit - 1)).isSome then some ⟨!stored, []⟩
    else
      (chunkPath leaf p (chunkLimit i limit - i).toNat i cells).map fun path =>
        { path with declined := path.declined || !stored }

def ChunkEnd.cells : ChunkEnd → Cells
  | .done _ cells | .bailout cells => cells

def ChunkEnd.isBailout : ChunkEnd → Bool
  | .done _ _ => false
  | .bailout _ => true

def LeafExit.cells : LeafExit → Cells
  | .completed _ cells | .bailout _ cells => cells

def LeafExit.isBailout : LeafExit → Bool
  | .completed _ _ => false
  | .bailout _ _ => true

section

variable {leaf : LeafTarget} {p : LeafCallLoop} {b : FunctionBytecode}

theorem leafChunk_path (leaf : LeafTarget) (p : LeafCallLoop) (n : Nat) (i : ℤ) (value : BitVec 32) (cells : Cells) :
    (leafChunk leaf p n i value cells = none ∧ chunkPath leaf p n i cells = none) ∨
      ∃ e path, leafChunk leaf p n i value cells = some e ∧
        chunkPath leaf p n i cells = some path ∧ e.isBailout = path.declined ∧
        e.cells = applyWrites path.stores cells := by
  induction n generalizing i value cells with
  | zero => exact .inr ⟨_, _, rfl, rfl, rfl, rfl⟩
  | succ n ih =>
    rw [leafChunk, chunkPath]
    rcases leaf.plan.call_path leaf.fuel (leaf.env p i) cells with
      ⟨hc, hp⟩ | ⟨o, path, hc, hp, hd, hcells⟩
    · exact .inl ⟨by rw [hc]; rfl, by rw [hp]; rfl⟩
    · rw [hc, hp]
      simp only [Option.bind_eq_bind, Option.bind_some]
      cases o with
      | declined cells' =>
        rw [← hd, if_pos (show Outcome.isDeclined _ = true from rfl)]
        exact .inr ⟨_, _, rfl, rfl, hd, hcells⟩
      | handled result cells' =>
        rw [← hd, if_neg (by simp [Outcome.isDeclined])]
        simp only [Outcome.cells] at hcells
        subst hcells
        rcases ih (i + 1) (value + leafTerm result) (applyWrites path.stores cells) with
          ⟨he, hr⟩ | ⟨e, rest, he, hr, hdeclined, hrest⟩
        · exact .inl ⟨he, by rw [hr]; rfl⟩
        · refine .inr ⟨e, .after path.stores rest, he, by rw [hr]; rfl, hdeclined, ?_⟩
          rw [hrest, Path.after, applyWrites_append]

theorem finish_isBailout (slots : Slot → JSValue) (limit stop : ℤ) (value : BitVec 32)
    (cells : Cells) : (p.finish b slots limit stop value cells).isBailout =
      !((captureFrame b slots).store b p.accumulatorSlot 0).isSome := by
  simp only [LeafCallLoop.finish, OSRFrame.store, OSRFrame.storeValue]
  by_cases hframe : frameLocal b p.accumulatorSlot ≠ uint16Max
  · by_cases hcount : frameLocal b p.accumulatorSlot ≥ localCount b
    · rw [if_pos hframe, if_pos hframe, if_pos hcount, if_pos hcount]
      rfl
    · rw [if_pos hframe, if_pos hframe, if_neg hcount, if_neg hcount]
      rfl
  · rw [if_neg hframe, if_neg hframe]
    rfl

theorem finish_cells (slots : Slot → JSValue) (limit stop : ℤ) (value : BitVec 32)
    (cells : Cells) : (p.finish b slots limit stop value cells).cells = cells := by
  simp only [LeafCallLoop.finish]
  split <;> rfl

theorem LeafCallLoop.run_path (p : LeafCallLoop) (b : FunctionBytecode) (leaf : LeafTarget)
    (slots : Slot → JSValue) (cells : Cells) :
    (p.run b leaf slots cells = none ∧ p.path b leaf slots cells = none) ∨
      ∃ e path, p.run b leaf slots cells = some e ∧ p.path b leaf slots cells = some path ∧
        e.isBailout = path.declined ∧ e.cells = applyWrites path.stores cells := by
  unfold LeafCallLoop.run LeafCallLoop.path
  cases hs : p.start b slots with
  | none => exact .inr ⟨_, _, rfl, rfl, rfl, rfl⟩
  | some start =>
    obtain ⟨i, limit, acc⟩ := start
    dsimp only
    cases ha : affineForRange leaf.plan p.argc p.fixed i (limit - 1) with
    | some line =>
      obtain ⟨slope, intercept⟩ := line
      exact .inr ⟨_, _, rfl, rfl, finish_isBailout _ _ _ _ _, finish_cells _ _ _ _ _⟩
    | none =>
      dsimp only
      rcases leafChunk_path leaf p (chunkLimit i limit - i).toNat i acc cells with
        ⟨hc, hp⟩ | ⟨e, path, hc, hp, hd, hcells⟩
      · exact .inl ⟨by rw [hc], by rw [hp]; rfl⟩
      · right
        rw [hc, hp]
        cases e with
        | bailout cells' =>
          refine ⟨_, _, rfl, rfl, ?_, hcells⟩
          dsimp only
          rw [← hd]
          rfl
        | done value cells' =>
          refine ⟨_, _, rfl, rfl, ?_, ?_⟩
          · dsimp only
            rw [finish_isBailout, ← hd]
            rfl
          · rw [finish_cells]
            exact hcells

theorem LeafCallLoop.run_slots {slots slots' : Slot → JSValue} {cells cells' : Cells}
    (h : p.run b leaf slots cells = some (.bailout slots' cells')) : slots' = slots := by
  have hfinish : ∀ {limit stop value cells}, p.finish b slots limit stop value cells =
      .bailout slots' cells' → slots' = slots := by
    intro limit stop value cells hf
    simp only [LeafCallLoop.finish] at hf
    split at hf
    · cases hf
      rfl
    · cases hf
  unfold LeafCallLoop.run at h
  split at h
  · cases h
    rfl
  · split at h
    · exact hfinish (Option.some.inj h)
    · dsimp only at h
      split at h
      · cases h
      · cases h
        rfl
      · exact hfinish (Option.some.inj h)

end

/-- `o => { s = s + 1; return o.x; }`. -/
def countReads : LeafFunction :=
  { closureOf [228, 188, 157, 17, 232, 14, 216, 64, 1, 0, 0, 0, 40] with argCount := 1 }

end TurboJS.OSR
