import TurboJS.Foundation.WriteLog
import TurboJS.Leaf.Stateful

namespace TurboJS.Leaf
open Foundation

/-! The closure stores of a call, in the order in which it makes them. -/

structure Path where
  declined : Bool
  stores : List (Nat × LeafValue)
  deriving DecidableEq, Repr

def Path.after (stores : List (Nat × LeafValue)) (p : Path) : Path :=
  { p with stores := stores ++ p.stores }

def Evaluation.stored (i : Instruction) (s : Evaluation) : List (Nat × LeafValue) :=
  match i.opcode, s.stack with
  | .closurePut, v :: _ | .closureSet, v :: _ => [(i.argument, cellValue v)]
  | _, _ => []

/-- The path of the instructions from index `i` on. -/
def Plan.pathFrom (plan : Plan) (env : CallEnv) : Nat → Nat → Evaluation → Option Path
  | 0, _, _ => none
  | fuel + 1, i, s =>
    match plan.instructions[i]? with
    | none => some ⟨s.stack.length ≠ 1, []⟩
    | some instruction => do
      match ← s.step env plan.instructions.length instruction with
      | .next t => (plan.pathFrom env fuel (i + 1) t).map (Path.after (s.stored instruction))
      | .jump k t => plan.pathFrom env fuel k t
      | .leave t => if t.stack = [] then none else some ⟨false, []⟩
      | .decline _ => some ⟨true, []⟩

def Plan.path (plan : Plan) (fuel : Nat) (env : CallEnv) (cells : Cells) : Option Path :=
  match plan.kind with
  | .affine => some ⟨(plan.executeAffine env.args).isNone, []⟩
  | .stateful =>
    match plan.executeStateful (cells 0) with
    | some (_, cell) => some ⟨false, [(0, cell)]⟩
    | none => some ⟨true, []⟩
  | .stringHash => some ⟨(plan.hashedUnits env).isNone, []⟩
  | .general =>
    if plan.Admits env.realm then plan.pathFrom env fuel 0 (.start env cells) else some ⟨true, []⟩

def Outcome.cells : Outcome → Cells
  | .handled _ cells | .declined cells => cells

def Outcome.isDeclined : Outcome → Bool
  | .handled _ _ => false
  | .declined _ => true

structure Outcome.Along (o : Outcome) (p : Path) (cells : Cells) : Prop where
  declined : o.isDeclined = p.declined
  cells_eq : o.cells = applyWrites p.stores cells

namespace Evaluation

variable {env : CallEnv} {count : Nat} {i : Instruction} {s t : Evaluation}

def Keeps (s : Evaluation) (i : Instruction) : Step → Prop
  | .next t => t.cells = applyWrites (s.stored i) s.cells
  | .jump _ t | .leave t | .decline t => t.cells = s.cells

theorem pushChecked_keeps (hi : s.stored i = []) (v : Option Float64) :
    s.Keeps i (s.pushChecked v) := by
  unfold pushChecked
  split
  · split
    · simp only [Keeps, hi, applyWrites_nil]
    · rfl
  · rfl

theorem stepVirtual_keeps (hi : s.stored i = []) : s.Keeps i (s.stepVirtual i) := by
  unfold stepVirtual
  split
  · exact pushChecked_keeps hi _
  · split
    · split
      · rfl
      · simp only [Keeps, hi, applyWrites_nil]
    · rfl
  · split
    · simp only [Keeps, hi, applyWrites_nil]
    · rfl
  · split
    · split
      · rfl
      · simp only [Keeps, hi, applyWrites_nil]
    · rfl
  · rfl

theorem jumpTo_keeps (hi : s.stored i = []) (taken : Bool) (ht : t.cells = s.cells) :
    s.Keeps i (s.jumpTo count i taken t) := by
  unfold jumpTo
  split
  · split
    · rfl
    · split
      · exact ht
      · simpa only [Keeps, hi, applyWrites_nil] using ht
  · rfl

theorem stored_eq_nil (hput : i.opcode ≠ .closurePut) (hset : i.opcode ≠ .closureSet) :
    s.stored i = [] := by
  unfold stored
  split
  · contradiction
  · contradiction
  · rfl

/-- Only the two closure stores change a cell. -/
theorem step_keeps {r : Step} (h : s.step env count i = some r) : s.Keeps i r := by
  have hnil : ∀ {opcodes : List Opcode}, i.opcode ∈ opcodes → .closurePut ∉ opcodes →
      .closureSet ∉ opcodes → s.stored i = [] := by
    intro opcodes hi hput hset
    exact stored_eq_nil (fun h => hput (h ▸ hi)) (fun h => hset (h ▸ hi))
  have hother : ∀ {opcode : Opcode}, i.opcode = opcode → opcode ≠ .closurePut →
      opcode ≠ .closureSet → s.stored i = [] := by
    intro opcode hi hput hset
    exact stored_eq_nil (hi ▸ hput) (hi ▸ hset)
  unfold step at h
  split at h
  case h_1 hop =>
    cases h
    exact pushChecked_keeps (hother hop nofun nofun) _
  case h_2 hop _ =>
    cases h
    split
    · rfl
    · simp only [Keeps, hother hop nofun nofun, applyWrites_nil]
  case h_3 hop _ =>
    cases h
    split
    · rfl
    · simp only [Keeps, hother hop nofun nofun, applyWrites_nil]
  case h_4 hop =>
    cases h
    exact pushChecked_keeps (hother hop nofun nofun) _
  case h_5 hop _ =>
    cases h
    split
    · rfl
    · simp only [Keeps, hother hop nofun nofun, applyWrites_nil]
  case h_6 hop _ =>
    cases h
    split
    · rfl
    · simp only [Keeps, hother hop nofun nofun, applyWrites_nil]
  case h_7 hop =>
    split at h
    · cases h
      exact pushChecked_keeps (hother hop nofun nofun) _
    · cases h
      rfl
  case h_8 hop _ =>
    cases h
    exact pushChecked_keeps (hother hop nofun nofun) _
  case h_9 hop _ =>
    cases h
    simp only [Keeps, hother hop nofun nofun, applyWrites_nil]
  case h_10 hop =>
    cases h
    exact pushChecked_keeps (hother hop nofun nofun) _
  case h_11 v rest hop hstack =>
    cases h
    split
    · simp only [Keeps, stored, hop, hstack, applyWrites_cons, applyWrites_nil]
    · rfl
  case h_12 v rest hop hstack =>
    cases h
    split
    · simp only [Keeps, stored, hop, hstack, applyWrites_cons, applyWrites_nil]
    · rfl
  case h_13 hop =>
    split at h
    · cases h
      simp only [Keeps, hother hop nofun nofun, applyWrites_nil]
    · cases h
  case h_14 hop _ =>
    cases h
    simp only [Keeps, hother hop nofun nofun, applyWrites_nil]
  case h_15 => cases h
  case h_16 hop =>
    cases h
    exact jumpTo_keeps (hother hop nofun nofun) _ rfl
  case h_17 hop _ =>
    cases h
    exact jumpTo_keeps (hother hop nofun nofun) _ rfl
  case h_18 hop _ =>
    cases h
    exact jumpTo_keeps (hother hop nofun nofun) _ rfl
  case h_19 =>
    cases h
    split <;> rfl
  case h_20 =>
    split at h
    · rename_i hop
      cases h
      exact stepVirtual_keeps (hnil hop (by decide) (by decide))
    · split at h
      · rename_i hop
        cases h
        split
        · simp only [Keeps, hnil hop (by decide) (by decide), applyWrites_nil]
        · rfl
      · split at h
        · rename_i hop
          cases h
          simp only [Keeps, hnil hop (by decide) (by decide), applyWrites_nil]
        · split at h
          · rename_i hop
            cases h
            simp only [Keeps, hnil hop (by decide) (by decide), applyWrites_nil]
          · split at h
            · rename_i hop
              cases h
              simp only [Keeps, hnil hop (by decide) (by decide), applyWrites_nil]
            · cases h
              rfl
  case h_21 =>
    split at h
    · cases h
    · split at h
      · rename_i hop
        cases h
        exact stepVirtual_keeps (hnil hop (by decide) (by decide))
      · cases h
        rfl

end Evaluation

section

variable {plan : Plan} {env : CallEnv}

theorem Plan.evaluateFrom_path (fuel i : Nat) (s : Evaluation) :
    (plan.evaluateFrom env fuel i s = none ∧ plan.pathFrom env fuel i s = none) ∨
      ∃ o p, plan.evaluateFrom env fuel i s = some o ∧ plan.pathFrom env fuel i s = some p ∧
        o.Along p s.cells := by
  induction fuel generalizing i s with
  | zero => exact .inl ⟨rfl, rfl⟩
  | succ fuel ih =>
    cases hi : plan.instructions[i]? with
    | none =>
      right
      rw [evaluateFrom, pathFrom, hi]
      obtain ⟨stack, arguments, locals, cells, fields⟩ := s
      rcases stack with _ | ⟨u, _ | ⟨v, rest⟩⟩
      · exact ⟨_, _, rfl, rfl, rfl, rfl⟩
      · exact ⟨_, _, rfl, rfl, rfl, rfl⟩
      · exact ⟨_, _, rfl, rfl, by simp [Outcome.isDeclined], rfl⟩
    | some instruction =>
      simp only [evaluateFrom, pathFrom, hi]
      cases hs : s.step env plan.instructions.length instruction with
      | none => exact .inl ⟨rfl, rfl⟩
      | some r =>
        have hkeeps := Evaluation.step_keeps hs
        cases r with
        | next t =>
          simp only [Option.bind_eq_bind, Option.bind_some]
          rcases ih (i + 1) t with ⟨he, hp⟩ | ⟨o, p, he, hp, hd, hc⟩
          · exact .inl ⟨he, by rw [hp]; rfl⟩
          · refine .inr ⟨o, .after (s.stored instruction) p, he, by rw [hp]; rfl, hd, ?_⟩
            rw [hc, hkeeps, Path.after, applyWrites_append]
        | jump k t =>
          simp only [Option.bind_eq_bind, Option.bind_some]
          rcases ih k t with h | ⟨o, p, he, hp, hd, hc⟩
          · exact .inl h
          · exact .inr ⟨o, p, he, hp, hd, by rw [hc, hkeeps]⟩
        | leave t =>
          simp only [Option.bind_eq_bind, Option.bind_some]
          obtain ⟨stack, arguments, locals, cells, fields⟩ := t
          cases stack with
          | nil => exact .inl ⟨rfl, rfl⟩
          | cons v rest => exact .inr ⟨_, _, rfl, rfl, rfl, hkeeps⟩
        | decline t => exact .inr ⟨_, _, rfl, rfl, rfl, hkeeps⟩

theorem Plan.call_path (plan : Plan) (fuel : Nat) (env : CallEnv) (cells : Cells) :
    (plan.call fuel env cells = none ∧ plan.path fuel env cells = none) ∨
      ∃ o p, plan.call fuel env cells = some o ∧ plan.path fuel env cells = some p ∧
        o.Along p cells := by
  unfold Plan.call Plan.path
  cases plan.kind with
  | affine =>
    right
    cases plan.executeAffine env.args with
    | none => exact ⟨_, _, rfl, rfl, rfl, rfl⟩
    | some result => exact ⟨_, _, rfl, rfl, rfl, rfl⟩
  | stateful =>
    right
    cases plan.executeStateful (cells 0) with
    | none => exact ⟨_, _, rfl, rfl, rfl, rfl⟩
    | some result => exact ⟨_, _, rfl, rfl, rfl, rfl⟩
  | stringHash =>
    right
    cases plan.hashedUnits env with
    | none => exact ⟨_, _, rfl, rfl, rfl, rfl⟩
    | some found => exact ⟨_, _, rfl, rfl, rfl, rfl⟩
  | general =>
    dsimp only
    split
    · exact Plan.evaluateFrom_path fuel 0 (.start env cells)
    · exact .inr ⟨_, _, rfl, rfl, rfl, rfl⟩

end

end TurboJS.Leaf
