import TurboJS.Optimizing.References

namespace TurboJS.Optimizing

open IR Foundation

/-! The rewriting passes as decisions: what a pass does at its visit of a value. -/

inductive Action where
  | keep
  | takeOver (j : Nat)
  | takeOverOnce (j : Nat)
  | takeOverById (j : Nat)
  | drop
  | merge (l r : Nat)
  | annotate (limit : Nat)

/-- An action at value `i`. -/
def Action.perform (i : Nat) (g : Graph) : Action → Graph
  | .keep => g
  | .takeOver j => redirect g i j
  | .takeOverOnce j => (redirect g i j).setValue j addUse
  | .takeOverById j => (replaceValueUses g (g.value i).id j).setValue i remove
  | .drop => (dropIfValue (dropIfValue g (g.value i).left) (g.value i).right).setValue i remove
  | .merge l r =>
    let lt := (g.value l).type
    let rt := (g.value r).type
    let g' := if (g.value i).left < g.valueCount then g.setValue (g.value i).left dropUse else g
    ((g'.setValue l addUse).setValue r addUse).setValue i fun v =>
      { v with propertyStateReceiver := v.left, opcode := .phi
               type := if lt = rt then lt else .unknown, left := l, right := r }
  | .annotate limit => g.setValue i fun v =>
    { v with elementLengthValue := limit, elementRangeMin := 0
             elementRangeMax := 2147483647, elementInductionStep := 1
             elementBoundsProven := true, elementLengthHoisted := true
             elementBaseHoisted := true }

/-- What a pass does at value `i`; `none` is a walk that does not end. -/
abbrev Pass := Graph → Nat → Option Action

def Pass.visit (p : Pass) (i : Nat) (g : Graph) : Option Graph := (p g i).map (·.perform i g)

def Pass.run (p : Pass) (g : Graph) : Option Graph := forUpM g.valueCount p.visit g

def runPasses (ps : List Pass) (g : Graph) : Option Graph := ps.foldlM (fun g p => p.run g) g

/-- Pass `p` of the list finds the graph `s` at its visit of value `i`. -/
def Visits (ps : List Pass) (g : Graph) (p : Pass) (i : Nat) (s : Graph) : Prop :=
  ∃ before after t, ps = before ++ p :: after ∧ runPasses before g = some t ∧
    i < t.valueCount ∧ forUpM i p.visit t = some s

def takeOverBy : Option Nat → Action
  | none => .keep
  | some j => .takeOver j

def reusePass (candidate : Value → Bool) (same : Value → Value → Bool) : Pass := fun g i =>
  if (g.value i).removed || !candidate (g.value i) then some .keep
  else some (takeOverBy (searchUp i fun j =>
    if !(g.value j).removed && candidate (g.value j) && same (g.value j) (g.value i)
    then some j else none))

def commonExpressionPass : Pass := reusePass cseCandidate sameExpression

def guardPass : Pass := reusePass (fun v => v.opcode = .guardInt32)
  fun prior guard => prior.block == guard.block && prior.left == guard.left

def scalarPass : Pass := fun g i =>
  let load := g.value i
  if load.removed || load.opcode ≠ .propertyLoad then some .keep
  else
    match virtualField g (load.immediate.toNat % 4294967296) (g.valueCount + 1) load.left with
    | none => some .keep
    | some j => some (if g.valueCount ≤ j then .keep else .takeOverOnce j)

def overwrittenPass : Pass := fun g i =>
  if (g.value i).removed || !propertyStoreIsPlainWritable (g.value i) then some .keep
  else some (if isOverwritten g i (idRange (i + 1) g.valueCount) then .drop else .keep)

def storePhiPass : Pass := fun g i =>
  let load := g.value i
  if !isPropertyLoad load || g.blockCount ≤ load.block then some .keep
  else match (g.block load.block).predecessors with
    | [p, q] =>
      if !propertyBlockPrefixClear g load.block i load.id then some .keep
      else match propertyFindReachingStore g p load, propertyFindReachingStore g q load with
        | some l, some r =>
          if g.valueCount ≤ l || g.valueCount ≤ r then some .keep
          else some (if l = r then .takeOverById l else .merge l r)
        | _, _ => some .keep
    | _ => some .keep

def forwardPass : Pass := fun g i =>
  if !isPropertyLoad (g.value i) then some .keep
  else (scanDown (forwardVisit g i) i).map takeOverBy

def repeatedLoadPass : Pass := fun g i =>
  if !isPropertyLoad (g.value i) then some .keep
  else (scanDown (redundantVisit g i) i).map takeOverBy

def elementLoadPass : Pass := fun g i =>
  let load := g.value i
  if load.removed || load.opcode ≠ .elementLoad then some .keep
  else some (takeOverBy (searchUp i fun j =>
    if !(g.value j).removed && (g.value j).opcode = .elementLoad &&
        sameElementLoad (g.value j) load &&
        !(idRange (j + 1) i).any (fun k => !(g.value k).removed &&
          (g.value k).opcode = .elementStore && (g.value k).left == load.left)
    then some j else none))

def elementRangePass : Pass := fun g i =>
  let v := g.value i
  if v.removed || (v.opcode ≠ .elementLoad && v.opcode ≠ .elementStore) ||
      g.valueCount ≤ v.right then some .keep
  else match canonicalUnitInduction g v.right with
    | none => some .keep
    | some limit =>
      if v.elementLengthValue ≠ noValue && v.elementLengthValue ≠ limit then some .keep
      else some (.annotate limit)

/-- The rewriting passes of `TurboJS_SSAOptimize`, in order. -/
def rewritingPasses : List Pass :=
  [commonExpressionPass, scalarPass, overwrittenPass, storePhiPass, forwardPass, repeatedLoadPass,
    elementLoadPass, elementRangePass, guardPass]

section

variable {g : Graph} {i : Nat}

theorem forUpM_some {σ : Type*} (n : Nat) (body : Nat → σ → σ) (s : σ) :
    forUpM n (fun i s => some (body i s)) s = some (forUp n body s) := by
  induction n with
  | zero => rfl
  | succ n ih => rw [forUpM_succ, forUp_succ, ih]; rfl

theorem Pass.run_eq {p : Pass} {body : Nat → Graph → Graph}
    (h : ∀ i s, p.visit i s = some (body i s)) (g : Graph) :
    p.run g = some (forUp g.valueCount body g) := by
  have hvisit : p.visit = fun i s => some (body i s) := by
    funext i s
    exact h i s
  rw [Pass.run, hvisit, forUpM_some]

theorem reusePass_run (candidate : Value → Bool) (same : Value → Value → Bool) (g : Graph) :
    (reusePass candidate same).run g = some (reuseEarlier candidate same g) := by
  apply Pass.run_eq
  intro i s
  unfold Pass.visit reusePass
  split
  · rfl
  · cases searchUp i _ <;> rfl

theorem scalarPass_run (g : Graph) :
    scalarPass.run g = some (scalarizeVirtualObjectLoads g) := by
  apply Pass.run_eq
  intro i s
  unfold Pass.visit scalarPass
  dsimp only
  split
  · rfl
  · cases virtualField s ((s.value i).immediate.toNat % 4294967296) (s.valueCount + 1)
      (s.value i).left with
    | none => rfl
    | some j =>
      dsimp only
      split <;> rfl

theorem overwrittenPass_run (g : Graph) :
    overwrittenPass.run g = some (eliminateOverwrittenPropertyStores g) := by
  apply Pass.run_eq
  intro i s
  unfold Pass.visit overwrittenPass
  dsimp only
  split
  · rfl
  · split <;> rfl

theorem storePhiPass_run (g : Graph) : storePhiPass.run g = some (createPropertyStorePhis g) := by
  apply Pass.run_eq
  intro i s
  unfold Pass.visit storePhiPass createStorePhi
  dsimp only
  split
  · rfl
  · cases (s.block (s.value i).block).predecessors with
    | nil => rfl
    | cons p rest => match rest with
      | [] => rfl
      | _ :: _ :: _ => rfl
      | [q] =>
        dsimp only
        split
        · rfl
        · cases propertyFindReachingStore s p (s.value i) with
          | none => rfl
          | some l => cases propertyFindReachingStore s q (s.value i) with
            | none => rfl
            | some r =>
              dsimp only
              split
              · rfl
              · split <;> rfl

theorem forwardPass_run (g : Graph) : forwardPass.run g = forwardPropertyStoresToLoads g := by
  unfold Pass.run forwardPropertyStoresToLoads
  congr 1
  funext i s
  unfold Pass.visit forwardPass
  split
  · rfl
  · cases scanDown (forwardVisit s i) i with
    | none => rfl
    | some found => cases found <;> rfl

theorem repeatedLoadPass_run (g : Graph) :
    repeatedLoadPass.run g = eliminateRedundantPropertyLoads g := by
  unfold Pass.run eliminateRedundantPropertyLoads
  congr 1
  funext i s
  unfold Pass.visit repeatedLoadPass
  split
  · rfl
  · cases scanDown (redundantVisit s i) i with
    | none => rfl
    | some found => cases found <;> rfl

theorem elementLoadPass_run (g : Graph) :
    elementLoadPass.run g = some (eliminateRedundantElementLoads g) := by
  apply Pass.run_eq
  intro i s
  unfold Pass.visit elementLoadPass
  dsimp only
  split
  · rfl
  · cases searchUp i _ <;> rfl

theorem elementRangePass_run (g : Graph) :
    elementRangePass.run g = some (recognizeElementLoopRanges g) := by
  apply Pass.run_eq
  intro i s
  unfold Pass.visit elementRangePass
  dsimp only
  split
  · rfl
  · cases canonicalUnitInduction s (s.value i).right with
    | none => rfl
    | some limit =>
      dsimp only
      split <;> rfl

theorem ssaOptimize_eq_passes (fuel : Nat) (g : Graph) :
    ssaOptimize fuel g = (ssaInferTypes fuel g).bind fun g₁ =>
      (ssaInferTypes fuel (foldConstants g₁)).bind fun g₂ =>
        (runPasses rewritingPasses g₂).map fun g₃ =>
          eliminateDeadValues (removeUnreachable g₃) := by
  have hpasses (g₂ : Graph) : runPasses rewritingPasses g₂ =
      (forwardPropertyStoresToLoads (createPropertyStorePhis (eliminateOverwrittenPropertyStores
        (scalarizeVirtualObjectLoads (eliminateLocalCommonExpressions g₂))))).bind fun a =>
        (eliminateRedundantPropertyLoads a).bind fun b => some (eliminateRedundantGuards
          (recognizeElementLoopRanges (eliminateRedundantElementLoads b))) := by
    simp only [runPasses, rewritingPasses, List.foldlM_cons, List.foldlM_nil, commonExpressionPass,
      guardPass, reusePass_run, scalarPass_run, overwrittenPass_run, storePhiPass_run,
      forwardPass_run, repeatedLoadPass_run, elementLoadPass_run, elementRangePass_run,
      Option.bind_eq_bind, Option.bind_some, Option.pure_def]
    rfl
  simp only [ssaOptimize, hpasses, Option.map_bind, Option.map_some, Function.comp_def,
    Option.bind_eq_bind]

end

end TurboJS.Optimizing
