import TurboJS.Optimizing.Sound
import TurboJS.Foundation.Run

namespace TurboJS.Optimizing

open IR Foundation

/-! Evaluation of a graph along its control flow. -/

abbrev Valuation := Nat → Option Word

/-- What an evaluation is given: the arguments, what the values read that this development takes
as they come (loads, objects, minima and maxima of doubles) by the number of the step, and whether
a phi reads the words as they are in the order of the ids or as they were at the block's entry. -/
structure Inputs where
  arguments : List Word
  reads : Nat → Word
  inOrder : Bool := false

/-- A place in an evaluation: the block, the block it was entered from, the index of the next value
to look at, the words at the entry of the block and now, and the steps so far. -/
structure Place where
  block : Nat
  origin : Nat := noBlock
  next : Nat := 0
  entry : Valuation := fun _ => none
  words : Valuation := fun _ => none
  time : Nat := 0

inductive Situation where
  | running (m : Place)
  | returned (w : Word)

inductive Effect where
  | word (w : Word)
  | nothing
  | goto (b : Nat)
  | ret (w : Word)

def fallThrough (g : Graph) (b target : Nat) : Nat :=
  match (g.block b).successors with
  | first :: rest => if first = target then rest.headD target else first
  | [] => noBlock

def targetOf (v : Value) : Nat := v.immediate.toNat % 4294967296

def phiOperand (g : Graph) (m : Place) (v : Value) : Option Nat :=
  match (g.block m.block).predecessors.idxOf? m.origin with
  | some 0 => some v.left
  | some 1 => some v.right
  | _ => none

/-- A value at a place; `none` is a value that cannot be evaluated there. -/
def effect (c : Inputs) (g : Graph) (m : Place) (v : Value) : Option Effect :=
  match v.opcode with
  | .argument => (c.arguments[v.immediate.toNat]?).map .word
  | .constantI64 => some (.word v.immediate)
  | .phi => (phiOperand g m v).bind fun x =>
    ((if c.inOrder then m.words else m.entry) x).map .word
  | .guardInt32 => (m.words v.left).bind fun w => if fitsInt32 w then some (.word w) else none
  | .propertyLoad | .virtualObject | .virtualFieldStore | .elementLoad | .minF64 | .maxF64 =>
    some (.word (c.reads m.time))
  | .nop | .propertyStore | .elementStore => some .nothing
  | .jump => some (.goto (targetOf v))
  | .branchTrue => (m.words v.left).map fun w =>
    .goto (if w ≠ 0 then targetOf v else fallThrough g m.block (targetOf v))
  | .branchFalse => (m.words v.left).map fun w =>
    .goto (if w = 0 then targetOf v else fallThrough g m.block (targetOf v))
  | .ret => (m.words v.left).map .ret
  | op => (m.words v.left).bind fun l => (m.words v.right).bind fun r =>
    (evalBinary op l r).map .word

def Place.enter (m : Place) (b : Nat) : Place :=
  { block := b, origin := m.block, entry := m.words, words := m.words, time := m.time + 1 }

def Place.advance (m : Place) : Place := { m with next := m.next + 1, time := m.time + 1 }

def Place.define (m : Place) (w : Word) : Place :=
  { m.advance with words := Function.update m.words m.next (some w) }

def Place.executes (m : Place) (g : Graph) : Prop :=
  m.next < g.valueCount ∧ (g.value m.next).removed = false ∧ (g.value m.next).block = m.block

instance (m : Place) (g : Graph) : Decidable (m.executes g) := inferInstanceAs (Decidable (_ ∧ _))

def enterBlock (g : Graph) (m : Place) (b : Nat) : Option Situation :=
  if b < g.blockCount then some (.running (m.enter b)) else none

def Effect.apply (g : Graph) (m : Place) : Effect → Option Situation
  | .word w => some (.running (m.define w))
  | .nothing => some (.running m.advance)
  | .goto b => enterBlock g m b
  | .ret w => some (.returned w)

def stepPlace (c : Inputs) (g : Graph) (m : Place) : Option Situation :=
  if m.next < g.valueCount then
    if m.executes g then (effect c g m (g.value m.next)).bind (Effect.apply g m)
    else some (.running m.advance)
  else match (g.block m.block).successors with
    | b :: _ => enterBlock g m b
    | [] => none

def evaluationStep (c : Inputs) (g : Graph) : Situation → Option Situation
  | .running m => stepPlace c g m
  | .returned _ => none

def startPlace (g : Graph) : Place := { block := g.entryBlock }

def evaluate (c : Inputs) (g : Graph) : Nat → Option Situation
  | 0 => some (.running (startPlace g))
  | n + 1 => (evaluate c g n).bind (evaluationStep c g)

def Returns (c : Inputs) (g : Graph) (w : Word) : Prop := ∃ n, evaluate c g n = some (.returned w)

/-- Some step of an evaluation gives value `i` the word. -/
def Gives (c : Inputs) (g : Graph) (i : Nat) (w : Word) : Prop :=
  ∃ n m, evaluate c g n = some (.running m) ∧ m.executes g ∧ m.next = i ∧
    effect c g m (g.value i) = some (.word w)

section

variable {c : Inputs} {g : Graph} {n : Nat} {m : Place} {s : Situation}

theorem evaluate_succ (h : evaluate c g (n + 1) = some s) :
    ∃ m, evaluate c g n = some (.running m) ∧ stepPlace c g m = some s := by
  obtain ⟨t, ht, hs⟩ := Option.bind_eq_some_iff.mp h
  cases t with
  | running m => exact ⟨m, ht, hs⟩
  | returned w => cases hs

theorem evaluate_after_return {w : Word} (h : evaluate c g n = some (.returned w)) {k : Nat}
    (hk : n < k) : evaluate c g k = none := by
  induction k with
  | zero => cases hk
  | succ k ih =>
    rcases Nat.lt_succ_iff_lt_or_eq.mp hk with hlt | rfl
    · rw [evaluate, ih hlt]
      rfl
    · rw [evaluate, h]
      rfl

theorem evaluate_invariant {P : Place → Prop} (hstart : P (startPlace g))
    (hstep : ∀ m m', P m → stepPlace c g m = some (.running m') → P m')
    (h : evaluate c g n = some (.running m)) : P m := by
  induction n generalizing m with
  | zero =>
    cases h
    exact hstart
  | succ n ih =>
    obtain ⟨m', hm', hs⟩ := evaluate_succ h
    exact hstep m' m (ih hm') hs

theorem stepPlace_cases {m' : Place} (h : stepPlace c g m = some (.running m')) :
    (∃ b, b < g.blockCount ∧ m' = m.enter b ∧
      (m.executes g ∧ effect c g m (g.value m.next) = some (.goto b) ∨
        g.valueCount ≤ m.next ∧ (g.block m.block).successors.head? = some b)) ∨
    (m' = m.advance ∧ m.next < g.valueCount ∧
      (m.executes g → effect c g m (g.value m.next) = some .nothing)) ∨
    ∃ w, m.executes g ∧ effect c g m (g.value m.next) = some (.word w) ∧ m' = m.define w := by
  have henter {b : Nat} (h : enterBlock g m b = some (.running m')) :
      b < g.blockCount ∧ m' = m.enter b := by
    unfold enterBlock at h
    split at h
    · rename_i hb
      cases h
      exact ⟨hb, rfl⟩
    · cases h
  unfold stepPlace at h
  split at h
  · rename_i hlt
    split at h
    · rename_i hexec
      obtain ⟨e, he, h⟩ := Option.bind_eq_some_iff.mp h
      cases e with
      | word w =>
        cases h
        exact .inr (.inr ⟨w, hexec, he, rfl⟩)
      | nothing =>
        cases h
        exact .inr (.inl ⟨rfl, hlt, fun _ => he⟩)
      | goto b =>
        obtain ⟨hb, hm⟩ := henter h
        exact .inl ⟨b, hb, hm, .inl ⟨hexec, he⟩⟩
      | ret w => cases h
    · rename_i hexec
      cases h
      exact .inr (.inl ⟨rfl, hlt, fun he => absurd he hexec⟩)
  · rename_i hge
    split at h
    · rename_i b rest hs
      obtain ⟨hb, hm⟩ := henter h
      exact .inl ⟨b, hb, hm, .inr ⟨Nat.not_lt.mp hge, by rw [hs]; rfl⟩⟩
    · cases h

theorem stepPlace_running {m' : Place} (h : stepPlace c g m = some (.running m')) :
    (∃ b, b < g.blockCount ∧ m' = m.enter b) ∨ m' = m.advance ∨
    ∃ w, m.executes g ∧ effect c g m (g.value m.next) = some (.word w) ∧ m' = m.define w := by
  rcases stepPlace_cases h with ⟨b, hb, hm, -⟩ | ⟨hm, -⟩ | hword
  · exact .inl ⟨b, hb, hm⟩
  · exact .inr (.inl hm)
  · exact .inr (.inr hword)

theorem words_given (h : evaluate c g n = some (.running m)) :
    (∀ i w, m.words i = some w → Gives c g i w) ∧ ∀ i w, m.entry i = some w → Gives c g i w := by
  induction n generalizing m with
  | zero =>
    cases h
    refine ⟨?_, ?_⟩ <;> (intro i w hw; cases hw)
  | succ n ih =>
    obtain ⟨m', hm', hs⟩ := evaluate_succ h
    obtain ⟨hwords, hentry⟩ := ih hm'
    rcases stepPlace_running hs with ⟨b, -, rfl⟩ | rfl | ⟨x, hexec, heff, rfl⟩
    · exact ⟨hwords, hwords⟩
    · exact ⟨hwords, hentry⟩
    · refine ⟨?_, hentry⟩
      intro i w hw
      rcases eq_or_ne i m'.next with rfl | hne
      · have hw : Function.update m'.words m'.next (some x) m'.next = some w := hw
        rw [Function.update_self] at hw
        cases hw
        exact ⟨n, m', hm', hexec, rfl, heff⟩
      · exact hwords i w ((Function.update_of_ne hne _ _).symm.trans hw)

theorem effect_binary {v : Value} (h : isBinary v.opcode = true) :
    effect c g m v = (m.words v.left).bind fun l => (m.words v.right).bind fun r =>
      (evalBinary v.opcode l r).map .word := by
  unfold effect
  cases ho : v.opcode <;> first
    | rfl
    | (rw [ho] at h; cases h)

end

end TurboJS.Optimizing
