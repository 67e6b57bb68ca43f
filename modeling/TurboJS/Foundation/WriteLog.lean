import Mathlib.Data.List.Induction

namespace TurboJS.Foundation

/-! Lists of writes to a map, the oldest first. -/

variable {α β : Type} [DecidableEq α]

/-- The map after the writes. -/
def applyWrites (writes : List (α × β)) (m : α → Option β) : α → Option β :=
  writes.foldl (fun m w => Function.update m w.1 (some w.2)) m

/-- What the last write to a place has put there. -/
def lastWrite (writes : List (α × β)) (a : α) : Option β := writes.reverse.lookup a

/-- The last write to each place has put there what the map already has. -/
def Restores (writes : List (α × β)) (m : α → Option β) : Prop :=
  ∀ a b, lastWrite writes a = some b → m a = some b

variable {writes writes' : List (α × β)} {m : α → Option β} {a : α}

@[simp] theorem applyWrites_nil : applyWrites [] m = m := rfl

@[simp] theorem applyWrites_cons (w : α × β) :
    applyWrites (w :: writes) m = applyWrites writes (Function.update m w.1 (some w.2)) := rfl

theorem applyWrites_append :
    applyWrites (writes ++ writes') m = applyWrites writes' (applyWrites writes m) :=
  List.foldl_append

theorem lastWrite_concat (w : α × β) :
    lastWrite (writes ++ [w]) a = if a = w.1 then some w.2 else lastWrite writes a := by
  simp only [lastWrite, List.reverse_append, List.reverse_cons, List.reverse_nil, List.nil_append,
    List.singleton_append]
  by_cases h : a = w.1
  · rw [if_pos h, h, List.lookup_cons_self]
  · rw [if_neg h, List.lookup_cons, beq_eq_false_iff_ne.mpr h]

theorem applyWrites_apply : applyWrites writes m a = (lastWrite writes a).or (m a) := by
  induction writes using List.reverseRecOn with
  | nil => rfl
  | append_singleton writes w ih =>
    rw [applyWrites_append, applyWrites_cons, applyWrites_nil, lastWrite_concat]
    by_cases h : a = w.1
    · rw [if_pos h, h, Function.update_self, Option.some_or]
    · rw [if_neg h, Function.update_of_ne h, ih]

theorem applyWrites_eq_iff : applyWrites writes m = m ↔ Restores writes m := by
  constructor
  · intro h a b hab
    rw [← h, applyWrites_apply, hab, Option.some_or]
  · intro h
    funext a
    rw [applyWrites_apply]
    cases hl : lastWrite writes a with
    | none => rw [Option.none_or]
    | some b => rw [Option.some_or, h a b hl]

end TurboJS.Foundation
