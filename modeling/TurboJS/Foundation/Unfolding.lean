import Mathlib.Logic.Relation
import Mathlib.Tactic.Common

namespace TurboJS.Foundation

/-! Graphs of expressions with shared parts, and the trees that they unfold to. -/

variable {α ν ο : Type*}

/-- A node of an expression graph: a value, or an operation on two nodes. -/
inductive Shape (ν ο α : Type*) where
  | leaf (v : ν)
  | node (op : ο) (left right : α)

inductive ExprTree (ν ο : Type*) where
  | leaf (v : ν)
  | node (op : ο) (left right : ExprTree ν ο)

/-- Plain recursive evaluation. -/
def ExprTree.value (apply : ο → ν → ν → ν) : ExprTree ν ο → ν
  | .leaf v => v
  | .node op left right => apply op (left.value apply) (right.value apply)

section

variable (shape : α → Option (Shape ν ο α))

/-- The graph below a node is the given tree, with its shared parts repeated. -/
inductive Unfolds : α → ExprTree ν ο → Prop where
  | leaf {a : α} {v : ν} (h : shape a = some (.leaf v)) : Unfolds a (.leaf v)
  | node {a left right : α} {op : ο} {l r : ExprTree ν ο} (h : shape a = some (.node op left right))
      (hl : Unfolds left l) (hr : Unfolds right r) : Unfolds a (.node op l r)

/-- `b` is a part of the operation `a`. -/
def Edge (a b : α) : Prop :=
  ∃ op left right, shape a = some (.node op left right) ∧ (b = left ∨ b = right)

/-- No node that is reached from the root lies on a cycle. -/
def AcyclicFrom (root : α) : Prop :=
  ∀ b, Relation.ReflTransGen (Edge shape) root b → ¬ Relation.TransGen (Edge shape) b b

end

variable {shape : α → Option (Shape ν ο α)} {a : α} {s t : ExprTree ν ο}

theorem Unfolds.unique (hs : Unfolds shape a s) (ht : Unfolds shape a t) : s = t := by
  induction hs generalizing t with
  | leaf h =>
    cases ht with
    | leaf h' =>
      rw [h] at h'
      cases h'
      rfl
    | node h' _ _ =>
      rw [h] at h'
      cases h'
  | node h _ _ ihl ihr =>
    cases ht with
    | leaf h' =>
      rw [h] at h'
      cases h'
    | node h' hl' hr' =>
      rw [h] at h'
      cases h'
      rw [ihl hl', ihr hr']

theorem Unfolds.edge {b : α} (h : Unfolds shape a t) (he : Edge shape a b) :
    ∃ t', Unfolds shape b t' := by
  obtain ⟨op, left, right, hnode, hb⟩ := he
  cases h with
  | leaf hleaf =>
    rw [hleaf] at hnode
    cases hnode
  | node h hl hr =>
    rw [h] at hnode
    cases hnode
    rcases hb with rfl | rfl
    · exact ⟨_, hl⟩
    · exact ⟨_, hr⟩

theorem Unfolds.reach {b : α} (h : Unfolds shape a t)
    (hb : Relation.ReflTransGen (Edge shape) a b) : ∃ t', Unfolds shape b t' := by
  induction hb with
  | refl => exact ⟨t, h⟩
  | tail _ he ih =>
    obtain ⟨t', ht'⟩ := ih
    exact ht'.edge he

theorem Unfolds.acc (h : Unfolds shape a t) : Acc (fun b a => Edge shape a b) a := by
  induction h with
  | leaf h =>
    refine Acc.intro _ fun b hb => ?_
    obtain ⟨op, left, right, hnode, -⟩ := hb
    rw [h] at hnode
    cases hnode
  | node h _ _ ihl ihr =>
    refine Acc.intro _ fun b hb => ?_
    obtain ⟨op, left, right, hnode, hb⟩ := hb
    rw [h] at hnode
    cases hnode
    rcases hb with rfl | rfl
    · exact ihl
    · exact ihr

theorem acc_irrefl {r : α → α → Prop} (h : Acc r a) : ¬ r a a := by
  induction h with
  | intro a _ ih => exact fun haa => ih a haa haa

theorem Unfolds.acyclic (h : Unfolds shape a t) : AcyclicFrom shape a := by
  intro b hb hcycle
  obtain ⟨t', ht'⟩ := h.reach hb
  have hback : Relation.TransGen (fun b a => Edge shape a b) b b :=
    Relation.transGen_swap.mp hcycle
  exact acc_irrefl ht'.acc.transGen hback

end TurboJS.Foundation
