import Mathlib.Algebra.Order.BigOperators.Group.List
import Mathlib.Algebra.Order.Ring.Int

namespace TurboJS.Foundation

/-! Counting the references between the entries of a table. -/

variable {ν : Type*} (refs : ν → List Nat)

/-- How often the entries of a table refer to index `x`. -/
def usesIn (l : List ν) (x : Nat) : Nat := (l.map fun v => (refs v).count x).sum

variable {refs} {l : List ν} {x : Nat}

@[simp] theorem usesIn_nil : usesIn refs [] x = 0 := rfl

@[simp] theorem usesIn_cons (v : ν) (l : List ν) :
    usesIn refs (v :: l) x = (refs v).count x + usesIn refs l x := by
  simp [usesIn]

theorem usesIn_eq_zero : usesIn refs l x = 0 ↔ ∀ v ∈ l, x ∉ refs v := by
  induction l with
  | nil => simp
  | cons v l ih => simp [ih, List.count_eq_zero]

theorem usesIn_modify (f : ν → ν) (d : ν) {i : Nat} (hi : i < l.length) :
    usesIn refs (l.modify i f) x + (refs (l.getD i d)).count x =
      usesIn refs l x + (refs (f (l.getD i d))).count x := by
  induction l generalizing i with
  | nil => simp at hi
  | cons v l ih =>
    cases i with
    | zero =>
      simp only [List.modify_zero_cons, usesIn_cons, List.getD_cons_zero]
      omega
    | succ i =>
      have := ih (i := i) (by simpa using hi)
      simp only [List.modify_succ_cons, usesIn_cons, List.getD_cons_succ]
      omega

theorem usesIn_map_le (f : ν → ν) (k : ν → Nat)
    (h : ∀ v ∈ l, (refs (f v)).count x ≤ (refs v).count x + k v) :
    usesIn refs (l.map f) x ≤ usesIn refs l x + (l.map k).sum := by
  induction l with
  | nil => simp
  | cons v l ih =>
    have hv := h v List.mem_cons_self
    have hl := ih fun u hu => h u (List.mem_cons_of_mem v hu)
    simp only [List.map_cons, usesIn_cons, List.sum_cons]
    omega

end TurboJS.Foundation
