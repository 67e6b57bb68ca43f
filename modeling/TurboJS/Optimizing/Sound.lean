import TurboJS.Optimizing.Pipeline

namespace TurboJS.Optimizing

open IR Foundation

def evalBinary (op : SSAOpcode) (l r : Word) : Option Word :=
  match op with
  | .addI64 => some (l + r)
  | .subI64 => some (l - r)
  | .mulI64 => some (l * r)
  | op => foldBinary op l r

def isBinary : SSAOpcode → Bool
  | .addI64 | .subI64 | .mulI64 | .andI64 | .orI64 | .xorI64 | .shlI64 | .sarI64 | .shrI64
  | .lessThanI64 | .lessEqualI64 | .greaterThanI64 | .greaterEqualI64 | .equalI64 => true
  | _ => false

/-- What a valuation `ρ` of the values must satisfy at a live value, for the arguments
`arguments` and the returned word `w`. Only scalar straight-line values have an equation
that can hold. -/
def Equation (arguments : List Word) (w : Word) (ρ : Nat → Word) (v : Value) : Prop :=
  match v.opcode with
  | .argument => ρ v.id = arguments.getD v.immediate.toNat 0
  | .constantI64 => ρ v.id = v.immediate
  | .guardInt32 => ρ v.id = ρ v.left
  | .ret => ρ v.left = w
  | .jump | .branchTrue | .branchFalse => True
  | op => evalBinary op (ρ v.left) (ρ v.right) = some (ρ v.id)

/-- `ρ` gives every live value of the graph the word that the value computes. -/
structure Sound (arguments : List Word) (w : Word) (ρ : Nat → Word) (g : Graph) : Prop where
  ids : ∀ i, i < g.valueCount → (g.value i).id = i
  holds : ∀ i, i < g.valueCount → (g.value i).removed = false →
    Equation arguments w ρ (g.value i)
  first : ∀ i j, i < j → j < g.valueCount → (g.value j).opcode = .argument →
    (g.value i).opcode = .argument

structure Keeps (arguments : List Word) (w : Word) (ρ : Nat → Word) (v v' : Value) : Prop where
  id : v'.id = v.id
  argument : v'.opcode = .argument ↔ v.opcode = .argument
  live : v'.removed = false → v.removed = false
  holds : v'.removed = false → Equation arguments w ρ v → Equation arguments w ρ v'

section

variable {arguments : List Word} {w : Word} {ρ : Nat → Word} {g g' : Graph} {v v' : Value}

theorem evalBinary_isBinary {op : SSAOpcode} {l r x : Word} (h : evalBinary op l r = some x) :
    isBinary op = true := by
  cases op <;> first
    | rfl
    | cases h

theorem equation_binary (h : isBinary v.opcode = true) :
    Equation arguments w ρ v ↔
      evalBinary v.opcode (ρ v.left) (ρ v.right) = some (ρ v.id) := by
  unfold Equation
  cases ho : v.opcode <;> rw [ho] at h <;> first
    | exact Iff.rfl
    | cases h

theorem equation_argument (h : v.opcode = .argument) :
    Equation arguments w ρ v ↔ ρ v.id = arguments.getD v.immediate.toNat 0 := by
  unfold Equation
  rw [h]

theorem equation_constant (h : v.opcode = .constantI64) :
    Equation arguments w ρ v ↔ ρ v.id = v.immediate := by
  unfold Equation
  rw [h]

theorem equation_guard (h : v.opcode = .guardInt32) :
    Equation arguments w ρ v ↔ ρ v.id = ρ v.left := by
  unfold Equation
  rw [h]

theorem equation_ret (h : v.opcode = .ret) : Equation arguments w ρ v ↔ ρ v.left = w := by
  unfold Equation
  rw [h]

theorem Keeps.refl (v : Value) : Keeps arguments w ρ v v :=
  ⟨rfl, Iff.rfl, fun h => h, fun _ h => h⟩

theorem Equation.congr (ho : v'.opcode = v.opcode) (hi : v'.id = v.id)
    (hl : ρ v'.left = ρ v.left) (hr : ρ v'.right = ρ v.right) (hm : v'.immediate = v.immediate)
    (h : Equation arguments w ρ v) : Equation arguments w ρ v' := by
  unfold Equation at h ⊢
  rw [ho, hi, hl, hr, hm]
  exact h

theorem Keeps.of_meta (ho : v'.opcode = v.opcode) (hi : v'.id = v.id) (hl : v'.left = v.left)
    (hr : v'.right = v.right) (hm : v'.immediate = v.immediate)
    (hv : v'.removed = false → v.removed = false) : Keeps arguments w ρ v v' := by
  refine ⟨hi, by rw [ho], hv, ?_⟩
  intro _ he
  exact he.congr ho hi (by rw [hl]) (by rw [hr]) hm

theorem Keeps.dropUse (v : Value) : Keeps arguments w ρ v (dropUse v) :=
  .of_meta rfl rfl rfl rfl rfl fun h => h

theorem Keeps.remove (v : Value) : Keeps arguments w ρ v (remove v) :=
  .of_meta rfl rfl rfl rfl rfl fun h => by cases h

theorem Keeps.substitute {source target : Nat} (h : ρ source = ρ target) (v : Value) :
    Keeps arguments w ρ v (substitute source target v) := by
  have hop : ∀ x, ρ (if x = source then target else x) = ρ x := by
    intro x
    by_cases hx : x = source
    · rw [if_pos hx, hx, h]
    · rw [if_neg hx]
  unfold Optimizing.substitute
  split
  · exact .refl v
  · refine ⟨rfl, Iff.rfl, fun h => h, ?_⟩
    intro _ he
    exact Equation.congr (v := v) rfl rfl (hop v.left) (hop v.right) rfl he

theorem Sound.of_keeps (h : Sound arguments w ρ g) (hc : g'.valueCount = g.valueCount)
    (hk : ∀ i, i < g.valueCount → Keeps arguments w ρ (g.value i) (g'.value i)) :
    Sound arguments w ρ g' := by
  refine ⟨?_, ?_, ?_⟩
  · intro i hi
    rw [hc] at hi
    rw [(hk i hi).id, h.ids i hi]
  · intro i hi hl
    rw [hc] at hi
    exact (hk i hi).holds hl (h.holds i hi ((hk i hi).live hl))
  · intro i j hij hj ha
    rw [hc] at hj
    have haj := (hk j hj).argument.mp ha
    exact (hk i (Nat.lt_trans hij hj)).argument.mpr (h.first i j hij hj haj)

theorem Sound.setValue (h : Sound arguments w ρ g) (i : Nat) {u : Value → Value}
    (hu : i < g.valueCount → Keeps arguments w ρ (g.value i) (u (g.value i))) :
    Sound arguments w ρ (g.setValue i u) := by
  refine h.of_keeps (Graph.setValue_valueCount g i u) ?_
  intro j hj
  rw [Graph.setValue_value]
  by_cases hij : i = j
  · subst hij
    rw [if_pos ⟨rfl, hj⟩]
    exact hu hj
  · rw [if_neg fun hc => hij hc.1]
    exact .refl _

theorem Sound.of_values (h : Sound arguments w ρ g) (hv : g'.values = g.values) :
    Sound arguments w ρ g' := by
  have hval : ∀ i, g'.value i = g.value i := by
    intro i
    unfold Graph.value
    rw [hv]
  refine h.of_keeps (by unfold Graph.valueCount; rw [hv]) ?_
  intro i _
  rw [hval]
  exact .refl _

theorem map_value (g : Graph) (u : Value → Value) {i : Nat} (hi : i < g.valueCount) :
    ({ g with values := g.values.map u } : Graph).value i = u (g.value i) := by
  have hi' : i < g.values.length := hi
  simp [Graph.value, List.getD_eq_getElem?_getD, hi']

theorem Sound.replaceValueUses (h : Sound arguments w ρ g) {source target : Nat}
    (hr : ρ source = ρ target) : Sound arguments w ρ (replaceValueUses g source target) := by
  unfold Optimizing.replaceValueUses
  refine Sound.setValue (Sound.setValue ?_ target ?_) source ?_
  · refine h.of_keeps (by simp [Graph.valueCount]) ?_
    intro i hi
    rw [map_value g _ hi]
    exact .substitute hr _
  · intro _
    exact .of_meta rfl rfl rfl rfl rfl fun h => h
  · intro _
    exact .of_meta rfl rfl rfl rfl rfl fun h => h

theorem Sound.reuse (h : Sound arguments w ρ g) {i j : Nat} (hr : ρ i = ρ j) :
    Sound arguments w ρ ((Optimizing.replaceValueUses g i j).setValue i Optimizing.remove) :=
  (h.replaceValueUses hr).setValue i fun _ => .remove _

theorem Sound.constant (h : Sound arguments w ρ g) {i : Nat} (hi : i < g.valueCount)
    (hc : isConst (g.value i) = true) : ρ i = (g.value i).immediate := by
  simp only [isConst, Bool.and_eq_true, decide_eq_true_eq, Bool.not_eq_true'] at hc
  have he := h.holds i hi hc.2
  rw [equation_constant hc.1, h.ids i hi] at he
  exact he

end

end TurboJS.Optimizing
