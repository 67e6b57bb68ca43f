import TurboJS.Optimizing.Preservation

namespace TurboJS.Optimizing

open IR Foundation

/-! The two variants of `fold_binary`. -/

def int64Max : Int := 2 ^ 63 - 1
def int64Min : Int := -(2 ^ 63)

/-- `fold_binary` without the compiler's overflow builtins: the signs are told apart by hand. -/
def foldBinaryPortable (op : SSAOpcode) (l r : Word) : Option Word :=
  let left := l.toInt
  let right := r.toInt
  match op with
  | .addI64 =>
    if (right > 0 ∧ left > int64Max - right) ∨ (right < 0 ∧ left < int64Min - right) then none
    else some (l + r)
  | .subI64 =>
    if (right < 0 ∧ left > int64Max + right) ∨ (right > 0 ∧ left < int64Min + right) then none
    else some (l - r)
  | .mulI64 =>
    if left = 0 ∨ right = 0 then some 0
    else if left = -1 ∧ right = int64Min then none
    else if right = -1 ∧ left = int64Min then none
    else if left > 0 then
      if right > 0 then if left > int64Max.tdiv right then none else some (l * r)
      else if right < int64Min.tdiv left then none else some (l * r)
    else
      if right > 0 then if left < int64Min.tdiv right then none else some (l * r)
      else if left ≠ 0 ∧ right < int64Max.tdiv left then none else some (l * r)
  | op => foldBinary op l r

section

variable {x d : Int} {w : Word}

theorem checked_eq (hw : w.toInt = x.bmod (2 ^ 64)) :
    checked x w = if int64Min ≤ x ∧ x ≤ int64Max then some w else none := by
  have hlow := BitVec.le_toInt w
  have hhigh := BitVec.toInt_lt (x := w)
  unfold checked int64Min int64Max
  by_cases hx : w.toInt = x
  · rw [if_pos hx, if_pos (by omega)]
  · rw [if_neg hx, if_neg]
    rintro ⟨hmin, hmax⟩
    apply hx
    rw [hw]
    exact Int.bmod_eq_of_le (by omega) (by omega)

theorem lt_mul_iff (a : Int) (hd : 0 < d) : a / d < x ↔ a < x * d :=
  Int.ediv_lt_iff_lt_mul hd

theorem gt_quotient (hd : 0 < d) : x > int64Max.tdiv d ↔ x * d > int64Max := by
  rw [Int.tdiv_eq_ediv_of_nonneg (by decide)]
  exact lt_mul_iff int64Max hd

theorem lt_quotient (hd : 0 < d) : x < int64Min.tdiv d ↔ x * d < int64Min := by
  have hmin : int64Min = -(2 ^ 63) := rfl
  rw [hmin, Int.neg_tdiv, Int.tdiv_eq_ediv_of_nonneg (by decide)]
  have := lt_mul_iff (x := -x) (2 ^ 63) hd
  rw [Int.neg_mul] at this
  omega

theorem lt_quotient_neg (hd : d < 0) : x < int64Max.tdiv d ↔ x * d > int64Max := by
  have hneg : int64Max.tdiv d = -(int64Max / -d) := by
    rw [← Int.tdiv_eq_ediv_of_nonneg (by decide), Int.tdiv_neg, Int.neg_neg]
  have := lt_mul_iff (x := -x) int64Max (d := -d) (by omega)
  rw [Int.neg_mul_neg] at this
  omega

theorem within_eq (x : Int) (w : Word) :
    (if int64Min ≤ x ∧ x ≤ int64Max then some w else none) =
      if x < int64Min ∨ x > int64Max then none else some w := by
  split <;> split <;> first | rfl | omega

end

theorem portable_mul (l r : Word) : foldBinaryPortable .mulI64 l r = foldBinary .mulI64 l r := by
  show _ = checked (l.toInt * r.toInt) (l * r)
  rw [checked_eq (BitVec.toInt_mul l r)]
  unfold foldBinaryPortable
  dsimp only
  split
  · rename_i hsome
    have hzero (w : Word) (h : w.toInt = 0) : w = 0 := BitVec.eq_of_toInt_eq h
    rcases hsome with h | h
    · rw [h, Int.zero_mul, if_pos (by decide), hzero l h]
      exact congrArg some BitVec.zero_mul.symm
    · rw [h, Int.mul_zero, if_pos (by decide), hzero r h]
      exact congrArg some BitVec.mul_zero.symm
  · rename_i hne
    rw [not_or] at hne
    obtain ⟨hne, hne'⟩ := hne
    rw [within_eq]
    split
    · rename_i h
      rw [h.1, h.2]
      rfl
    split
    · rename_i h
      rw [h.1, h.2]
      rfl
    have hmin : int64Min < 0 := by decide
    have hmax : 0 < int64Max := by decide
    rcases Int.lt_or_gt_of_ne hne with hln | hlp <;> rcases Int.lt_or_gt_of_ne hne' with hrn | hrp
    · rw [if_neg (by omega), if_neg (by omega)]
      refine if_congr ?_ rfl rfl
      rw [lt_quotient_neg hln, Int.mul_comm r.toInt]
      have hpos := Int.mul_pos_of_neg_of_neg hln hrn
      omega
    · rw [if_neg (by omega), if_pos (by omega)]
      refine if_congr ?_ rfl rfl
      rw [lt_quotient hrp]
      have hneg := Int.mul_neg_of_neg_of_pos hln hrp
      omega
    · rw [if_pos (by omega), if_neg (by omega)]
      refine if_congr ?_ rfl rfl
      rw [lt_quotient hlp, Int.mul_comm r.toInt]
      have hneg := Int.mul_neg_of_pos_of_neg hlp hrn
      omega
    · rw [if_pos (by omega), if_pos (by omega)]
      refine if_congr ?_ rfl rfl
      rw [gt_quotient hrp]
      have hpos := Int.mul_pos hlp hrp
      omega

theorem foldBinaryPortable_eq (op : SSAOpcode) (l r : Word) :
    foldBinaryPortable op l r = foldBinary op l r := by
  have hl := BitVec.le_toInt l
  have hl' := BitVec.toInt_lt (x := l)
  have hr := BitVec.le_toInt r
  have hr' := BitVec.toInt_lt (x := r)
  cases op with
  | addI64 =>
    show _ = checked (l.toInt + r.toInt) (l + r)
    rw [checked_eq (BitVec.toInt_add l r)]
    unfold foldBinaryPortable int64Min int64Max
    dsimp only
    split <;> split <;> first | rfl | omega
  | subI64 =>
    show _ = checked (l.toInt - r.toInt) (l - r)
    rw [checked_eq BitVec.toInt_sub]
    unfold foldBinaryPortable int64Min int64Max
    dsimp only
    split <;> split <;> first | rfl | omega
  | mulI64 => exact portable_mul l r
  | _ => rfl

end TurboJS.Optimizing
