import TurboJS.Foundation.Double
import Mathlib.Algebra.Order.Field.Power
import Mathlib.Tactic.Positivity

namespace TurboJS.Foundation

/-! The 64-bit interchange format of floating-point numbers: the fields of a pattern, the number
it stands for, and the integer part of that number. -/

namespace Double

/-- The order of doubles: a NaN is below nothing and nothing is below it. -/
def less : Double → Double → Bool
  | nan, _ | _, nan => false
  | infinity s, infinity s' => s && !s'
  | infinity s, _ => s
  | _, infinity s => !s
  | x, y => decide (x.value?.getD 0 < y.value?.getD 0)

def lessEq : Double → Double → Bool
  | nan, _ | _, nan => false
  | x, y => !less y x

/-- The integer part; nothing of a number that is not finite. -/
def integerPart (d : Double) : ℤ := ((d.value?).map truncate).getD 0

/-- The cast to a signed integer of `w` bits: undefined when the integer part does not fit. -/
def castSigned (w : Nat) (d : Double) : Option ℤ :=
  (d.value?).bind fun q =>
    if -2 ^ (w - 1) ≤ truncate q ∧ truncate q < 2 ^ (w - 1) then some (truncate q) else none

theorem truncate_neg (q : ℚ) : truncate (-q) = -truncate q := by
  unfold truncate
  rcases lt_trichotomy q 0 with h | h | h
  · rw [if_pos (by linarith), if_neg (not_le.mpr h), Int.floor_neg]
  · subst h
    simp
  · rw [if_neg (by linarith), if_pos h.le, Int.ceil_neg]

theorem truncate_mono {q r : ℚ} (h : q ≤ r) : truncate q ≤ truncate r := by
  unfold truncate
  split
  · next hq =>
    rw [if_pos (hq.trans h)]
    exact Int.floor_mono h
  · next hq =>
    split
    · next hr =>
      have hq0 : ⌈q⌉ ≤ 0 := Int.ceil_le.mpr (by simpa using le_of_not_ge hq)
      exact hq0.trans (Int.floor_nonneg.mpr hr)
    · exact Int.ceil_mono h

theorem truncate_le_intCast {q : ℚ} {n : ℤ} (h : q ≤ n) : truncate q ≤ n :=
  (truncate_mono h).trans_eq (truncate_intCast n)

theorem intCast_le_truncate {q : ℚ} {n : ℤ} (h : (n : ℚ) ≤ q) : n ≤ truncate q :=
  (truncate_intCast n).symm.trans_le (truncate_mono h)

theorem truncate_lt {q : ℚ} {n : ℤ} (hn : 0 < n) (h : q < n) : truncate q < n := by
  unfold truncate
  split
  · exact Int.floor_lt.mpr h
  · next hq => exact (Int.ceil_le.mpr (by simpa using le_of_not_ge hq)).trans_lt hn

theorem truncate_natCast_div (a b : Nat) : truncate ((a : ℚ) / b) = (a / b : Nat) := by
  have h : (0 : ℚ) ≤ (a : ℚ) / b := by positivity
  rw [truncate, if_pos h]
  exact_mod_cast Rat.floor_natCast_div_natCast a b

theorem value_ofInt (n : ℤ) : (ofInt n).value? = some (n : ℚ) := by
  unfold ofInt
  split
  · next h => rw [h]; rfl
  · rfl

theorem less_of_values {x y : Double} {q r : ℚ} (hx : x.value? = some q) (hy : y.value? = some r) :
    less x y = decide (q < r) := by
  cases x <;> cases y <;> simp_all [less, value?]

theorem lessEq_of_values {x y : Double} {q r : ℚ} (hx : x.value? = some q)
    (hy : y.value? = some r) : lessEq x y = decide (q ≤ r) := by
  have h : lessEq x y = !less y x := by
    cases x <;> cases y <;> first | rfl | (cases hx; done) | cases hy
  rw [h, less_of_values hy hx, ← decide_not]
  exact decide_eq_decide.mpr not_lt

theorem castSigned_of_fits {w : Nat} {d : Double} {q : ℚ} (hq : d.value? = some q)
    (hlo : -2 ^ (w - 1) ≤ truncate q) (hhi : truncate q < 2 ^ (w - 1)) :
    castSigned w d = some (truncate q) := by
  rw [castSigned, hq]
  exact if_pos ⟨hlo, hhi⟩

end Double

namespace Binary64

def exponent (u : BitVec 64) : Nat := u.toNat / 2 ^ 52 % 2 ^ 11

def fraction (u : BitVec 64) : Nat := u.toNat % 2 ^ 52

/-- The fraction with the leading bit of a normal number. -/
def significand (u : BitVec 64) : Nat :=
  if exponent u = 0 then fraction u else 2 ^ 52 + fraction u

/-- The absolute value of a finite number. -/
def magnitude (u : BitVec 64) : ℚ :=
  significand u * 2 ^ ((max (exponent u) 1 : ℤ) - 1075)

/-- The number a pattern stands for. -/
def toDouble (u : BitVec 64) : Double :=
  if exponent u = 2047 then
    if fraction u = 0 then .infinity u.msb else .nan
  else if h : magnitude u = 0 then .zero u.msb
  else if u.msb then .finite (-magnitude u) (neg_ne_zero.mpr h)
  else .finite (magnitude u) h

/-- The integer part of the absolute value. -/
def wholePart (u : BitVec 64) : Nat :=
  if exponent u < 1075 then significand u / 2 ^ (1075 - max (exponent u) 1)
  else significand u * 2 ^ (exponent u - 1075)

theorem fraction_lt (u : BitVec 64) : fraction u < 2 ^ 52 := Nat.mod_lt _ (by decide)

theorem significand_lt (u : BitVec 64) : significand u < 2 ^ 53 := by
  have := fraction_lt u
  unfold significand
  split <;> omega

theorem significand_normal {u : BitVec 64} (h : exponent u ≠ 0) :
    significand u = 2 ^ 52 + fraction u := if_neg h

theorem shifted_exponent (u : BitVec 64) : ((u >>> 52) &&& 0x7ff#64).toNat = exponent u := by
  rw [BitVec.toNat_and, BitVec.toNat_ushiftRight, Nat.shiftRight_eq_div_pow]
  exact Nat.and_two_pow_sub_one_eq_mod _ 11

theorem masked_fraction (u : BitVec 64) : (u &&& 0xfffffffffffff#64).toNat = fraction u := by
  rw [BitVec.toNat_and]
  exact Nat.and_two_pow_sub_one_eq_mod _ 52

theorem masked_significand {u : BitVec 64} (h : exponent u ≠ 0) :
    ((u &&& 0xfffffffffffff#64) ||| 0x10000000000000#64).toNat = significand u := by
  have hf := fraction_lt u
  rw [significand_normal h, BitVec.toNat_or, masked_fraction, Nat.or_comm]
  exact (Nat.two_pow_add_eq_or_of_lt hf 1).symm

theorem truncate_magnitude (u : BitVec 64) : Double.truncate (magnitude u) = wholePart u := by
  unfold magnitude wholePart
  split
  · next h =>
    have hexp : ((max (exponent u) 1 : ℤ) - 1075) = -((1075 - max (exponent u) 1 : Nat) : ℤ) := by
      have : max (exponent u) 1 ≤ 1075 := by omega
      push_cast [Nat.cast_sub this]
      ring
    rw [hexp, zpow_neg, zpow_natCast, ← div_eq_mul_inv]
    exact_mod_cast Double.truncate_natCast_div (significand u) (2 ^ (1075 - max (exponent u) 1))
  · next h =>
    have hexp : ((max (exponent u) 1 : ℤ) - 1075) = ((exponent u - 1075 : Nat) : ℤ) := by
      rw [max_eq_left (by omega), Nat.cast_sub (by omega)]
      rfl
    rw [hexp, zpow_natCast]
    have hcast : (significand u : ℚ) * 2 ^ (exponent u - 1075) =
        ((significand u * 2 ^ (exponent u - 1075) : ℤ) : ℚ) := by
      push_cast
      rfl
    rw [hcast, Double.truncate_intCast]
    push_cast
    rfl

theorem value_toDouble {u : BitVec 64} (h : exponent u ≠ 2047) :
    (toDouble u).value? = some (if u.msb then -magnitude u else magnitude u) := by
  rw [toDouble, if_neg h]
  by_cases hm : magnitude u = 0
  · rw [dif_pos hm, hm]
    simp [Double.value?]
  · rw [dif_neg hm]
    cases u.msb <;> rfl

theorem value_not_finite {u : BitVec 64} (h : exponent u = 2047) : (toDouble u).value? = none := by
  rw [toDouble, if_pos h]
  split <;> rfl

theorem integerPart_finite {u : BitVec 64} (h : exponent u ≠ 2047) :
    (toDouble u).integerPart = if u.msb then -(wholePart u : ℤ) else wholePart u := by
  rw [Double.integerPart, value_toDouble h]
  cases u.msb
  · exact truncate_magnitude u
  · exact (Double.truncate_neg _).trans (congrArg _ (truncate_magnitude u))

theorem integerPart_not_finite {u : BitVec 64} (h : exponent u = 2047) :
    (toDouble u).integerPart = 0 := by
  rw [Double.integerPart, value_not_finite h]
  rfl

theorem wholePart_lt {u : BitVec 64} {k : Nat} (h : exponent u ≤ 1022 + k) :
    wholePart u < 2 ^ k := by
  have hs := significand_lt u
  unfold wholePart
  split
  · rw [Nat.div_lt_iff_lt_mul (by positivity), ← Nat.pow_add]
    exact lt_of_lt_of_le hs (Nat.pow_le_pow_right (by decide) (by omega))
  · calc significand u * 2 ^ (exponent u - 1075)
        < 2 ^ 53 * 2 ^ (exponent u - 1075) := Nat.mul_lt_mul_of_pos_right hs (by positivity)
      _ = 2 ^ (53 + (exponent u - 1075)) := (Nat.pow_add ..).symm
      _ ≤ 2 ^ k := Nat.pow_le_pow_right (by decide) (by omega)

theorem wholePart_dvd {u : BitVec 64} {k : Nat} (h : 1075 + k ≤ exponent u) :
    2 ^ k ∣ wholePart u := by
  rw [wholePart, if_neg (by omega)]
  exact Dvd.dvd.mul_left (Nat.pow_dvd_pow 2 (by omega)) _

theorem wholePart_shifted {u : BitVec 64} {s : Nat} (h0 : exponent u ≠ 0)
    (h : 1075 ≤ exponent u + s) :
    significand u * 2 ^ (exponent u + s - 1075) / 2 ^ s = wholePart u := by
  unfold wholePart
  split
  · next hlt =>
    have hs : s = 1075 - max (exponent u) 1 + (exponent u + s - 1075) := by omega
    have hpow : 2 ^ s = 2 ^ (1075 - max (exponent u) 1) * 2 ^ (exponent u + s - 1075) :=
      (congrArg (2 ^ ·) hs).trans (Nat.pow_add ..)
    rw [hpow]
    exact Nat.mul_div_mul_right _ _ (by positivity)
  · next hge =>
    have hs : exponent u + s - 1075 = exponent u - 1075 + s := by omega
    have hpow : 2 ^ (exponent u + s - 1075) = 2 ^ (exponent u - 1075) * 2 ^ s :=
      (congrArg (2 ^ ·) hs).trans (Nat.pow_add ..)
    rw [hpow, ← Nat.mul_assoc]
    exact Nat.mul_div_cancel _ (by positivity)

end Binary64

end TurboJS.Foundation
