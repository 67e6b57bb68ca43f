import Mathlib.Data.Rat.Floor

namespace TurboJS.Foundation

/-! Floating-point numbers with signed zeros, by their exact values. How the exact value of a
result is rounded is a parameter. -/

inductive Double where
  | nan
  | infinity (negative : Bool)
  | zero (negative : Bool)
  | finite (q : ℚ) (h : q ≠ 0)
  deriving DecidableEq

namespace Double

/-- An integer small enough to be exact. -/
def ofInt (n : ℤ) : Double :=
  if h : n = 0 then zero false else finite n (Int.cast_ne_zero.mpr h)

/-- The conversion of a 64-bit integer: exact up to 53 bits. -/
def ofInt64 (round : ℚ → Double) (n : ℤ) : Double :=
  if n.natAbs ≤ 2 ^ 53 then ofInt n else round n

def neg : Double → Double
  | nan => nan
  | infinity s => infinity !s
  | zero s => zero !s
  | finite q h => finite (-q) (neg_ne_zero.mpr h)

def add (round : ℚ → Double) : Double → Double → Double
  | nan, _ | _, nan => nan
  | infinity s, infinity s' => if s = s' then infinity s else nan
  | infinity s, _ | _, infinity s => infinity s
  | zero s, zero s' => zero (s && s')
  | zero _, y => y
  | x, zero _ => x
  | finite q _, finite r _ => if q + r = 0 then zero false else round (q + r)

def sub (round : ℚ → Double) (x y : Double) : Double := add round x (neg y)

/-- The sign bit of a number. -/
def isNegative : Double → Bool
  | nan => false
  | infinity s | zero s => s
  | finite q _ => decide (q < 0)

def mul (round : ℚ → Double) : Double → Double → Double
  | nan, _ | _, nan => nan
  | infinity _, zero _ | zero _, infinity _ => nan
  | finite q _, finite r _ => round (q * r)
  | infinity s, y | y, infinity s => infinity (s ^^ y.isNegative)
  | zero s, y | y, zero s => zero (s ^^ y.isNegative)

def div (round : ℚ → Double) : Double → Double → Double
  | nan, _ | _, nan => nan
  | infinity _, infinity _ | zero _, zero _ => nan
  | finite q _, finite r _ => round (q / r)
  | infinity s, y => infinity (s ^^ y.isNegative)
  | x, infinity s => zero (s ^^ x.isNegative)
  | zero s, y => zero (s ^^ y.isNegative)
  | x, zero s => infinity (s ^^ x.isNegative)

/-- The quotient rounded towards zero. -/
def truncate (q : ℚ) : ℤ := if 0 ≤ q then ⌊q⌋ else ⌈q⌉

/-- The exact remainder, with the sign of the dividend. -/
def fmod : Double → Double → Double
  | nan, _ | _, nan => nan
  | infinity _, _ | _, zero _ => nan
  | x, infinity _ => x
  | zero s, _ => zero s
  | finite q hq, finite r _ =>
    let rest := q - r * truncate (q / r)
    if h : rest = 0 then zero (finite q hq).isNegative else finite rest h

/-- The value of a number that is finite. -/
def value? : Double → Option ℚ
  | zero _ => some 0
  | finite q _ => some q
  | _ => none

theorem ofInt_zero : ofInt 0 = zero false := rfl

theorem ofInt_of_ne {n : ℤ} (h : n ≠ 0) : ofInt n = finite n (Int.cast_ne_zero.mpr h) := dif_neg h

theorem ofInt64_exact (round : ℚ → Double) {n : ℤ} (h : n.natAbs ≤ 2 ^ 53) :
    ofInt64 round n = ofInt n := if_pos h

theorem neg_ofInt {n : ℤ} (h : n ≠ 0) : (ofInt n).neg = ofInt (-n) := by
  rw [ofInt_of_ne h, ofInt_of_ne (neg_ne_zero.mpr h)]
  simp only [neg, Int.cast_neg]

theorem truncate_intCast (n : ℤ) : truncate (n : ℚ) = n := by
  unfold truncate
  split
  · exact Int.floor_intCast n
  · exact Int.ceil_intCast n

theorem fmod_ofInt {a b : ℤ} (ha : 0 ≤ a) (hb : 0 < b) :
    fmod (ofInt a) (ofInt b) = ofInt (a % b) := by
  rw [ofInt_of_ne (by omega : b ≠ 0)]
  by_cases h0 : a = 0
  · subst h0
    rfl
  · have hq : (0 : ℚ) ≤ (a : ℚ) / b := by positivity
    have hfloor : ⌊(a : ℚ) / b⌋ = a / b := by
      obtain ⟨n, rfl⟩ := Int.eq_ofNat_of_zero_le hb.le
      exact_mod_cast Rat.floor_intCast_div_natCast a n
    have hrest : (a : ℚ) - b * ((a / b : ℤ) : ℚ) = ((a % b : ℤ) : ℚ) := by
      rw [Int.emod_def]
      push_cast
      rfl
    rw [ofInt_of_ne h0]
    simp only [fmod, truncate, if_pos hq, hfloor, hrest]
    by_cases hr : a % b = 0
    · have hnn : ¬ (a : ℚ) < 0 := by
        have : (0 : ℚ) ≤ a := by exact_mod_cast ha
        exact not_lt.mpr this
      simp [hr, ofInt_zero, isNegative, hnn]
    · rw [ofInt_of_ne hr, dif_neg (Int.cast_ne_zero.mpr hr)]

end Double

end TurboJS.Foundation
