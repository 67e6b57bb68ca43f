import Mathlib.Data.Nat.Bitwise
import Mathlib.Data.Int.Log
import Mathlib.Data.Rat.Floor

namespace TurboJS.Foundation

/-! Bits of natural numbers: the lowest bit, the number of bits, and the numbers below a
bound that avoid a mask. -/

/-- The number of set bits of `x` below `width`. -/
def bitCount : Nat → Nat → Nat
  | 0, _ => 0
  | width + 1, x => x % 2 + bitCount width (x / 2)

theorem bitCount_zero (width : Nat) : bitCount width 0 = 0 := by
  induction width with
  | zero => rfl
  | succ width ih => simp [bitCount, ih]

theorem bitCount_le (width x : Nat) : bitCount width x ≤ width := by
  induction width generalizing x with
  | zero => simp [bitCount]
  | succ width ih =>
    have h := ih (x / 2)
    simp only [bitCount]
    omega

theorem bitCount_add_two_pow {width k x : Nat} (hk : k < width) (hx : x < 2 ^ k) :
    bitCount width (x + 2 ^ k) = bitCount width x + 1 := by
  induction k generalizing width x with
  | zero =>
    obtain ⟨width, rfl⟩ : ∃ m, width = m + 1 := ⟨width - 1, by omega⟩
    have hx0 : x = 0 := by simpa using hx
    subst hx0
    simp [bitCount, bitCount_zero]
  | succ k ih =>
    obtain ⟨width, rfl⟩ : ∃ m, width = m + 1 := ⟨width - 1, by omega⟩
    have hdiv : (x + 2 ^ (k + 1)) / 2 = x / 2 + 2 ^ k := by omega
    have hmod : (x + 2 ^ (k + 1)) % 2 = x % 2 := by omega
    have h : bitCount width (x / 2 + 2 ^ k) = bitCount width (x / 2) + 1 :=
      ih (by omega) (by omega)
    simp only [bitCount, hdiv, hmod, h]
    omega

theorem and_complement {width y : Nat} (hy : y < 2 ^ width) : y &&& (2 ^ width - 1 - y) = 0 := by
  apply Nat.eq_of_testBit_eq
  intro i
  have hsub : 2 ^ width - 1 - y = 2 ^ width - (y + 1) := by omega
  rw [Nat.testBit_and, hsub, Nat.testBit_two_pow_sub_succ hy, Nat.zero_testBit]
  cases y.testBit i <;> simp

theorem lowest_bit {width x : Nat} (hx : x ≠ 0) (hlt : x < 2 ^ width) :
    (x ^^^ (x &&& (2 ^ width - x))) + (x &&& (2 ^ width - x)) = x ∧
      bitCount width (x ^^^ (x &&& (2 ^ width - x))) + 1 = bitCount width x := by
  induction width generalizing x with
  | zero => simp at hlt; omega
  | succ width ih =>
    rcases Nat.even_or_odd' x with ⟨y, rfl | rfl⟩
    · have hand : 2 * y &&& (2 ^ (width + 1) - 2 * y) = 2 * (y &&& (2 ^ width - y)) := by
        have h1 : 2 ^ (width + 1) - 2 * y = 2 * (2 ^ width - y) := by omega
        rw [h1]
        simpa [Nat.bit] using Nat.land_bit false y false (2 ^ width - y)
      have hxor : 2 * y ^^^ 2 * (y &&& (2 ^ width - y)) =
          2 * (y ^^^ (y &&& (2 ^ width - y))) := by
        simpa [Nat.bit] using Nat.xor_bit false y false (y &&& (2 ^ width - y))
      obtain ⟨h1, h2⟩ := ih (x := y) (by omega) (by omega)
      rw [hand, hxor]
      simp only [bitCount, Nat.mul_mod_right, Nat.mul_div_cancel_left _ (Nat.zero_lt_two)]
      omega
    · have hand : (2 * y + 1) &&& (2 ^ (width + 1) - (2 * y + 1)) = 1 := by
        have h1 : 2 ^ (width + 1) - (2 * y + 1) = 2 * (2 ^ width - 1 - y) + 1 := by omega
        have h2 := Nat.land_bit true y true (2 ^ width - 1 - y)
        simp only [Nat.bit, and_complement (show y < 2 ^ width by omega)] at h2
        rw [h1]
        simpa using h2
      have hxor : (2 * y + 1) ^^^ 1 = 2 * y := by
        simpa [Nat.bit] using Nat.xor_bit true y true 0
      have hdiv : (2 * y + 1) / 2 = y := by omega
      have hmod : (2 * y + 1) % 2 = 1 := by omega
      rw [hand, hxor]
      refine ⟨rfl, ?_⟩
      simp only [bitCount]
      rw [hdiv, hmod, Nat.mul_mod_right, Nat.mul_div_cancel_left _ Nat.zero_lt_two]
      omega

/-- How many numbers below a bound share no bit with the mask. -/
def zeroCount (mask : Nat) : Nat → Nat
  | 0 => 0
  | m + 1 => zeroCount mask m + if m &&& mask = 0 then 1 else 0

/-- The sum of the numbers below a bound that share no bit with the mask. -/
def zeroSum (mask : Nat) : Nat → Nat
  | 0 => 0
  | m + 1 => zeroSum mask m + if m &&& mask = 0 then m else 0

theorem zeroCount_succ (mask m : Nat) :
    zeroCount mask (m + 1) = zeroCount mask m + if m &&& mask = 0 then 1 else 0 := rfl

theorem zeroSum_succ (mask m : Nat) :
    zeroSum mask (m + 1) = zeroSum mask m + if m &&& mask = 0 then m else 0 := rfl

theorem block_and {mask k a m : Nat} (hm : m < 2 ^ k) :
    (2 ^ k * a + m) &&& mask = (2 ^ k * a &&& mask) ||| (m &&& mask) := by
  rw [Nat.two_pow_add_eq_or_of_lt hm, Nat.and_or_distrib_right]

theorem zero_block {mask k a m : Nat} (ha : 2 ^ k * a &&& mask = 0) (hm : m ≤ 2 ^ k) :
    zeroCount mask (2 ^ k * a + m) = zeroCount mask (2 ^ k * a) + zeroCount mask m ∧
      zeroSum mask (2 ^ k * a + m) =
        zeroSum mask (2 ^ k * a) + zeroCount mask m * (2 ^ k * a) + zeroSum mask m := by
  induction m with
  | zero => simp [zeroCount, zeroSum]
  | succ m ih =>
    obtain ⟨h1, h2⟩ := ih (by omega)
    have hand : (2 ^ k * a + m) &&& mask = m &&& mask := by
      rw [block_and (by omega), ha, Nat.zero_or]
    rw [← Nat.add_assoc, zeroCount_succ, zeroSum_succ, zeroCount_succ, zeroSum_succ, h1, h2, hand]
    split
    · constructor <;> ring
    · constructor <;> ring

theorem zero_block_masked {mask k a m : Nat} (ha : 2 ^ k * a &&& mask ≠ 0) (hm : m ≤ 2 ^ k) :
    zeroCount mask (2 ^ k * a + m) = zeroCount mask (2 ^ k * a) ∧
      zeroSum mask (2 ^ k * a + m) = zeroSum mask (2 ^ k * a) := by
  induction m with
  | zero => simp
  | succ m ih =>
    obtain ⟨h1, h2⟩ := ih (by omega)
    have hand : (2 ^ k * a + m) &&& mask ≠ 0 := by
      rw [block_and (by omega)]
      intro h
      exact ha (Nat.or_eq_zero_iff.mp h).1
    rw [← Nat.add_assoc, zeroCount_succ, zeroSum_succ, if_neg hand, if_neg hand, h1, h2]
    exact ⟨rfl, rfl⟩

theorem two_pow_and_eq_zero {mask k : Nat} : 2 ^ k &&& mask = 0 ↔ mask.testBit k = false := by
  rw [Nat.and_comm, Nat.and_two_pow]
  cases mask.testBit k <;> simp

/-- The bits below `k` that are not in the mask. -/
def allowedBits (width mask k : Nat) : Nat := (2 ^ width - 1 - mask) % 2 ^ k

theorem allowedBits_succ {width mask k : Nat} (hm : mask < 2 ^ width) (hk : k < width) :
    allowedBits width mask (k + 1) =
      allowedBits width mask k + if mask.testBit k then 0 else 2 ^ k := by
  have hsub : 2 ^ width - 1 - mask = 2 ^ width - (mask + 1) := by omega
  rw [allowedBits, Nat.mod_pow_succ, ← Nat.toNat_testBit, allowedBits, hsub,
    Nat.testBit_two_pow_sub_succ hm]
  cases mask.testBit k <;> simp [hk]

theorem zero_first_block {width mask : Nat} (hm : mask < 2 ^ width) {k : Nat} (hk : k ≤ width) :
    zeroCount mask (2 ^ k) = 2 ^ bitCount width (allowedBits width mask k) ∧
      2 * zeroSum mask (2 ^ k) = zeroCount mask (2 ^ k) * allowedBits width mask k := by
  induction k with
  | zero => simp [zeroCount, zeroSum, allowedBits, Nat.mod_one, bitCount_zero]
  | succ k ih =>
    obtain ⟨h1, h2⟩ := ih (by omega)
    have hpow : 2 ^ (k + 1) = 2 ^ k * 1 + 2 ^ k := by ring
    have hlt : allowedBits width mask k < 2 ^ k := Nat.mod_lt _ (Nat.two_pow_pos k)
    rw [allowedBits_succ hm (by omega), hpow]
    cases hb : mask.testBit k with
    | false =>
      have hz : 2 ^ k * 1 &&& mask = 0 := by
        rw [Nat.mul_one]
        exact two_pow_and_eq_zero.mpr hb
      obtain ⟨hc, hs⟩ := zero_block hz (Nat.le_refl _)
      simp only [Nat.mul_one] at hc hs ⊢
      simp only [hc, hs, Bool.false_eq_true, if_false, bitCount_add_two_pow (Nat.lt_of_succ_le hk) hlt]
      constructor
      · rw [h1]
        ring
      · rw [Nat.mul_add, Nat.mul_add, h2]
        ring
    | true =>
      have hz : 2 ^ k * 1 &&& mask ≠ 0 := by
        rw [Nat.mul_one, Ne, two_pow_and_eq_zero, hb]
        simp
      obtain ⟨hc, hs⟩ := zero_block_masked hz (Nat.le_refl _)
      simp only [Nat.mul_one] at hc hs ⊢
      simp only [hc, hs, if_true, Nat.add_zero]
      exact ⟨h1, h2⟩

/-! Arithmetic on machine words that says whether a result has left the range of the words. -/

@[ext]
structure Wrapping (α : Type) where
  value : α
  wrapped : Bool
  deriving DecidableEq, Repr

namespace Wrapping

instance : Monad Wrapping where
  pure a := ⟨a, false⟩
  bind x f := ⟨(f x.value).value, x.wrapped || (f x.value).wrapped⟩

instance : LawfulMonad Wrapping := LawfulMonad.mk' Wrapping
  (fun x => by simp [Functor.map])
  (fun a f => by simp [bind, pure])
  (fun x f g => by simp [bind, Bool.or_assoc])

variable (w : Nat)

def add (a b : Nat) : Wrapping Nat := ⟨(a + b) % 2 ^ w, decide (2 ^ w ≤ a + b)⟩

def sub (a b : Nat) : Wrapping Nat := ⟨(a + 2 ^ w - b) % 2 ^ w, decide (a < b)⟩

def mul (a b : Nat) : Wrapping Nat := ⟨(a * b) % 2 ^ w, decide (2 ^ w ≤ a * b)⟩

variable {w} {a b : Nat}

theorem add_eq (h : a + b < 2 ^ w) : add w a b = pure (a + b) := by
  simp [add, pure, Nat.mod_eq_of_lt h, h]

theorem sub_eq (h : b ≤ a) (ha : a < 2 ^ w) : sub w a b = pure (a - b) := by
  have he : a + 2 ^ w - b = a - b + 2 ^ w := by omega
  simp [sub, pure, he, Nat.mod_eq_of_lt (show a - b < 2 ^ w by omega), h]

theorem mul_eq (h : a * b < 2 ^ w) : mul w a b = pure (a * b) := by
  simp [mul, pure, Nat.mod_eq_of_lt h, h]

end Wrapping

/-- The nearest integer, ties to even. -/
def nearestEven (q : ℚ) : ℤ :=
  let r := q - ⌊q⌋
  if r > 1 / 2 ∨ (r = 1 / 2 ∧ ⌊q⌋ % 2 = 1) then ⌊q⌋ + 1 else ⌊q⌋

/-- The exponent of the last place of `q`, for `p` significant bits and not below `least`. -/
def lastPlace (p : Nat) (least : ℤ) (q : ℚ) : ℤ := max (Int.log 2 |q| + 1 - p) least

/-- `q` rounded to `p` significant bits. -/
def roundTo (p : Nat) (least : ℤ) (q : ℚ) : ℚ :=
  nearestEven (q / 2 ^ lastPlace p least q) * 2 ^ lastPlace p least q

section

variable {p : Nat} {least : ℤ}

theorem nearestEven_intCast (n : ℤ) : nearestEven n = n := by
  have hr : ((n : ℚ) - ⌊(n : ℚ)⌋) = 0 := by rw [Int.floor_intCast, sub_self]
  simp only [nearestEven, hr]
  rw [if_neg (by norm_num), Int.floor_intCast]

theorem roundTo_mul_zpow {m k : ℤ} (hm : |m| < 2 ^ p) (hk : least ≤ k) :
    roundTo p least (m * 2 ^ k) = m * 2 ^ k := by
  rcases eq_or_ne m 0 with rfl | hm0
  · have hz := nearestEven_intCast 0
    rw [Int.cast_zero] at hz
    simp only [Int.cast_zero, zero_mul, roundTo, zero_div, hz]
  · -- The last place is not above the unit.
    have hpos : (0 : ℚ) < |(m : ℚ) * 2 ^ k| := by
      rw [abs_pos]
      exact mul_ne_zero (Int.cast_ne_zero.mpr hm0) (zpow_ne_zero k two_ne_zero)
    have hlt : |(m : ℚ) * 2 ^ k| < ((2 : ℕ) : ℚ) ^ ((p : ℤ) + k) := by
      rw [abs_mul, abs_of_pos (zpow_pos (by norm_num : (0 : ℚ) < 2) k), Nat.cast_two,
        zpow_add₀ two_ne_zero, zpow_natCast]
      refine mul_lt_mul_of_pos_right ?_ (zpow_pos (by norm_num) k)
      exact_mod_cast hm
    have hlog : Int.log 2 |(m : ℚ) * 2 ^ k| < p + k :=
      (Int.lt_zpow_iff_log_lt (by norm_num) hpos).mp hlt
    have hle : lastPlace p least (m * 2 ^ k) ≤ k := max_le (by omega) hk
    obtain ⟨d, hd⟩ : ∃ d : ℕ, k = lastPlace p least (m * 2 ^ k) + d :=
      ⟨(k - lastPlace p least (m * 2 ^ k)).toNat, by omega⟩
    have hne : (2 : ℚ) ^ lastPlace p least (m * 2 ^ k) ≠ 0 := zpow_ne_zero _ two_ne_zero
    have hscaled : (m : ℚ) * 2 ^ k / 2 ^ lastPlace p least (m * 2 ^ k) = (m * 2 ^ d : ℤ) := by
      rw [div_eq_iff hne]
      push_cast
      rw [mul_assoc, ← zpow_natCast, ← zpow_add₀ two_ne_zero, Int.add_comm, ← hd]
    rw [roundTo, hscaled, nearestEven_intCast, ← hscaled, div_mul_cancel₀ _ hne]

theorem roundTo_intCast {n : ℤ} (hn : |n| < 2 ^ p) (hleast : least ≤ 0) :
    roundTo p least n = n := by
  have h := roundTo_mul_zpow hn hleast
  rwa [zpow_zero, mul_one] at h

end

end TurboJS.Foundation
