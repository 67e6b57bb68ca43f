import Mathlib.Tactic.Ring
import Mathlib.Tactic.Linarith
import Mathlib.Tactic.LinearCombination
import Mathlib.Algebra.Order.Ring.Abs
import Mathlib.Data.Int.Bitwise

namespace TurboJS.Foundation

/-! Integers as little-endian lists of limbs, the last one with the sign. -/

variable {w : Nat}

/-- The integer with the digits `l` below the part `h`. -/
def join : List (BitVec w) → Int → Int
  | [], h => h
  | x :: l, h => x.toNat + 2 ^ w * join l h

theorem join_append (l m : List (BitVec w)) (h : Int) : join (l ++ m) h = join l (join m h) := by
  induction l with
  | nil => rfl
  | cons x l ih => simp only [List.cons_append, join, ih]

/-- The digits as a natural number. -/
def magnitude : List (BitVec w) → Nat
  | [] => 0
  | x :: l => x.toNat + 2 ^ w * magnitude l

theorem magnitude_append (l m : List (BitVec w)) :
    magnitude (l ++ m) = magnitude l + 2 ^ (w * l.length) * magnitude m := by
  induction l with
  | nil => simp [magnitude]
  | cons x l ih =>
    simp only [List.cons_append, magnitude, ih, List.length_cons]
    ring

theorem magnitude_zeros (k : Nat) : magnitude (List.replicate k (0 : BitVec w)) = 0 := by
  induction k with
  | zero => rfl
  | succ k ih =>
    rw [List.replicate_succ, magnitude, ih]
    rfl

theorem magnitude_lt (l : List (BitVec w)) : magnitude l < 2 ^ (w * l.length) := by
  induction l with
  | nil => simp [magnitude]
  | cons x l ih =>
    have hx := x.isLt
    have hpow : 2 ^ (w * (x :: l).length) = 2 ^ w * 2 ^ (w * l.length) := by
      rw [List.length_cons]
      ring
    have hmul : 2 ^ w * (magnitude l + 1) ≤ 2 ^ w * 2 ^ (w * l.length) :=
      Nat.mul_le_mul (Nat.le_refl _) ih
    rw [hpow, magnitude]
    rw [Nat.mul_add, Nat.mul_one] at hmul
    omega

theorem join_eq (l : List (BitVec w)) (h : Int) :
    join l h = magnitude l + 2 ^ (w * l.length) * h := by
  induction l with
  | nil => simp [join, magnitude]
  | cons x l ih =>
    simp only [join, magnitude, ih, List.length_cons]
    push_cast
    ring

/-- What the sign of the last limb stands for above the digits. -/
def signPart (l : List (BitVec w)) : Int :=
  match l.getLast? with
  | some x => if x.msb then -1 else 0
  | none => 0

/-- The integer in two's complement. -/
def signed (l : List (BitVec w)) : Int := join l (signPart l)

theorem signPart_concat (l : List (BitVec w)) (x : BitVec w) :
    signPart (l ++ [x]) = if x.msb then -1 else 0 := by
  simp [signPart]

theorem toInt_eq_sign (x : BitVec w) : x.toInt = x.toNat + 2 ^ w * if x.msb then -1 else 0 := by
  rw [BitVec.toInt_eq_msb_cond]
  split <;> push_cast <;> ring

theorem signed_concat (l : List (BitVec w)) (x : BitVec w) : signed (l ++ [x]) = join l x.toInt := by
  rw [signed, signPart_concat, join_append, toInt_eq_sign]
  rfl

theorem signPart_cases (l : List (BitVec w)) : signPart l = 0 ∨ signPart l = -1 := by
  rw [signPart]
  cases l.getLast? with
  | none => exact .inl rfl
  | some x => cases hx : x.msb <;> simp [hx]

/-- A list of limbs holds the integers of its width. -/
def FitsIn (w n : Nat) (v : Int) : Prop := -2 ^ (w * n) ≤ 2 * v ∧ 2 * v < 2 ^ (w * n)

theorem FitsIn.mono {n n' : Nat} {v : Int} (h : FitsIn w n v) (hn : n ≤ n') : FitsIn w n' v := by
  have hpow : (2 : Int) ^ (w * n) ≤ 2 ^ (w * n') :=
    pow_le_pow_right₀ (by decide) (Nat.mul_le_mul (Nat.le_refl w) hn)
  have h1 := h.1
  have h2 := h.2
  exact ⟨by omega, by omega⟩

theorem FitsIn.mul {n m : Nat} {v u : Int} (hv : FitsIn w n v) (hu : FitsIn w m u) :
    FitsIn w (n + m) (v * u) := by
  have hpow : (2 : Int) ^ (w * (n + m)) = 2 ^ (w * n) * 2 ^ (w * m) := by
    rw [Nat.mul_add, pow_add]
  have hpos : (0 : Int) < 2 ^ (w * n) * 2 ^ (w * m) := by positivity
  have habs : |2 * v| * |2 * u| ≤ 2 ^ (w * n) * 2 ^ (w * m) :=
    mul_le_mul (abs_le.mpr ⟨hv.1, hv.2.le⟩) (abs_le.mpr ⟨hu.1, hu.2.le⟩) (abs_nonneg _)
      (by positivity)
  rw [← abs_mul, abs_le] at habs
  have hquad : 2 * v * (2 * u) = 2 * (2 * (v * u)) := by ring
  rw [hquad] at habs
  rw [FitsIn, hpow]
  exact ⟨by omega, by omega⟩

theorem fitsIn_join {l : List (BitVec w)} {n : Nat} {h : Int} (hw : 0 < w * n) :
    FitsIn w (l.length + n) (join l h) ↔ FitsIn w n h := by
  have hlt : (magnitude l : Int) < 2 ^ (w * l.length) := by exact_mod_cast magnitude_lt l
  have hpos : (0 : Int) < 2 ^ (w * l.length) := by positivity
  obtain ⟨k, hk⟩ : ∃ k : Int, (2 : Int) ^ (w * n) = 2 * k := by
    obtain ⟨m, hm⟩ := Nat.exists_eq_succ_of_ne_zero hw.ne'
    exact ⟨2 ^ m, by rw [hm, pow_succ]; ring⟩
  have hpow : (2 : Int) ^ (w * (l.length + n)) = 2 ^ (w * l.length) * (2 * k) := by
    rw [← hk, ← pow_add, Nat.mul_add]
  rw [FitsIn, FitsIn, join_eq, hpow, hk]
  generalize (2 : Int) ^ (w * l.length) = b at hlt hpos ⊢
  constructor
  · rintro ⟨h1, h2⟩
    constructor
    · by_contra hc
      have : b * (h + 1) ≤ b * -k := mul_le_mul_of_nonneg_left (by omega) hpos.le
      nlinarith
    · by_contra hc
      have : b * k ≤ b * h := mul_le_mul_of_nonneg_left (by omega) hpos.le
      nlinarith
  · rintro ⟨h1, h2⟩
    constructor
    · have : b * -k ≤ b * h := mul_le_mul_of_nonneg_left (by omega) hpos.le
      nlinarith
    · have : b * (h + 1) ≤ b * k := mul_le_mul_of_nonneg_left (by omega) hpos.le
      nlinarith

theorem fitsIn_toInt (x : BitVec w) : FitsIn w 1 x.toInt := by
  have h1 := BitVec.two_mul_toInt_lt (x := x)
  have h2 := BitVec.le_two_mul_toInt (x := x)
  rw [FitsIn, Nat.mul_one]
  exact ⟨h2, h1⟩

theorem fitsIn_signed (hw : 0 < w) {l : List (BitVec w)} (hl : l ≠ []) :
    FitsIn w l.length (signed l) := by
  obtain ⟨l', x, rfl⟩ := List.eq_nil_or_concat l |>.resolve_left hl
  rw [List.concat_eq_append, signed_concat, List.length_append]
  exact (fitsIn_join (by simpa using hw)).mpr (fitsIn_toInt x)

theorem signed_eq_of_congr (hw : 0 < w) {l : List (BitVec w)} (hl : l ≠ []) {v k : Int}
    (hv : FitsIn w l.length v) (hk : v = magnitude l + 2 ^ (w * l.length) * k) : signed l = v := by
  have hfit := fitsIn_signed hw hl
  have hsigned : signed l = magnitude l + 2 ^ (w * l.length) * signPart l := join_eq l _
  have hdiff : signed l - v = 2 ^ (w * l.length) * (signPart l - k) := by
    rw [hsigned, hk]
    ring
  have hpos : (0 : Int) < 2 ^ (w * l.length) := by positivity
  obtain ⟨h1, h2⟩ := hv
  obtain ⟨h3, h4⟩ := hfit
  -- Two integers of one width that differ by a multiple of it are equal.
  have hzero : signPart l - k = 0 := by
    by_contra hne
    rcases lt_or_gt_of_ne hne with hlt | hgt
    · have : 2 ^ (w * l.length) * (signPart l - k) ≤ 2 ^ (w * l.length) * -1 :=
        mul_le_mul_of_nonneg_left (by omega) hpos.le
      omega
    · have : 2 ^ (w * l.length) * 1 ≤ 2 ^ (w * l.length) * (signPart l - k) :=
        mul_le_mul_of_nonneg_left (by omega) hpos.le
      omega
  rw [hzero, mul_zero] at hdiff
  omega

/-- Limb `v` only repeats the sign of limb `u` below it. -/
def SignLimb (v u : BitVec w) : Prop := v.toInt = if u.msb then -1 else 0

instance (v u : BitVec w) : Decidable (SignLimb v u) := inferInstanceAs (Decidable (_ = _))

theorem signed_drop {l : List (BitVec w)} {u v : BitVec w} (h : SignLimb v u) :
    signed (l ++ [u, v]) = signed (l ++ [u]) := by
  rw [show l ++ [u, v] = (l ++ [u]) ++ [v] by simp, signed_concat, signed, signPart_concat, h]

theorem msb_iff (u : BitVec w) : u.msb = true ↔ (2 : Int) ^ w ≤ 2 * u.toNat := by
  have h := BitVec.msb_eq_true_iff_two_mul_ge (x := u)
  rw [h]
  constructor
  · intro hu
    exact_mod_cast hu
  · intro hu
    exact_mod_cast hu

theorem signLimb_iff_fits (u v : BitVec w) :
    SignLimb v u ↔ FitsIn w 1 (u.toNat + 2 ^ w * v.toInt) := by
  have hmsb := msb_iff u
  have hu : (u.toNat : Int) < 2 ^ w := by exact_mod_cast u.isLt
  have hpos : (0 : Int) < 2 ^ w := by positivity
  rw [SignLimb, FitsIn, Nat.mul_one]
  generalize (2 : Int) ^ w = b at *
  constructor
  · intro h
    rw [h]
    split
    · rename_i hm
      have := hmsb.mp hm
      constructor <;> linarith
    · rename_i hm
      have := mt hmsb.mpr hm
      constructor <;> omega
  · rintro ⟨h1, h2⟩
    have hlow : -1 ≤ v.toInt := by
      by_contra hc
      have : b * v.toInt ≤ b * -2 := mul_le_mul_of_nonneg_left (by omega) hpos.le
      omega
    have hhigh : v.toInt ≤ 0 := by
      by_contra hc
      have : b * 1 ≤ b * v.toInt := mul_le_mul_of_nonneg_left (by omega) hpos.le
      omega
    have hcases : v.toInt = -1 ∨ v.toInt = 0 := by omega
    rcases hcases with hv | hv <;> rw [hv] at h1 h2 ⊢
    · rw [if_pos (hmsb.mpr (by omega))]
    · rw [if_neg fun hm => absurd (hmsb.mp hm) (by omega)]

/-- No shorter list of limbs stands for the same integer. -/
def Minimal (l : List (BitVec w)) : Prop :=
  l ≠ [] ∧ ∀ m : List (BitVec w), m ≠ [] → signed m = signed l → l.length ≤ m.length

theorem minimal_singleton (x : BitVec w) : Minimal [x] :=
  ⟨by simp, fun m hm _ => List.length_pos_iff.mpr hm⟩

theorem minimal_concat_iff (hw : 0 < w) {l : List (BitVec w)} {u v : BitVec w} :
    Minimal (l ++ [u, v]) ↔ ¬ SignLimb v u := by
  constructor
  · intro h hs
    have hle := h.2 (l ++ [u]) (by simp) (signed_drop hs).symm
    simp at hle
  · intro hs
    refine ⟨by simp, fun m hm he => ?_⟩
    by_contra hlt
    have hfit : FitsIn w (l.length + 1) (signed (l ++ [u, v])) := by
      rw [← he]
      apply (fitsIn_signed hw hm).mono
      simp at hlt
      omega
    rw [show l ++ [u, v] = (l ++ [u]) ++ [v] by simp, signed_concat, join_append] at hfit
    exact hs ((signLimb_iff_fits u v).mpr ((fitsIn_join (by simpa using hw)).mp hfit))

theorem Minimal.cases (hw : 0 < w) {l : List (BitVec w)} (h : Minimal l) :
    (∃ x, l = [x]) ∨ ∃ l' u v, l = l' ++ [u, v] ∧ ¬ SignLimb v u := by
  obtain ⟨l', v, rfl⟩ := List.eq_nil_or_concat l |>.resolve_left h.1
  rcases List.eq_nil_or_concat l' with rfl | ⟨l', u, rfl⟩
  · exact .inl ⟨v, rfl⟩
  · have he : (l'.concat u).concat v = l' ++ [u, v] := by simp
    rw [he] at h
    exact .inr ⟨l', u, v, he, (minimal_concat_iff hw).mp h⟩

theorem Minimal.drop (hw : 0 < w) {l : List (BitVec w)} (h : Minimal l) {d : Nat}
    (hd : d < l.length) : Minimal (l.drop d) := by
  rcases h.cases hw with ⟨x, rfl⟩ | ⟨l', u, v, rfl, hs⟩
  · rw [List.length_singleton] at hd
    rw [Nat.lt_one_iff.mp hd]
    exact minimal_singleton x
  · by_cases hle : d ≤ l'.length
    · rw [List.drop_append_of_le_length hle]
      exact (minimal_concat_iff hw).mpr hs
    · have hd' : d = l'.length + 1 := by
        simp only [List.length_append, List.length_cons, List.length_nil] at hd
        omega
      rw [hd', List.drop_append, List.drop_eq_nil_of_le (by omega)]
      simpa using minimal_singleton v

theorem testBit_eq_mod (v : Int) (k : Nat) : v.testBit k = decide (v / 2 ^ k % 2 = 1) := by
  cases v with
  | ofNat m =>
    have hcast : Int.ofNat m / 2 ^ k % 2 = ((m / 2 ^ k % 2 : Nat) : Int) := by push_cast; rfl
    rw [hcast]
    change m.testBit k = _
    rw [Nat.testBit_eq_decide_div_mod_eq]
    simp only [decide_eq_decide]
    omega
  | negSucc m =>
    have hcast : Int.negSucc m / 2 ^ k = -((m / 2 ^ k : Nat) + 1) := by
      rw [Int.negSucc_ediv _ (by positivity)]
      push_cast
      rfl
    rw [hcast]
    change (!m.testBit k) = _
    rw [Nat.testBit_eq_decide_div_mod_eq, ← decide_not]
    simp only [decide_eq_decide]
    omega

theorem eq_of_testBit_eq {v u : Int} (h : ∀ k, v.testBit k = u.testBit k) : v = u := by
  -- The bits far to the left are those of the sign.
  have hfar : ∀ m n : Nat, m.testBit (m + n) = false := fun m n =>
    Nat.testBit_lt_two_pow (lt_of_lt_of_le Nat.lt_two_pow_self
      (Nat.pow_le_pow_right (by decide) (Nat.le_add_right m n)))
  cases v with
  | ofNat m =>
    cases u with
    | ofNat n => exact congrArg Int.ofNat (Nat.eq_of_testBit_eq h)
    | negSucc n =>
      have hk : m.testBit (m + n) = !n.testBit (m + n) := h (m + n)
      rw [hfar, Nat.add_comm, hfar] at hk
      cases hk
  | negSucc m =>
    cases u with
    | ofNat n =>
      have hk : (!m.testBit (m + n)) = n.testBit (m + n) := h (m + n)
      rw [hfar, Nat.add_comm, hfar] at hk
      cases hk
    | negSucc n =>
      refine congrArg Int.negSucc (Nat.eq_of_testBit_eq fun k => ?_)
      have hk : (!m.testBit k) = !n.testBit k := h k
      simpa using hk

theorem testBit_digit (x : BitVec w) (h : Int) (k : Nat) :
    Int.testBit (x.toNat + 2 ^ w * h) k = if k < w then x.getLsbD k else h.testBit (k - w) := by
  rw [testBit_eq_mod]
  split
  · rename_i hk
    have hpow : (2 : Int) ^ w = 2 ^ k * (2 * 2 ^ (w - k - 1)) := by
      rw [← pow_succ', ← pow_add]
      congr 1
      omega
    have hdiv : ((x.toNat : Int) + 2 ^ w * h) / 2 ^ k =
        ((x.toNat / 2 ^ k : Nat) : Int) + 2 * (2 ^ (w - k - 1) * h) := by
      rw [hpow, Int.mul_assoc, Int.add_mul_ediv_left _ _ (by positivity), Int.mul_assoc]
      push_cast
      rfl
    rw [hdiv, Int.add_mul_emod_self_left, BitVec.getLsbD, Nat.testBit_eq_decide_div_mod_eq]
    simp only [decide_eq_decide]
    omega
  · rename_i hk
    have hpow : (2 : Int) ^ k = 2 ^ w * 2 ^ (k - w) := by
      rw [← pow_add]
      congr 1
      omega
    have hx : (x.toNat : Int) / 2 ^ w = 0 := by
      apply Int.ediv_eq_zero_of_lt (by positivity)
      exact_mod_cast x.isLt
    rw [testBit_eq_mod, hpow, ← Int.ediv_ediv_of_nonneg (by positivity),
      Int.add_mul_ediv_left _ _ (by positivity), hx, zero_add]

end TurboJS.Foundation
