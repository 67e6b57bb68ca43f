import TurboJS.BigInt.Power
import TurboJS.Foundation.Binary64

namespace TurboJS.BigInt

open Foundation

/-! The comparisons of BigInts with one another and with doubles. -/

/-- The limbs of the absolute value, as the loops of `js_bigint_get_mant_exp` find them. -/
def absLimbs (neg : Bool) : List Limb → Bool → List Limb
  | [], _ => []
  | x :: xs, carry =>
    let v := flip neg x + carryLimb carry
    v :: absLimbs neg xs (v < carryLimb carry)

def clz64 (a : BitVec 64) : Nat := if a = 0 then 64 else 63 - Nat.log2 a.toNat

def word (high low : Limb) : BitVec 64 := high.setWidth 64 <<< 32 ||| low.setWidth 64

/-- The end of `js_bigint_get_mant_exp`: the highest 64 bits from the first one on, the lowest of
them set when anything is lost below, and the shift. -/
def normalizedMantissa (a1 a0 : BitVec 64) : BitVec 64 × Nat :=
  let shift := clz64 a1
  let (a1, a0) :=
    if shift ≠ 0 then (a1 <<< shift ||| a0 >>> (64 - shift), a0 <<< shift) else (a1, a0)
  (a1 ||| (if a0 ≠ 0 then 1 else 0), shift)

/-- `js_bigint_get_mant_exp`: the mantissa and the exponent of the highest bit. -/
def getMantExp (a : JSBigInt) : BitVec 64 × Int :=
  let sgn := decide (sign a ≠ 0)
  let limbs := absLimbs sgn a sgn
  let n1 := a.length - 3
  let lowBits := (limbs.take n1).foldl (· ||| ·) 0
  let t := List.replicate (3 - a.length) 0 ++ limbs.drop n1
  let a1 := word (t.getD 2 0) (t.getD 1 0)
  let a0 := word (t.getD 0 0) (if lowBits ≠ 0 then 1 else 0)
  let r := normalizedMantissa a1 a0
  (r.1, a.length * 32 - r.2 - 1)

/-- `js_bigint_float64_cmp`: 2 is unordered. -/
def float64Cmp (a : JSBigInt) (b1 : BitVec 64) : Int :=
  let bSign : Int := (b1 >>> 63).toNat
  let e : Int := ((b1 >>> 52) &&& 0x7ff#64).toNat
  let mant := b1 &&& 0xfffffffffffff#64
  let aSign : Int := (sign a).toNat
  if e = 2047 then
    if mant ≠ 0 then 2 else 2 * bSign - 1
  else if e = 0 ∧ mant = 0 then
    if a = [0] then 0 else 1 - 2 * aSign
  else if a = [0] then 2 * bSign - 1
  else if aSign ≠ bSign then 1 - 2 * aSign
  else
    let f := getMantExp a
    if f.2 ≠ e - 1023 then
      if f.2 < e - 1023 then -1 else 1
    else
      let mant := (mant ||| 0x10000000000000#64) <<< 11
      if f.1 < mant then 2 * aSign - 1
      else if f.1 > mant then 1 - 2 * aSign
      else 0

/-- The loop of `js_bigint_cmp` from the highest limb down. -/
def cmpLimbs : List Limb → List Limb → Int
  | x :: xs, y :: ys => if x ≠ y then if x < y then -1 else 1 else cmpLimbs xs ys
  | _, _ => 0

def cmp (a b : JSBigInt) : Int :=
  let aSign : Int := (sign a).toNat
  if sign a ≠ sign b then 1 - 2 * aSign
  else if a.length ≠ b.length then
    if a.length < b.length then 2 * aSign - 1 else 1 - 2 * aSign
  else cmpLimbs a.reverse b.reverse

inductive Numeric where
  | int (v : BitVec 32)
  | shortBigInt (v : Limb)
  | bigInt (a : JSBigInt)
  | float64 (u : BitVec 64)

/-- `JS_ToBigIntBuf`; a double has none. -/
def toBigIntBuf : Numeric → Option JSBigInt
  | .int v | .shortBigInt v => some [v]
  | .bigInt a => some a
  | .float64 _ => none

inductive CompareOp where
  | lt | lte | gt | gte | eq
  deriving DecidableEq

/-- `a op b` is `b op.swap a`. -/
def CompareOp.swap : CompareOp → CompareOp
  | lt => gt
  | lte => gte
  | gt => lt
  | gte => lte
  | eq => eq

def CompareOp.test : CompareOp → Int → Bool
  | lt, val => val < 0
  | lte, val => val ≤ 0
  | gt, val => val > 0
  | gte, val => val ≥ 0
  | eq, val => val = 0

/-- `js_compare_bigint`; nothing is the abort. -/
def compareBigint (op : CompareOp) (op1 op2 : Numeric) : Option Bool :=
  match op1, op2 with
  | .int v1, .int v2 | .int v1, .shortBigInt v2 | .shortBigInt v1, .int v2
  | .shortBigInt v1, .shortBigInt v2 =>
    some (op.test ((if v1.toInt > v2.toInt then 1 else 0) - (if v1.toInt < v2.toInt then 1 else 0)))
  | .float64 u, op2 => do
    let p2 ← toBigIntBuf op2
    let val := float64Cmp p2 u
    if val = 2 then return false else return op.test (-val)
  | op1, .float64 u => do
    let p1 ← toBigIntBuf op1
    let val := float64Cmp p1 u
    if val = 2 then return false else return op.test val
  | op1, op2 => do
    let p1 ← toBigIntBuf op1
    let p2 ← toBigIntBuf op2
    return op.test (cmp p1 p2)

def Numeric.value : Numeric → Double
  | .int v | .shortBigInt v => .ofInt v.toInt
  | .bigInt a => .ofInt (signed a)
  | .float64 u => Binary64.toDouble u

def CompareOp.relation (op : CompareOp) (x y : Double) : Bool :=
  match op with
  | lt => x.less y
  | lte => x.lessEq y
  | gt => y.less x
  | gte => y.lessEq x
  | eq => x.lessEq y && y.lessEq x

def order (x y : ℚ) : Int := if x < y then -1 else if y < x then 1 else 0

theorem order_neg (x y : ℚ) : order (-x) (-y) = order y x := by
  simp only [order, neg_lt_neg_iff]

theorem order_swap (x y : ℚ) : order y x = -order x y := by
  unfold order
  rcases lt_trichotomy x y with h | h | h
  · rw [if_neg h.le.not_gt, if_pos h, if_pos h]
    rfl
  · simp [h]
  · rw [if_pos h, if_neg h.le.not_gt, if_pos h]

theorem order_of_lt {x y : ℚ} (h : x < y) : order x y = -1 := if_pos h

theorem order_of_gt {x y : ℚ} (h : y < x) : order x y = 1 :=
  (if_neg h.le.not_gt).trans (if_pos h)

theorem flip_toNat (neg : Bool) (x : Limb) :
    ((flip neg x).toNat : Int) = (if neg then 2 ^ 32 - 1 - (x.toNat : Int) else x.toNat : Int) := by
  have hx := x.isLt
  cases neg with
  | true =>
    rw [if_pos rfl, show flip true x = ~~~x from BitVec.xor_allOnes, BitVec.toNat_not]
    omega
  | false => rw [if_neg (by decide), show flip false x = x from BitVec.xor_zero]

theorem absLimbs_length (neg : Bool) (l : List Limb) :
    ∀ carry, (absLimbs neg l carry).length = l.length := by
  induction l with
  | nil => exact fun _ => rfl
  | cons x l ih => exact fun carry => congrArg (· + 1) (ih _)

theorem absLimbs_spec (neg : Bool) (l : List Limb) : ∀ carry, ∃ out : Bool,
    (magnitude (absLimbs neg l carry) : Int) + 2 ^ (32 * l.length) * (if out then 1 else 0) =
      (if neg then 2 ^ (32 * l.length) - 1 - (magnitude l : Int) else magnitude l) +
        (if carry then 1 else 0) := by
  induction l with
  | nil =>
    intro carry
    refine ⟨carry, ?_⟩
    cases neg <;> simp [absLimbs, magnitude]
  | cons x l ih =>
    intro carry
    obtain ⟨out, hout⟩ := ih (decide (flip neg x + carryLimb carry < carryLimb carry))
    refine ⟨out, ?_⟩
    have hx := flip_toNat neg x
    have hlt := (flip neg x).isLt
    have hpow : (2 : Int) ^ (32 * (x :: l).length) = 2 ^ 32 * 2 ^ (32 * l.length) := by
      rw [List.length_cons]
      ring
    have hdigit : ((flip neg x + carryLimb carry).toNat : Int) + 2 ^ 32 *
        (if decide (flip neg x + carryLimb carry < carryLimb carry) = true then 1 else 0) =
        (flip neg x).toNat + (if carry then 1 else 0) := by
      simp only [decide_eq_true_eq, BitVec.lt_def, BitVec.toNat_add]
      cases carry
      · simp [carryLimb, Nat.mod_eq_of_lt hlt]
      · rw [show (carryLimb true).toNat = 1 from rfl]
        split <;> simp only [if_true] <;> omega
    rw [hpow]
    simp only [absLimbs, magnitude]
    push_cast
    cases neg
    · simp only [Bool.false_eq_true, if_false] at hout hx ⊢
      rw [hx] at hdigit
      linear_combination hdigit + 2 ^ 32 * hout
    · simp only [if_true] at hout hx ⊢
      rw [hx] at hdigit
      linear_combination hdigit + 2 ^ 32 * hout

theorem signed_eq {a : JSBigInt} (ha : a ≠ []) :
    signed a = magnitude a - 2 ^ (32 * a.length) * if sign a ≠ 0 then 1 else 0 := by
  rw [signed, join_eq, sign_ne_zero ha]
  split <;> ring

theorem sign_eq {a : JSBigInt} (ha : a ≠ []) : sign a = if signed a < 0 then 1 else 0 := by
  have hlt : (magnitude a : Int) < 2 ^ (32 * a.length) := by exact_mod_cast magnitude_lt a
  have hbit : sign a = 0 ∨ sign a = 1 := by
    unfold sign
    rw [shiftRight_msb]
    split <;> simp
  have hs := signed_eq ha
  rcases hbit with h | h <;> rw [h] at hs ⊢
  · rw [if_neg (by simp at hs; omega)]
  · rw [if_pos (by simp at hs; omega)]

theorem magnitude_absLimbs {a : JSBigInt} (ha : a ≠ []) :
    magnitude (absLimbs (decide (sign a ≠ 0)) a (decide (sign a ≠ 0))) = (signed a).natAbs := by
  have hs := signed_eq ha
  have hlt : (magnitude a : Int) < 2 ^ (32 * a.length) := by exact_mod_cast magnitude_lt a
  obtain ⟨out, hout⟩ := absLimbs_spec (decide (sign a ≠ 0)) a (decide (sign a ≠ 0))
  have hlt' : (magnitude (absLimbs (decide (sign a ≠ 0)) a (decide (sign a ≠ 0))) : Int) <
      2 ^ (32 * a.length) := by
    have := magnitude_lt (absLimbs (decide (sign a ≠ 0)) a (decide (sign a ≠ 0)))
    rw [absLimbs_length] at this
    exact_mod_cast this
  have hfit := (fitsIn_signed (by decide) ha).1
  generalize (2 : Int) ^ (32 * a.length) = b at *
  by_cases h : sign a = 0
  · simp only [h, ne_eq, not_true, decide_false, if_false, Bool.false_eq_true] at hout hs hlt' ⊢
    cases out <;> simp at hout <;> omega
  · simp only [h, ne_eq, not_false_eq_true, decide_true, if_true] at hout hs hlt' ⊢
    cases out <;> simp at hout <;> omega

theorem lt_scaled {x y a b c d : Nat} (h : a + d = b + c) :
    x * 2 ^ a < y * 2 ^ b ↔ x * 2 ^ c < y * 2 ^ d := by
  have hleft : x * 2 ^ a * 2 ^ d = x * 2 ^ c * 2 ^ b := by
    rw [Nat.mul_assoc, Nat.mul_assoc, ← Nat.pow_add, ← Nat.pow_add, h, Nat.add_comm]
  have hright : y * 2 ^ b * 2 ^ d = y * 2 ^ d * 2 ^ b := Nat.mul_right_comm ..
  rw [← Nat.mul_lt_mul_right (Nat.two_pow_pos d), hleft, hright,
    Nat.mul_lt_mul_right (Nat.two_pow_pos b)]

theorem digits_lt {q r b M : Nat} (hr : r < b) :
    (q * b + r < M * b ↔ q < M) ∧ (M * b < q * b + r ↔ M < q ∨ M = q ∧ r ≠ 0) := by
  have hle : ∀ x y : Nat, x < y → x * b + b ≤ y * b := by
    intro x y h
    have := Nat.mul_le_mul_right b h
    rwa [Nat.succ_mul] at this
  rcases Nat.lt_trichotomy M q with h | rfl | h
  · have := hle _ _ h
    omega
  · omega
  · have := hle _ _ h
    omega

theorem sticky_lt {q r b M : Nat} (hr : r < b) (hM : M % 2 = 0) :
    (q ||| (if r ≠ 0 then 1 else 0) < M ↔ q * b + r < M * b) ∧
      (M < q ||| (if r ≠ 0 then 1 else 0) ↔ M * b < q * b + r) := by
  have hor : q ||| 1 = 2 * (q / 2) + 1 := by
    have hhalf : (q ||| 1) / 2 = q / 2 := by rw [Nat.or_div_two]; simp
    have hodd : (q ||| 1) % 2 = 1 := Nat.or_mod_two_eq_one.mpr (.inr rfl)
    omega
  rw [(digits_lt hr).1, (digits_lt hr).2]
  by_cases h : r ≠ 0
  · rw [if_pos h, hor]
    omega
  · rw [if_neg h, Nat.or_zero]
    omega

theorem word_toNat (high low : Limb) : (word high low).toNat = high.toNat * 2 ^ 32 + low.toNat := by
  have hlow := low.isLt
  have hhigh := high.isLt
  rw [word, BitVec.toNat_or, BitVec.toNat_shiftLeft, BitVec.toNat_setWidth, BitVec.toNat_setWidth,
    Nat.mod_eq_of_lt (by omega), Nat.mod_eq_of_lt (by omega), Nat.shiftLeft_eq,
    Nat.mod_eq_of_lt (by omega), Nat.mul_comm, Nat.two_pow_add_eq_or_of_lt hlow]

theorem clz64_spec {a : BitVec 64} (h : a ≠ 0) :
    2 ^ 63 ≤ a.toNat * 2 ^ clz64 a ∧ a.toNat * 2 ^ clz64 a < 2 ^ 64 := by
  have hne : a.toNat ≠ 0 := fun h0 => h (BitVec.eq_of_toNat_eq h0)
  have hlt : Nat.log2 a.toNat < 64 := (Nat.log2_lt hne).mpr a.isLt
  have hself := Nat.log2_self_le hne
  have hnext : a.toNat < 2 ^ (Nat.log2 a.toNat + 1) := (Nat.log2_lt hne).mp (Nat.lt_succ_self _)
  rw [clz64, if_neg h]
  generalize Nat.log2 a.toNat = k at *
  have h63 : (2 : Nat) ^ 63 = 2 ^ k * 2 ^ (63 - k) := by rw [← Nat.pow_add]; congr 1; omega
  have h64 : (2 : Nat) ^ 64 = 2 ^ (k + 1) * 2 ^ (63 - k) := by
    rw [← Nat.pow_add]
    congr 1
    omega
  rw [h63, h64]
  exact ⟨Nat.mul_le_mul_right _ hself, Nat.mul_lt_mul_of_pos_right hnext (Nat.two_pow_pos _)⟩

theorem normalizedMantissa_spec {a1 : BitVec 64} (h : a1 ≠ 0) (a0 : BitVec 64) :
    (normalizedMantissa a1 a0).2 = clz64 a1 ∧
    2 ^ 63 ≤ (normalizedMantissa a1 a0).1.toNat ∧ ∀ M, M % 2 = 0 →
      ((normalizedMantissa a1 a0).1.toNat < M ↔
        (a1.toNat * 2 ^ 64 + a0.toNat) * 2 ^ clz64 a1 < M * 2 ^ 64) ∧
      (M < (normalizedMantissa a1 a0).1.toNat ↔
        M * 2 ^ 64 < (a1.toNat * 2 ^ 64 + a0.toNat) * 2 ^ clz64 a1) := by
  obtain ⟨hlow, hhigh⟩ := clz64_spec h
  have ha0 := a0.isLt
  obtain ⟨q, r, hr, hq, hsum, hm⟩ : ∃ q r, r < 2 ^ 64 ∧ 2 ^ 63 ≤ q ∧
      (a1.toNat * 2 ^ 64 + a0.toNat) * 2 ^ clz64 a1 = q * 2 ^ 64 + r ∧
      (normalizedMantissa a1 a0).1.toNat = q ||| (if r ≠ 0 then 1 else 0) := by
    unfold normalizedMantissa
    generalize clz64 a1 = s at *
    have hset : ∀ x y : BitVec 64, (x ||| (if y ≠ 0 then 1 else 0)).toNat =
        x.toNat ||| (if y.toNat ≠ 0 then 1 else 0) := by
      intro x y
      by_cases hy : y = 0
      · simp [hy]
      · have hy' : y.toNat ≠ 0 := fun h0 => hy (BitVec.eq_of_toNat_eq h0)
        rw [if_pos hy, if_pos hy', BitVec.toNat_or]
        rfl
    by_cases hs : s = 0
    · subst hs
      refine ⟨a1.toNat, a0.toNat, ha0, by omega, by omega, ?_⟩
      exact hset a1 a0
    · have hs' : s < 64 := by
        by_contra hc
        have hpow : 2 ^ 64 ≤ 2 ^ s := Nat.pow_le_pow_right (by decide) (Nat.le_of_not_lt hc)
        have hpos : 1 ≤ a1.toNat := by
          by_contra h0
          have : a1.toNat = 0 := by omega
          rw [this] at hlow
          omega
        have := Nat.mul_le_mul hpos hpow
        omega
      have hsplit : 2 ^ 64 = 2 ^ (64 - s) * 2 ^ s := by rw [← Nat.pow_add]; congr 1; omega
      have hdiv : a0.toNat * 2 ^ s / 2 ^ 64 = a0.toNat / 2 ^ (64 - s) := by
        rw [hsplit, Nat.mul_div_mul_right _ _ (Nat.two_pow_pos s)]
      have hrest : a0.toNat / 2 ^ (64 - s) < 2 ^ s := by
        rw [Nat.div_lt_iff_lt_mul (Nat.two_pow_pos _), Nat.mul_comm, ← hsplit]
        exact ha0
      refine ⟨a1.toNat * 2 ^ s + a0.toNat / 2 ^ (64 - s), a0.toNat * 2 ^ s % 2 ^ 64,
        Nat.mod_lt _ (by decide), by omega, ?_, ?_⟩
      · rw [← hdiv]
        have := Nat.div_add_mod (a0.toNat * 2 ^ s) (2 ^ 64)
        rw [Nat.add_mul, Nat.add_mul, Nat.mul_right_comm]
        omega
      · simp only [ne_eq, hs, not_false_eq_true, if_true]
        rw [hset, BitVec.toNat_or, BitVec.toNat_shiftLeft, BitVec.toNat_shiftLeft,
          BitVec.toNat_ushiftRight, Nat.shiftLeft_eq, Nat.shiftLeft_eq,
          Nat.shiftRight_eq_div_pow, Nat.mod_eq_of_lt hhigh, Nat.mul_comm a1.toNat,
          Nat.two_pow_add_eq_or_of_lt hrest]
  rw [hm, hsum]
  refine ⟨rfl, hq.trans Nat.left_le_or, fun M hM => sticky_lt hr hM⟩

theorem not_fitsIn {a : JSBigInt} (ha : Minimal a) {k : Nat} (h0 : 0 < k) (hk : k < a.length) :
    ¬ FitsIn 32 k (signed a) := by
  intro hfit
  rcases ha.cases (by decide) with ⟨x, rfl⟩ | ⟨l, u, v, rfl, hs⟩
  · simp at hk
    omega
  · have hlong : FitsIn 32 (l.length + 1) (signed (l ++ [u, v])) := by
      apply hfit.mono
      simp at hk
      omega
    rw [show l ++ [u, v] = (l ++ [u]) ++ [v] by simp, signed_concat, join_append] at hlong
    exact hs ((signLimb_iff_fits u v).mpr ((fitsIn_join (by decide)).mp hlong))

theorem foldl_or_eq_zero (l : List Limb) : ∀ x : Limb,
    l.foldl (· ||| ·) x = 0 ↔ x = 0 ∧ magnitude l = 0 := by
  induction l with
  | nil => simp [magnitude]
  | cons y l ih =>
    intro x
    have hy : y = 0 ↔ y.toNat = 0 := ⟨fun h => by rw [h]; rfl, fun h => BitVec.eq_of_toNat_eq h⟩
    have hor : x ||| y = 0 ↔ x = 0 ∧ y = 0 := BitVec.or_eq_zero_iff
    rw [List.foldl_cons, ih, hor, magnitude, hy, and_assoc]
    refine and_congr_right fun _ => ?_
    omega

theorem highLimbs_spec {l : List Limb} (hl : l ≠ []) : ∃ t0 t1 t2 : Limb,
    List.replicate (3 - l.length) 0 ++ l.drop (l.length - 3) = [t0, t1, t2] ∧
    magnitude (l.take (l.length - 3)) < 2 ^ (32 * (l.length - 3)) ∧
    magnitude l * 2 ^ (32 * (3 - l.length)) =
      (t0.toNat + 2 ^ 32 * t1.toNat + 2 ^ 64 * t2.toNat) * 2 ^ (32 * (l.length - 3)) +
        magnitude (l.take (l.length - 3)) := by
  have hpos := List.length_pos_iff.mpr hl
  have htop : (List.replicate (3 - l.length) 0 ++ l.drop (l.length - 3)).length = 3 := by
    rw [List.length_append, List.length_replicate, List.length_drop]
    omega
  obtain ⟨t0, t1, t2, ht⟩ := List.length_eq_three.mp htop
  refine ⟨t0, t1, t2, ht, ?_, ?_⟩
  · have := magnitude_lt (l.take (l.length - 3))
    rwa [List.length_take, Nat.min_eq_left (by omega)] at this
  · have hvalue := congrArg magnitude ht
    rw [magnitude_append, magnitude_zeros, List.length_replicate] at hvalue
    simp only [magnitude] at hvalue
    have hwhole := magnitude_append (l.take (l.length - 3)) (l.drop (l.length - 3))
    rw [List.take_append_drop, List.length_take, Nat.min_eq_left (by omega)] at hwhole
    have hT : t0.toNat + 2 ^ 32 * t1.toNat + 2 ^ 64 * t2.toNat =
        2 ^ (32 * (3 - l.length)) * magnitude (l.drop (l.length - 3)) := by omega
    rw [hT, hwhole]
    rcases Nat.le_total 3 l.length with h | h
    · rw [Nat.sub_eq_zero_of_le h]
      ring
    · rw [Nat.sub_eq_zero_of_le h, List.take_zero]
      simp [magnitude]
      ring

theorem getMantExp_spec {a : JSBigInt} (ha : Minimal a) (h0 : signed a ≠ 0) :
    ∃ f : Nat, (getMantExp a).2 = f ∧ 2 ^ 63 ≤ (getMantExp a).1.toNat ∧ ∀ M, M % 2 = 0 →
      ((getMantExp a).1.toNat < M ↔ (signed a).natAbs * 2 ^ 63 < M * 2 ^ f) ∧
      (M < (getMantExp a).1.toNat ↔ M * 2 ^ f < (signed a).natAbs * 2 ^ 63) := by
  have hmag := magnitude_absLimbs ha.1
  have hlength := absLimbs_length (decide (sign a ≠ 0)) a (decide (sign a ≠ 0))
  have hpos := List.length_pos_iff.mpr ha.1
  have hsize : 1 < a.length → 2 ^ (32 * (a.length - 1)) ≤ 2 * (signed a).natAbs := by
    intro hlong
    have := not_fitsIn ha (k := a.length - 1) (by omega) (by omega)
    unfold FitsIn at this
    zify
    rw [abs_eq_max_neg]
    generalize (2 : Int) ^ (32 * (a.length - 1)) = b at *
    omega
  unfold getMantExp
  simp only
  generalize absLimbs (decide (sign a ≠ 0)) a (decide (sign a ≠ 0)) = l at *
  obtain ⟨t0, t1, t2, ht, hlow, hvalue⟩ := highLimbs_spec (l := l) (by
    rintro rfl
    simp at hlength
    omega)
  rw [hlength] at ht hlow hvalue
  rw [ht]
  simp only [List.getD_cons_zero, List.getD_cons_succ]
  have hlowBits : (l.take (a.length - 3)).foldl (· ||| ·) 0 ≠ 0 ↔
      magnitude (l.take (a.length - 3)) ≠ 0 := by
    rw [ne_eq, foldl_or_eq_zero]
    simp
  rw [hmag] at hvalue
  generalize hL : magnitude (l.take (a.length - 3)) = low at *
  generalize hA : (signed a).natAbs = A at *
  have hb0 := t0.isLt
  have hb1 := t1.isLt
  have hb2 := t2.isLt
  generalize hT : t0.toNat + 2 ^ 32 * t1.toNat + 2 ^ 64 * t2.toNat = T at *
  have hone : a.length = 1 → 2 ^ 64 ≤ T := by
    intro h1
    rw [h1] at hvalue hlow
    simp at hvalue hlow
    omega
  have hbig : 2 ^ 63 ≤ T := by
    by_cases h1 : a.length = 1
    · have := hone h1
      omega
    have hscale : 2 ^ (32 * (a.length - 1)) * 2 ^ (32 * (3 - a.length)) =
        2 ^ 64 * 2 ^ (32 * (a.length - 3)) := by
      rw [← Nat.pow_add, ← Nat.pow_add]
      congr 1
      omega
    have hA2 := Nat.mul_le_mul_right (2 ^ (32 * (3 - a.length))) (hsize (by omega))
    rw [hscale, Nat.mul_assoc, hvalue] at hA2
    by_contra hc
    have := Nat.mul_le_mul_right (2 ^ (32 * (a.length - 3))) (Nat.lt_of_not_le hc)
    rw [Nat.succ_mul] at this
    omega
  have ha1 : (word t2 t1).toNat * 2 ^ 32 + t0.toNat = T := by
    rw [word_toNat]
    omega
  have hne : word t2 t1 ≠ 0 := by
    intro h
    rw [h] at ha1
    simp at ha1
    omega
  obtain ⟨hs, hm, hcmp⟩ := normalizedMantissa_spec hne
    (word t0 (if (l.take (a.length - 3)).foldl (· ||| ·) 0 ≠ 0 then 1 else 0))
  obtain ⟨hclzlow, hclzhigh⟩ := clz64_spec hne
  rw [hs]
  generalize clz64 (word t2 t1) = s at *
  have hs32 : s ≤ 32 ∧ (a.length = 1 → s ≤ 31) := by
    have hstep : ∀ k, 2 ^ (63 - k) ≤ (word t2 t1).toNat → k ≤ 63 → s ≤ k := by
      intro k hk hk63
      by_contra hc
      have hpow : 2 ^ 64 ≤ 2 ^ (63 - k) * 2 ^ s := by
        rw [← Nat.pow_add]
        exact Nat.pow_le_pow_right (by decide) (by omega)
      have := Nat.mul_le_mul_right (2 ^ s) hk
      omega
    exact ⟨hstep 32 (by omega) (by omega), fun h1 => hstep 31 (by have := hone h1; omega) (by omega)⟩
  refine ⟨32 * a.length - 1 - s, by omega, hm, fun M hM => ?_⟩
  obtain ⟨hlt, hgt⟩ := hcmp M hM
  rw [hlt, hgt]
  have hN : (word t2 t1).toNat * 2 ^ 64 +
      (word t0 (if (l.take (a.length - 3)).foldl (· ||| ·) 0 ≠ 0 then 1 else 0)).toNat =
      T * 2 ^ 32 + if low ≠ 0 then 1 else 0 := by
    rw [word_toNat t0]
    by_cases h : low ≠ 0
    · rw [if_pos (hlowBits.mpr h), if_pos h, show ((1 : Limb).toNat) = 1 from rfl, ← ha1]
      ring
    · rw [if_neg (mt hlowBits.mp h), if_neg h, show ((0 : Limb).toNat) = 0 from rfl, ← ha1]
      ring
  rw [hN]
  have hsticky : (if low ≠ 0 then 1 else 0) < 2 ^ 32 := by split <;> decide
  have hM64 : M * 2 ^ (64 - s) = M * 2 ^ (32 - s) * 2 ^ 32 := by
    rw [Nat.mul_assoc, ← Nat.pow_add]
    congr 2
    omega
  have hML : M * 2 ^ (32 - s) * 2 ^ (32 * (a.length - 3)) =
      M * 2 ^ (32 - s + 32 * (a.length - 3)) := by rw [Nat.mul_assoc, ← Nat.pow_add]
  constructor
  · rw [lt_scaled (c := 0) (d := 64 - s) (by omega), hM64, Nat.pow_zero, Nat.mul_one,
      (digits_lt hsticky).1, ← (digits_lt hlow).1, ← hvalue, hML]
    exact lt_scaled (by omega)
  · rw [lt_scaled (c := 64 - s) (d := 0) (by omega), hM64, Nat.pow_zero, Nat.mul_one,
      (digits_lt hsticky).2]
    have hiff : (if low ≠ 0 then 1 else 0) ≠ 0 ↔ low ≠ 0 := by split <;> simp_all
    rw [hiff, ← (digits_lt hlow).2, ← hvalue, hML]
    exact lt_scaled (by omega)

theorem cmpLimbs_eq (xs : List Limb) : ∀ ys : List Limb, xs.length = ys.length →
    cmpLimbs xs ys = order (magnitude xs.reverse) (magnitude ys.reverse) := by
  induction xs with
  | nil =>
    intro ys h
    rw [List.length_eq_zero_iff.mp h.symm]
    simp [cmpLimbs, order]
  | cons x xs ih =>
    intro ys h
    cases ys with
    | nil => cases h
    | cons y ys =>
      have hlen : xs.length = ys.length := Nat.succ.inj h
      have hx := magnitude_lt xs.reverse
      have hy := magnitude_lt ys.reverse
      rw [List.length_reverse] at hx hy
      rw [List.reverse_cons, List.reverse_cons, magnitude_append, magnitude_append, cmpLimbs,
        List.length_reverse, List.length_reverse, ih ys hlen, ← hlen]
      rw [← hlen] at hy
      have hdigit (z : Limb) : magnitude [z] = z.toNat := by simp [magnitude]
      rw [hdigit, hdigit]
      simp only [order, Nat.cast_lt, BitVec.lt_def]
      by_cases he : x = y
      · subst he
        simp
      · have hne : x.toNat ≠ y.toNat := fun h0 => he (BitVec.eq_of_toNat_eq h0)
        rw [if_pos he]
        generalize 2 ^ (32 * xs.length) = b at *
        rcases Nat.lt_or_gt_of_ne hne with hlt | hgt
        · have := Nat.mul_le_mul_left b hlt
          rw [Nat.mul_succ] at this
          rw [if_pos hlt, if_pos (by omega)]
        · have := Nat.mul_le_mul_left b hgt
          rw [Nat.mul_succ] at this
          rw [if_neg (Nat.not_lt.mpr hgt.le), if_neg (by omega), if_pos (by omega)]

theorem cmp_eq_order {a b : JSBigInt} (ha : Minimal a) (hb : Minimal b) :
    cmp a b = order (signed a) (signed b) := by
  have hsa := signed_eq ha.1
  have hsb := signed_eq hb.1
  have hfa := fitsIn_signed (by decide) ha.1
  have hfb := fitsIn_signed (by decide) hb.1
  have hna := not_fitsIn ha (List.length_pos_iff.mpr hb.1)
  have hnb := not_fitsIn hb (List.length_pos_iff.mpr ha.1)
  have horder (m n : Int) : order m n = if m < n then -1 else if n < m then 1 else 0 := by
    simp only [order, Int.cast_lt]
  have hequal : a.length = b.length → sign a = sign b → cmpLimbs a.reverse b.reverse =
      order (signed a) (signed b) := by
    intro hlen hsign
    rw [cmpLimbs_eq _ _ (by simpa using hlen), List.reverse_reverse, List.reverse_reverse, hsa, hsb,
      hsign, hlen]
    simp [order]
  have hbit {l : JSBigInt} (hl : l ≠ []) :
      ((sign l).toNat : Int) = if signed l < 0 then 1 else 0 := by
    rw [sign_eq hl]
    split <;> rfl
  have hsign : sign a = sign b ↔ (signed a < 0 ↔ signed b < 0) := by
    rw [sign_eq ha.1, sign_eq hb.1]
    by_cases hA : signed a < 0 <;> by_cases hB : signed b < 0 <;> simp [hA, hB]
  rw [FitsIn] at hfa hfb hna hnb
  unfold cmp
  simp only [hbit ha.1]
  by_cases hs : sign a = sign b
  · rw [if_neg (not_not.mpr hs)]
    by_cases hl : a.length = b.length
    · rw [if_neg (not_not.mpr hl)]
      exact hequal hl hs
    · rw [if_pos hl, horder]
      have hneg := hsign.mp hs
      rcases Nat.lt_or_gt_of_ne hl with h | h
      · have := hnb h
        rw [if_pos h]
        split <;> split <;> omega
      · have := hna h
        rw [if_neg (Nat.not_lt.mpr h.le)]
        split <;> split <;> omega
  · have hneg := mt hsign.mpr hs
    rw [if_pos hs, horder]
    split <;> split <;> omega

theorem signBit_toNat (u : BitVec 64) :
    ((u >>> 63).toNat : Int) = if u.msb then 1 else 0 := by
  rw [BitVec.toNat_ushiftRight, Nat.shiftRight_eq_div_pow, BitVec.msb_eq_decide]
  have := u.isLt
  by_cases h : 2 ^ (64 - 1) ≤ u.toNat
  · simp only [h, decide_true, if_true]
    omega
  · simp only [h, decide_false, if_false, Bool.false_eq_true]
    omega

theorem magnitude_bounds (u : BitVec 64) :
    (Binary64.exponent u ≠ 0 →
      (2 : ℚ) ^ ((Binary64.exponent u : ℤ) - 1023) ≤ Binary64.magnitude u) ∧
    Binary64.magnitude u < 2 ^ ((max (Binary64.exponent u) 1 : ℤ) - 1022) := by
  have hscale (k : ℤ) : (0 : ℚ) < 2 ^ k := zpow_pos (by norm_num) k
  constructor
  · intro h
    have hs : (2 : ℚ) ^ 52 ≤ Binary64.significand u := by
      rw [Binary64.significand_normal h]
      push_cast
      linarith [Nat.cast_nonneg (α := ℚ) (Binary64.fraction u)]
    rw [Binary64.magnitude, show (max (Binary64.exponent u) 1 : ℤ) = Binary64.exponent u by omega,
      show (Binary64.exponent u : ℤ) - 1023 = 52 + ((Binary64.exponent u : ℤ) - 1075) by ring,
      zpow_add₀ (by norm_num)]
    exact mul_le_mul_of_nonneg_right (by exact_mod_cast hs) (hscale _).le
  · have hs : (Binary64.significand u : ℚ) < 2 ^ 53 := by
      exact_mod_cast Binary64.significand_lt u
    rw [Binary64.magnitude, show (max (Binary64.exponent u) 1 : ℤ) - 1022 =
        53 + ((max (Binary64.exponent u) 1 : ℤ) - 1075) by ring, zpow_add₀ (by norm_num)]
    exact mul_lt_mul_of_pos_right (by exact_mod_cast hs) (hscale _)

theorem magnitude_order {a : JSBigInt} (ha : Minimal a) (h0 : signed a ≠ 0) (u : BitVec 64) :
    (getMantExp a).2 = Nat.log2 (signed a).natAbs ∧
    ((getMantExp a).2 < Binary64.exponent u - 1023 →
      ((signed a).natAbs : ℚ) < Binary64.magnitude u) ∧
    ((Binary64.exponent u : ℤ) - 1023 < (getMantExp a).2 →
      Binary64.magnitude u < (signed a).natAbs) ∧
    ((getMantExp a).2 = Binary64.exponent u - 1023 →
      ((getMantExp a).1.toNat < Binary64.significand u * 2 ^ 11 ↔
        ((signed a).natAbs : ℚ) < Binary64.magnitude u) ∧
      (Binary64.significand u * 2 ^ 11 < (getMantExp a).1.toNat ↔
        Binary64.magnitude u < (signed a).natAbs)) := by
  obtain ⟨f, hf, hm, hcmp⟩ := getMantExp_spec ha h0
  obtain ⟨hle, hlt⟩ := magnitude_bounds u
  have hA : (signed a).natAbs ≠ 0 := Int.natAbs_ne_zero.mpr h0
  have hlow : 2 ^ f ≤ (signed a).natAbs := by
    have := mt (hcmp (2 ^ 63) (by decide)).1.mpr (Nat.not_lt.mpr hm)
    rw [Nat.mul_comm] at this
    exact Nat.le_of_mul_le_mul_left (Nat.not_lt.mp this) (by decide)
  have hhigh : (signed a).natAbs < 2 ^ (f + 1) := by
    have := (hcmp (2 ^ 64) (by decide)).1.mp (getMantExp a).1.isLt
    rw [show 2 ^ 64 * 2 ^ f = 2 ^ 63 * 2 ^ (f + 1) by ring, Nat.mul_comm] at this
    exact Nat.lt_of_mul_lt_mul_left this
  generalize (signed a).natAbs = A at *
  have hlowQ : (2 : ℚ) ^ (f : ℤ) ≤ A := by exact_mod_cast hlow
  have hhighQ : (A : ℚ) < 2 ^ ((f : ℤ) + 1) := by exact_mod_cast hhigh
  have hmono {j k : ℤ} (h : j ≤ k) : (2 : ℚ) ^ j ≤ 2 ^ k := zpow_le_zpow_right₀ (by norm_num) h
  rw [hf]
  refine ⟨by rw [(Nat.log2_eq_iff hA).mpr ⟨hlow, hhigh⟩], fun h => ?_, fun h => ?_, fun h => ?_⟩
  · exact hhighQ.trans_le ((hmono (by omega)).trans (hle (by omega)))
  · exact hlt.trans_le ((hmono (by omega)).trans hlowQ)
  · obtain ⟨h1, h2⟩ := hcmp (Binary64.significand u * 2 ^ 11) (by omega)
    have hvalue : Binary64.magnitude u * 2 ^ 63 =
        ((Binary64.significand u * 2 ^ 11 * 2 ^ f : Nat) : ℚ) := by
      rw [Binary64.magnitude, show (max (Binary64.exponent u) 1 : ℤ) - 1075 = f - 52 by omega,
        zpow_sub₀ (by norm_num), zpow_natCast]
      push_cast
      norm_num
      ring
    have hscale : (0 : ℚ) < 2 ^ 63 := by norm_num
    have hcast : (A : ℚ) * 2 ^ 63 = ((A * 2 ^ 63 : Nat) : ℚ) := by
      rw [Nat.cast_mul, Nat.cast_pow]
      rfl
    refine ⟨h1.trans ?_, h2.trans ?_⟩ <;> rw [← Nat.cast_lt (α := ℚ), ← hvalue, ← hcast] <;>
      exact mul_lt_mul_iff_left₀ hscale

theorem eq_zero_iff {a : JSBigInt} (ha : Minimal a) : a = [0] ↔ signed a = 0 := by
  constructor
  · rintro rfl
    rfl
  · intro h
    have hlen := ha.2 [0] (by simp) h.symm
    rcases ha.cases (by decide) with ⟨x, rfl⟩ | ⟨l, u, v, rfl, -⟩
    · rw [(toInt_eq_zero_iff x).mp ((signed_concat [] x).symm.trans h)]
    · simp at hlen

theorem magnitude_eq_zero {u : BitVec 64} : Binary64.magnitude u = 0 ↔
    (Binary64.exponent u : Int) = 0 ∧ u &&& 0xfffffffffffff#64 = 0 := by
  have hfraction : u &&& 0xfffffffffffff#64 = 0 ↔ Binary64.fraction u = 0 := by
    rw [← Binary64.masked_fraction]
    exact ⟨fun h => by rw [h]; rfl, fun h => BitVec.eq_of_toNat_eq h⟩
  have hpow (k : ℤ) : (2 : ℚ) ^ k ≠ 0 := (zpow_pos (by norm_num) k).ne'
  rw [hfraction, Binary64.magnitude, mul_eq_zero, or_iff_left (hpow _), Nat.cast_eq_zero,
    Binary64.significand]
  split <;> omega

theorem absolute_order {a : JSBigInt} (ha : Minimal a) (h0 : signed a ≠ 0) (u : BitVec 64) :
    let mant := ((u &&& 0xfffffffffffff#64) ||| 0x10000000000000#64) <<< 11
    (if (getMantExp a).2 ≠ Binary64.exponent u - 1023 then
        if (getMantExp a).2 < Binary64.exponent u - 1023 then -1 else 1
      else if (getMantExp a).1 < mant then -1 else if (getMantExp a).1 > mant then 1 else 0) =
      order (signed a).natAbs (Binary64.magnitude u) := by
  intro mant
  obtain ⟨hlog, hless, hgreater, heq⟩ := magnitude_order ha h0 u
  by_cases he : (getMantExp a).2 = Binary64.exponent u - 1023
  · have hmant : mant.toNat = Binary64.significand u * 2 ^ 11 := by
      have := Binary64.significand_lt u
      rw [BitVec.toNat_shiftLeft, Binary64.masked_significand (by omega), Nat.shiftLeft_eq,
        Nat.mod_eq_of_lt (by omega)]
    obtain ⟨hlt, hgt⟩ := heq he
    rw [if_neg (not_not.mpr he), order]
    simp only [gt_iff_lt, BitVec.lt_def, hmant, hlt, hgt]
  · rw [if_pos he]
    rcases lt_or_gt_of_ne he with h | h
    · rw [if_pos h, order_of_lt (hless h)]
    · rw [if_neg h.le.not_gt, order_of_gt (hgreater h)]

def Reverses (n : Int) (u : BitVec 64) : Prop :=
  n < 0 ∧ u.msb = true ∧ Binary64.exponent u ≠ 2047 ∧ Binary64.magnitude u ≠ 0 ∧
    (Nat.log2 n.natAbs : Int) ≠ Binary64.exponent u - 1023

instance (n : Int) (u : BitVec 64) : Decidable (Reverses n u) := by
  unfold Reverses
  infer_instance

/-- `js_bigint_float64_cmp` on a finite double. -/
theorem float64Cmp_finite {a : JSBigInt} (ha : Minimal a) {u : BitVec 64} {q : ℚ}
    (hq : (Binary64.toDouble u).value? = some q) :
    float64Cmp a u =
      if Reverses (signed a) u then order q (signed a) else order (signed a) q := by
  have hfin : Binary64.exponent u ≠ 2047 := by
    intro h
    rw [Binary64.value_not_finite h] at hq
    cases hq
  have hbit : ((sign a).toNat : Int) = if signed a < 0 then 1 else 0 := by
    rw [sign_eq ha.1]
    split <;> rfl
  rw [Binary64.value_toDouble hfin, Option.some.injEq] at hq
  subst hq
  have hnonneg : 0 ≤ Binary64.magnitude u := by
    have hpow : (0 : ℚ) < 2 ^ ((max (Binary64.exponent u) 1 : ℤ) - 1075) :=
      zpow_pos (by norm_num) _
    exact mul_nonneg (Nat.cast_nonneg _) hpow.le
  have hcast : (signed a : ℚ) = if signed a < 0 then -((signed a).natAbs : ℚ)
      else (signed a).natAbs := by
    split
    · next h => rw [← Int.cast_natCast, Int.ofNat_natAbs_of_nonpos h.le]; simp
    · next h => rw [← Int.cast_natCast, Int.natAbs_of_nonneg (by omega)]
  unfold float64Cmp
  simp only [signBit_toNat, Binary64.shifted_exponent, hbit, eq_zero_iff ha]
  rw [if_neg (by exact_mod_cast hfin)]
  by_cases hmag : Binary64.magnitude u = 0
  · rw [if_pos (magnitude_eq_zero.mp hmag)]
    refine Eq.trans ?_ (if_neg fun h => h.2.2.2.1 hmag).symm
    have hzero : (if u.msb then -Binary64.magnitude u else Binary64.magnitude u) = 0 := by
      rw [hmag]
      simp
    rw [hzero]
    simp only [order, Int.cast_lt_zero, Int.cast_pos]
    split
    · next h => simp [h]
    · split
      · simp
      · simp
        omega
  have hpos : 0 < Binary64.magnitude u := lt_of_le_of_ne hnonneg (Ne.symm hmag)
  rw [if_neg (mt magnitude_eq_zero.mpr hmag)]
  by_cases h0 : signed a = 0
  · rw [if_pos h0]
    refine Eq.trans ?_ (if_neg fun h => by have := h.1; omega).symm
    rw [h0]
    cases u.msb
    · simp [order, hpos]
    · simp [order, hpos, hpos.le]
  have habs : (0 : ℚ) < (signed a).natAbs := by exact_mod_cast Int.natAbs_pos.mpr h0
  have hsame := absolute_order ha h0 u
  have hlog := (magnitude_order ha h0 u).1
  rw [if_neg h0]
  by_cases hA : signed a < 0 <;> by_cases hB : u.msb = true
  · have hnegative : (signed a : ℚ) = -(signed a).natAbs := hcast.trans (if_pos hA)
    rw [if_pos hB, if_pos hA, if_pos hB, if_neg (not_not.mpr rfl), hnegative, order_neg, order_neg]
    by_cases he : (getMantExp a).2 = Binary64.exponent u - 1023
    · have hkept : ¬ Reverses (signed a) u := fun h => h.2.2.2.2 (hlog.symm.trans he)
      rw [if_neg hkept, order_swap (signed a).natAbs, ← hsame]
      simp only [ne_eq, he, not_true, if_false]
      split
      · rfl
      · split <;> rfl
    · have hreversed : Reverses (signed a) u :=
        ⟨hA, hB, hfin, hmag, fun h => he (hlog.trans h)⟩
      rw [if_pos hreversed, if_pos he, ← hsame, if_pos he]
  · have hkept : ¬ Reverses (signed a) u := fun h => hB h.2.1
    have hnegative : (signed a : ℚ) = -(signed a).natAbs := hcast.trans (if_pos hA)
    rw [if_neg hB, if_pos hA, if_neg hB, if_pos (by decide), if_neg hkept, hnegative,
      order_of_lt (by linarith)]
    rfl
  · have hkept : ¬ Reverses (signed a) u := fun h => hA h.1
    have hpositive : (signed a : ℚ) = (signed a).natAbs := hcast.trans (if_neg hA)
    rw [if_pos hB, if_neg hA, if_pos hB, if_pos (by decide), if_neg hkept, hpositive,
      order_of_gt (by linarith)]
    rfl
  · have hkept : ¬ Reverses (signed a) u := fun h => hA h.1
    have hpositive : (signed a : ℚ) = (signed a).natAbs := hcast.trans (if_neg hA)
    rw [if_neg hB, if_neg hA, if_neg hB, if_neg (not_not.mpr rfl), if_neg hkept,
      hpositive, ← hsame]
    rfl

/-- The numbers that `js_compare_bigint` gets: a BigInt in heap form is in normal form. -/
def Numeric.WellFormed : Numeric → Prop
  | .bigInt a => Minimal a
  | _ => True

def Numeric.isBigInt : Numeric → Bool
  | .shortBigInt _ | .bigInt _ => true
  | _ => false

def Reversed : Numeric → Numeric → Prop
  | .float64 u, p | p, .float64 u => ∃ a, toBigIntBuf p = some a ∧ Reverses (signed a) u
  | _, _ => False

theorem test_order (op : CompareOp) {x y : Double} {q r : ℚ} (hx : x.value? = some q)
    (hy : y.value? = some r) : op.test (order q r) = op.relation x y := by
  have hlt := Double.less_of_values hx hy
  have hgt := Double.less_of_values hy hx
  have hle := Double.lessEq_of_values hx hy
  have hge := Double.lessEq_of_values hy hx
  rcases lt_trichotomy q r with h | rfl | h
  · rw [order_of_lt h]
    cases op <;> simp [CompareOp.test, CompareOp.relation, hlt, hgt, hle, hge, h, h.le]
  · cases op <;> simp [order, CompareOp.test, CompareOp.relation, hlt, hgt, hle, hge]
  · rw [order_of_gt h]
    cases op <;> simp [CompareOp.test, CompareOp.relation, hlt, hgt, hle, hge, h, h.le]

theorem relation_swap (op : CompareOp) (x y : Double) :
    op.swap.relation y x = op.relation x y := by
  cases op <;> first | rfl | exact Bool.and_comm _ _

theorem test_neg (op : CompareOp) (val : Int) : op.test (-val) = op.swap.test val := by
  cases op <;> simp [CompareOp.test, CompareOp.swap]

theorem toBigIntBuf_spec {p : Numeric} (hp : p.WellFormed) {a : JSBigInt}
    (ha : toBigIntBuf p = some a) : Minimal a ∧ p.value.value? = some (signed a : ℚ) := by
  cases p with
  | int v | shortBigInt v =>
    cases ha
    have hv : signed [v] = v.toInt := signed_concat [] v
    exact ⟨minimal_singleton v, (Double.value_ofInt _).trans (by rw [hv])⟩
  | bigInt b =>
    cases ha
    exact ⟨hp, Double.value_ofInt _⟩
  | float64 u => cases ha

theorem Reverses.ne {a : JSBigInt} (ha : Minimal a) {u : BitVec 64} {q : ℚ}
    (hq : (Binary64.toDouble u).value? = some q) (h : Reverses (signed a) u) :
    order q (signed a) ≠ 0 := by
  obtain ⟨hneg, hmsb, hfin, -, hne⟩ := h
  obtain ⟨hlog, hless, hgreater, -⟩ := magnitude_order ha hneg.ne u
  rw [Binary64.value_toDouble hfin, if_pos hmsb, Option.some.injEq] at hq
  have hcast : (signed a : ℚ) = -(signed a).natAbs := by
    rw [← Int.cast_natCast, Int.ofNat_natAbs_of_nonpos hneg.le]
    simp
  rw [← hq, hcast, order_neg]
  rcases lt_or_gt_of_ne (hlog ▸ hne) with h | h
  · rw [order_of_lt (hless h)]
    decide
  · rw [order_of_gt (hgreater h)]
    decide

theorem float64_exact_iff {p : Numeric} (hp : p.WellFormed) {a : JSBigInt}
    (ha : toBigIntBuf p = some a) (u : BitVec 64) :
    (∀ op : CompareOp, (if float64Cmp a u = 2 then false else op.test (float64Cmp a u)) =
      op.relation p.value (Binary64.toDouble u)) ↔ ¬ Reverses (signed a) u := by
  obtain ⟨hmin, hvalue⟩ := toBigIntBuf_spec hp ha
  by_cases hfin : Binary64.exponent u = 2047
  · refine iff_of_true ?_ fun h => h.2.2.1 hfin
    have hfraction : u &&& 0xfffffffffffff#64 = 0 ↔ Binary64.fraction u = 0 := by
      rw [← Binary64.masked_fraction]
      exact ⟨fun h => by rw [h]; rfl, fun h => BitVec.eq_of_toNat_eq h⟩
    have hcmp : float64Cmp a u = if Binary64.fraction u = 0 then
        2 * (if u.msb then 1 else 0) - 1 else 2 := by
      unfold float64Cmp
      simp only [signBit_toNat, Binary64.shifted_exponent, hfin, Nat.cast_ofNat, if_true,
        ne_eq, hfraction, ite_not]
    intro op
    rw [hcmp, Binary64.toDouble, if_pos hfin]
    by_cases h : Binary64.fraction u = 0
    · rw [if_pos h, if_pos h]
      cases hx : p.value with
      | nan | infinity s => rw [hx] at hvalue; cases hvalue
      | zero s | finite q hne => cases u.msb <;> cases op <;> rfl
    · rw [if_neg h, if_neg h, if_pos rfl]
      cases p.value <;> cases op <;> rfl
  · have hq := Binary64.value_toDouble hfin
    generalize (if u.msb then -Binary64.magnitude u else Binary64.magnitude u) = q at hq
    have hcmp := float64Cmp_finite hmin hq
    have htwo (x y : ℚ) : order x y ≠ 2 := by
      unfold order
      split
      · decide
      · split <;> decide
    by_cases hr : Reverses (signed a) u
    · refine iff_of_false (fun h => ?_) (not_not.mpr hr)
      have hne := hr.ne hmin hq
      have hlt := h .lt
      have hgt := h .gt
      rw [hcmp, if_pos hr, if_neg (htwo _ _), ← test_order _ hvalue hq, order_swap q] at hlt hgt
      simp only [CompareOp.test, decide_eq_decide] at hlt hgt
      omega
    · refine iff_of_true (fun op => ?_) hr
      rw [hcmp, if_neg hr, if_neg (htwo _ _), test_order op hvalue hq]

theorem compare_integers {p q : Numeric} (hp : p.WellFormed) (hq : q.WellFormed)
    {a b : JSBigInt} (ha : toBigIntBuf p = some a) (hb : toBigIntBuf q = some b)
    (op : CompareOp) : compareBigint op p q = some (op.relation p.value q.value) := by
  obtain ⟨hmina, hvaluea⟩ := toBigIntBuf_spec hp ha
  obtain ⟨hminb, hvalueb⟩ := toBigIntBuf_spec hq hb
  have hcmp : some (op.test (cmp a b)) = some (op.relation p.value q.value) := by
    rw [cmp_eq_order hmina hminb, test_order op hvaluea hvalueb]
  have hlimb (x : Limb) : signed [x] = x.toInt := signed_concat [] x
  have hshort (x y : Limb) : ((if x.toInt > y.toInt then 1 else 0) -
      (if x.toInt < y.toInt then 1 else 0) : Int) = order (signed [x]) (signed [y]) := by
    simp only [order, Int.cast_lt, hlimb]
    split <;> split <;> omega
  cases p <;> cases q <;> cases ha <;> cases hb <;> first
    | exact hcmp
    | exact congrArg some ((congrArg op.test (hshort _ _)).trans (test_order op hvaluea hvalueb))

theorem compare_float64 {p : Numeric} {a : JSBigInt} (ha : toBigIntBuf p = some a)
    (u : BitVec 64) (op : CompareOp) :
    compareBigint op p (.float64 u) =
      some (if float64Cmp a u = 2 then false else op.test (float64Cmp a u)) ∧
    compareBigint op (.float64 u) p =
      some (if float64Cmp a u = 2 then false else op.swap.test (float64Cmp a u)) := by
  rw [← test_neg]
  cases p <;> cases ha <;> simp only [compareBigint, toBigIntBuf, Option.bind_eq_bind,
    Option.bind_some, Option.pure_def] <;> constructor <;> split <;> rfl

/-- What holds of a pair that is compared exactly: the relations are the mathematical ones, one
of `<`, `==`, `>` holds and only one, and the others agree with them. -/
structure ComparedExactly (p q : Numeric) : Prop where
  exact : ∀ op : CompareOp, compareBigint op p q = some (op.relation p.value q.value)
  swapped : ∀ op : CompareOp, compareBigint op.swap q p = compareBigint op p q
  total : p.value ≠ .nan → q.value ≠ .nan → ∃ op ∈ [CompareOp.lt, .eq, .gt],
    compareBigint op p q = some true
  exclusive : ∀ op ∈ [CompareOp.lt, .eq, .gt], ∀ op' ∈ [CompareOp.lt, .eq, .gt],
    compareBigint op p q = some true → compareBigint op' p q = some true → op = op'
  lte : compareBigint .lte p q = some true ↔
    compareBigint .lt p q = some true ∨ compareBigint .eq p q = some true
  gte : compareBigint .gte p q = some true ↔
    compareBigint .gt p q = some true ∨ compareBigint .eq p q = some true

theorem relation_cases (x y : Double) :
    (x = .nan ∨ y = .nan) ∧ (∀ op : CompareOp, op.relation x y = false) ∨
    (x ≠ .nan ∧ y ≠ .nan) ∧ ∃ val : Int, (val = -1 ∨ val = 0 ∨ val = 1) ∧
      ∀ op : CompareOp, op.relation x y = op.test val := by
  by_cases hx : x = .nan
  · subst hx
    exact .inl ⟨.inl rfl, fun op => by cases y <;> cases op <;> rfl⟩
  by_cases hy : y = .nan
  · subst hy
    exact .inl ⟨.inr rfl, fun op => by cases x <;> cases op <;> rfl⟩
  have hle : x.lessEq y = !y.less x := by cases x <;> cases y <;> first | rfl | contradiction
  have hge : y.lessEq x = !x.less y := by cases x <;> cases y <;> first | rfl | contradiction
  have hasymm : ¬ (x.less y = true ∧ y.less x = true) := by
    cases x <;> cases y <;> simp_all [Double.less, le_of_lt]
  refine .inr ⟨⟨hx, hy⟩, if x.less y then -1 else if y.less x then 1 else 0, ?_, fun op => ?_⟩
  · cases x.less y <;> cases y.less x <;> decide
  · cases op <;> simp only [CompareOp.relation, hle, hge] <;>
      cases h : x.less y <;> cases h' : y.less x <;> simp_all [CompareOp.test]

theorem comparedExactly {p q : Numeric}
    (h : ∀ op : CompareOp, compareBigint op p q = some (op.relation p.value q.value))
    (h' : ∀ op : CompareOp, compareBigint op q p = some (op.relation q.value p.value)) :
    ComparedExactly p q := by
  have hswap (op : CompareOp) : compareBigint op.swap q p = compareBigint op p q := by
    rw [h, h', relation_swap]
  rcases relation_cases p.value q.value with ⟨hnan, hfalse⟩ | ⟨hne, val, hval, htest⟩
  · refine ⟨h, hswap, fun hp hq => (hnan.elim hp hq).elim, ?_, ?_, ?_⟩ <;> simp [h, hfalse]
  · refine ⟨h, hswap, fun _ _ => ?_, ?_, ?_, ?_⟩ <;> simp only [h, htest] <;>
      rcases hval with rfl | rfl | rfl <;> simp [CompareOp.test]

theorem float64_compared_iff {p : Numeric} (hp : p.WellFormed) {a : JSBigInt}
    (ha : toBigIntBuf p = some a) (u : BitVec 64) :
    (ComparedExactly p (.float64 u) ↔ ¬ Reverses (signed a) u) ∧
      (ComparedExactly (.float64 u) p ↔ ¬ Reverses (signed a) u) := by
  have hcompare := compare_float64 ha u
  have hiff := float64_exact_iff hp ha u
  have hboth (h : ¬ Reverses (signed a) u) (op : CompareOp) :
      compareBigint op p (.float64 u) = some (op.relation p.value (Binary64.toDouble u)) ∧
      compareBigint op (.float64 u) p = some (op.relation (Binary64.toDouble u) p.value) := by
    rw [(hcompare op).1, (hcompare op).2, hiff.mpr h op, hiff.mpr h op.swap]
    refine ⟨rfl, ?_⟩
    rw [← relation_swap op.swap]
    cases op <;> rfl
  constructor <;> refine ⟨fun hc => hiff.mp fun op => ?_, fun h => ?_⟩
  · exact Option.some.inj ((hcompare op).1.symm.trans (hc.exact op))
  · exact comparedExactly (fun op => (hboth h op).1) fun op => (hboth h op).2
  · have := (hc.swapped op.swap).trans (hc.exact op.swap)
    rw [relation_swap, show op.swap.swap = op by cases op <;> rfl, (hcompare op).1] at this
    exact Option.some.inj this
  · exact comparedExactly (fun op => (hboth h op).2) fun op => (hboth h op).1

/-- Comparisons with a BigInt: `js_bigint_cmp` is the order of the integers, and what
`js_compare_bigint` answers is the mathematical relation unless a negative BigInt meets a negative
double with another exponent. -/
theorem comparisons_exact_iff (a b : JSBigInt) (p q : Numeric) :
    (Minimal a → Minimal b → cmp a b = order (signed a) (signed b)) ∧
    (p.WellFormed → q.WellFormed → (p.isBigInt = true ∨ q.isBigInt = true) →
      (ComparedExactly p q ↔ ¬ Reversed p q)) := by
  refine ⟨cmp_eq_order, fun hp hq hbig => ?_⟩
  have hbuf {p : Numeric} (h : ∀ u, p ≠ .float64 u) : ∃ a, toBigIntBuf p = some a := by
    cases p with
    | float64 u => exact absurd rfl (h u)
    | _ => exact ⟨_, rfl⟩
  have hreversed {p : Numeric} {a : JSBigInt} (ha : toBigIntBuf p = some a) (u : BitVec 64) :
      (Reversed p (.float64 u) ↔ Reverses (signed a) u) ∧
      (Reversed (.float64 u) p ↔ Reverses (signed a) u) := by
    cases p <;> cases ha <;> simp [Reversed, toBigIntBuf]
  by_cases hpf : ∃ u, p = .float64 u
  · obtain ⟨u, rfl⟩ := hpf
    obtain ⟨b, hb⟩ := hbuf (p := q) fun u h => by subst h; simp [Numeric.isBigInt] at hbig
    rw [(hreversed hb u).2]
    exact (float64_compared_iff hq hb u).2
  · obtain ⟨a, ha⟩ := hbuf fun u h => hpf ⟨u, h⟩
    by_cases hqf : ∃ u, q = .float64 u
    · obtain ⟨u, rfl⟩ := hqf
      rw [(hreversed ha u).1]
      exact (float64_compared_iff hp ha u).1
    · obtain ⟨b, hb⟩ := hbuf fun u h => hqf ⟨u, h⟩
      refine iff_of_true (comparedExactly (compare_integers hp hq ha hb)
        (compare_integers hq hp hb ha)) ?_
      cases p <;> cases q <;> cases ha <;> cases hb <;> exact not_false

theorem comparisons_exact_at :
    cmp [1] [2] = order (signed ([1] : JSBigInt)) (signed ([2] : JSBigInt)) ∧
    ComparedExactly (.shortBigInt (-3)) (.float64 0xc008000000000000) :=
  have hboth := comparisons_exact_iff [1] [2] (.shortBigInt (-3)) (.float64 0xc008000000000000)
  ⟨hboth.1 (minimal_singleton 1) (minimal_singleton 2),
    (hboth.2 trivial trivial (.inl rfl)).mpr fun ⟨_, ha, h⟩ => by
      cases ha
      exact absurd h (by decide +kernel)⟩

/-- `-3n < -1.0` is answered `false`, and `-3n > -1.0` `true`. -/
theorem exponents_reverse_negatives :
    ¬ ∀ p q : Numeric, p.WellFormed → q.WellFormed → (p.isBigInt = true ∨ q.isBigInt = true) →
      ComparedExactly p q := by
  intro h
  have hp : toBigIntBuf (.shortBigInt (-3)) = some [-3] := rfl
  have hexact := (float64_compared_iff (p := .shortBigInt (-3)) trivial hp
    0xbff0000000000000).1.mp (h _ _ trivial trivial (.inl rfl))
  exact hexact (by decide +kernel)

end TurboJS.BigInt
