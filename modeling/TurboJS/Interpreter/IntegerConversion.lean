import TurboJS.Foundation.Binary64

namespace TurboJS.Interpreter

open Foundation Foundation.Binary64

/-! The conversions of a double, given by its 64 bits, to 32-bit and 64-bit integers. A cast out
of range and a shift by the width or more have no result. -/

def shiftLeft64 (v : BitVec 64) (n : ℤ) : Option (BitVec 64) :=
  if 0 ≤ n ∧ n < 64 then some (v <<< n.toNat) else none

def mantissa64 (u : BitVec 64) : BitVec 64 :=
  (u &&& ((1#64 <<< 52) - 1)) ||| (1#64 <<< 52)

def withSign {w : Nat} (u : BitVec 64) (ret : BitVec w) : ℤ :=
  if u >>> 63 ≠ 0 then
    if ret ≠ BitVec.intMin w then -ret.toInt else ret.toInt
  else ret.toInt

/-- The double branch of `JS_ToInt32Free`. -/
def toInt32Free (u : BitVec 64) : Option ℤ :=
  let e : ℤ := ((u >>> 52) &&& 0x7ff#64).toNat
  if e ≤ 1023 + 30 then
    -- fast case
    (toDouble u).castSigned 32
  else if e ≤ 1023 + 30 + 53 then
    -- remainder modulo 2^32
    (shiftLeft64 (mantissa64 u) ((e - 1023) - 52 + 32)).map fun (v : BitVec 64) =>
      withSign u ((v >>> 32).setWidth 32)
  else
    -- also handles NaN and infinities
    some 0

/-- The double branch of `JS_ToInt64Free`. -/
def toInt64Free (u : BitVec 64) : Option ℤ :=
  let e : ℤ := ((u >>> 52) &&& 0x7ff#64).toNat
  if e ≤ 1023 + 62 then
    (toDouble u).castSigned 64
  else if e ≤ 1023 + 62 + 53 then
    -- remainder modulo 2^64
    (shiftLeft64 (mantissa64 u) ((e - 1023) - 52)).map (withSign u)
  else some 0

/-- The double branch of `JS_ToInt32SatFree`. -/
def toInt32SatFree (d : Double) : Option ℤ :=
  if d = .nan then some 0
  else if d.less (.ofInt (-2 ^ 31)) then some (-2 ^ 31)
  else if (Double.ofInt (2 ^ 31 - 1)).less d then some (2 ^ 31 - 1)
  else d.castSigned 32

/-- The double branch of `JS_ToInt64SatFree`; the upper bound is compared as a power of two. -/
def toInt64SatFree (d : Double) : Option ℤ :=
  if d = .nan then some 0
  else if d.less (.ofInt (-2 ^ 63)) then some (-2 ^ 63)
  else if (Double.ofInt (2 ^ 63)).lessEq d then some (2 ^ 63 - 1)
  else d.castSigned 64

def saturated (w : Nat) : Double → ℤ
  | .nan => 0
  | .infinity s => if s then -2 ^ (w - 1) else 2 ^ (w - 1) - 1
  | d => max (-2 ^ (w - 1)) (min (2 ^ (w - 1) - 1) d.integerPart)

theorem mantissa64_toNat {u : BitVec 64} (h : exponent u ≠ 0) :
    (mantissa64 u).toNat = significand u := masked_significand h

theorem shiftLeft64_of_lt (v : BitVec 64) {n : Nat} (h : n < 64) :
    shiftLeft64 v n = some (v <<< n) := if_pos ⟨by omega, by omega⟩

theorem withSign_ofNat (w : Nat) (u : BitVec 64) (n : Nat) :
    withSign u (BitVec.ofNat w n) = (if u.msb then -(n : ℤ) else n).bmod (2 ^ w) := by
  have hsign : u >>> 63 ≠ 0 ↔ u.msb := by
    rw [BitVec.msb_eq_decide, decide_eq_true_iff, ne_eq, ← BitVec.toNat_inj,
      BitVec.toNat_ushiftRight, Nat.shiftRight_eq_div_pow]
    have := u.isLt
    simp only [BitVec.ofNat_eq_ofNat, BitVec.toNat_ofNat, Nat.zero_mod]
    omega
  have hneg : -(BitVec.ofNat w n) = BitVec.ofInt w (-(n : ℤ)) := by
    rw [BitVec.ofInt_neg]
    rfl
  unfold withSign
  simp only [hsign]
  split
  · rw [← BitVec.toInt_ofInt, ← hneg]
    split
    · next hmin => exact (BitVec.toInt_neg_of_ne_intMin hmin).symm
    · next hmin => rw [not_not.mp hmin, BitVec.neg_intMin]
  · exact BitVec.toInt_ofNat ..

theorem bmod_of_fits {w : Nat} (hw : 0 < w) {t : ℤ} (hlo : -2 ^ (w - 1) ≤ t)
    (hhi : t < 2 ^ (w - 1)) : t.bmod (2 ^ w) = t := by
  have hpow : (2 : ℤ) ^ w = 2 * 2 ^ (w - 1) := by
    rw [← pow_succ', Nat.sub_add_cancel hw]
  apply Int.bmod_eq_of_le <;> push_cast <;> omega

theorem shifted_word {u : BitVec 64} {s k : Nat} (h0 : exponent u ≠ 0)
    (h : exponent u + k = 1075 + s) (hk : k ≤ 32) (hs : s < 64) :
    ((mantissa64 u <<< s) >>> k).setWidth (64 - k) = BitVec.ofNat (64 - k) (wholePart u) := by
  apply BitVec.eq_of_toNat_eq
  have hsplit : 2 ^ 64 = 2 ^ k * 2 ^ (64 - k) := by
    rw [← Nat.pow_add]
    exact congrArg (2 ^ ·) (by omega : 64 = k + (64 - k))
  have hshift : exponent u + k - 1075 = s := by omega
  rw [BitVec.toNat_setWidth, BitVec.toNat_ushiftRight, BitVec.toNat_shiftLeft, BitVec.toNat_ofNat,
    mantissa64_toNat h0, Nat.shiftLeft_eq, Nat.shiftRight_eq_div_pow, hsplit,
    Nat.mod_mul_right_div_self, Nat.mod_mod, ← wholePart_shifted h0 (s := k) (by omega), hshift]

theorem signed_integerPart {u : BitVec 64} (h : exponent u ≠ 2047) :
    (if u.msb then -(wholePart u : ℤ) else wholePart u) = (toDouble u).integerPart :=
  (integerPart_finite h).symm

theorem integerPart_fits {u : BitVec 64} {k : Nat} (h : exponent u ≤ 1022 + k)
    (hfin : exponent u ≠ 2047) :
    -2 ^ k < (toDouble u).integerPart ∧ (toDouble u).integerPart < 2 ^ k := by
  have hlt : (wholePart u : ℤ) < 2 ^ k := by exact_mod_cast wholePart_lt h
  have hpos : (0 : ℤ) < 2 ^ k := by positivity
  rw [← signed_integerPart hfin]
  split <;> omega

theorem castSigned_small {u : BitVec 64} {w : Nat} (hw : 0 < w) (h : exponent u ≤ 1021 + w)
    (hfin : exponent u ≠ 2047) :
    (toDouble u).castSigned w = some ((toDouble u).integerPart.bmod (2 ^ w)) := by
  obtain ⟨hlo, hhi⟩ := integerPart_fits (k := w - 1) (by omega) hfin
  have hv := value_toDouble hfin
  have hpart : (toDouble u).integerPart =
      Double.truncate (if u.msb then -magnitude u else magnitude u) := by
    rw [Double.integerPart, hv]
    rfl
  rw [bmod_of_fits hw hlo.le hhi, hpart]
  rw [hpart] at hlo hhi
  exact Double.castSigned_of_fits hv hlo.le hhi

theorem bmod_large {u : BitVec 64} {w : Nat} (h : 1075 + w ≤ exponent u) :
    (toDouble u).integerPart.bmod (2 ^ w) = 0 := by
  by_cases hfin : exponent u = 2047
  · rw [integerPart_not_finite hfin]
    exact Int.zero_bmod
  · obtain ⟨n, hn⟩ := wholePart_dvd (k := w) h
    rw [← signed_integerPart hfin, hn]
    apply Int.bmod_eq_zero_of_dvd
    push_cast
    split
    · exact Dvd.intro (-(n : ℤ)) (by ring)
    · exact Dvd.intro (n : ℤ) rfl

theorem toInt32Free_modular (u : BitVec 64) :
    toInt32Free u = some ((toDouble u).integerPart.bmod (2 ^ 32)) := by
  simp only [toInt32Free, shifted_exponent]
  split
  · exact castSigned_small (by decide) (by omega) (by omega)
  · split
    · have hword := shifted_word (u := u) (s := exponent u - 1043) (k := 32) (by omega) (by omega)
        (by decide) (by omega)
      have hcount : ((exponent u : ℤ) - 1023) - 52 + 32 = (exponent u - 1043 : Nat) := by omega
      rw [hcount, shiftLeft64_of_lt _ (by omega), Option.map_some, hword, withSign_ofNat,
        signed_integerPart (by omega)]
    · rw [bmod_large (by omega)]

theorem toInt64Free_modular (u : BitVec 64) :
    toInt64Free u = some ((toDouble u).integerPart.bmod (2 ^ 64)) := by
  simp only [toInt64Free, shifted_exponent]
  split
  · exact castSigned_small (by decide) (by omega) (by omega)
  · split
    · have hword := shifted_word (u := u) (s := exponent u - 1075) (k := 0) (by omega) (by omega)
        (by decide) (by omega)
      have hcount : ((exponent u : ℤ) - 1023) - 52 = (exponent u - 1075 : Nat) := by omega
      rw [BitVec.ushiftRight_zero, BitVec.setWidth_eq] at hword
      rw [hcount, shiftLeft64_of_lt _ (by omega), Option.map_some, hword, withSign_ofNat,
        signed_integerPart (by omega)]
    · rw [bmod_large (by omega)]

theorem saturated_of_value {w : Nat} {d : Double} {q : ℚ} (h : d.value? = some q) :
    saturated w d = max (-2 ^ (w - 1)) (min (2 ^ (w - 1) - 1) (Double.truncate q)) := by
  cases d with
  | nan | infinity => cases h
  | zero | finite =>
    obtain rfl := Option.some.inj h
    rfl

theorem double_cases (d : Double) : d = .nan ∨ (∃ s, d = .infinity s) ∨ ∃ q, d.value? = some q := by
  cases d with
  | nan => exact .inl rfl
  | infinity s => exact .inr (.inl ⟨s, rfl⟩)
  | zero | finite => exact .inr (.inr ⟨_, rfl⟩)

theorem toInt32SatFree_saturated (d : Double) : toInt32SatFree d = some (saturated 32 d) := by
  rcases double_cases d with rfl | ⟨s, rfl⟩ | ⟨q, hq⟩
  · rfl
  · cases s <;> rfl
  · have hnan : d ≠ .nan := by rintro rfl; cases hq
    rw [toInt32SatFree, if_neg hnan, Double.less_of_values hq (Double.value_ofInt _),
      Double.less_of_values (Double.value_ofInt _) hq, saturated_of_value hq]
    simp only [decide_eq_true_eq]
    split
    · next h =>
      have := Double.truncate_le_intCast h.le
      congr 1
      omega
    · next hlo =>
      have hlo := Double.intCast_le_truncate (not_lt.mp hlo)
      split
      · next h =>
        have := Double.intCast_le_truncate h.le
        congr 1
        omega
      · next hhi =>
        have hhi := Double.truncate_le_intCast (not_lt.mp hhi)
        rw [Double.castSigned_of_fits hq (by omega) (by omega)]
        congr 1
        omega

theorem toInt64SatFree_saturated (d : Double) : toInt64SatFree d = some (saturated 64 d) := by
  rcases double_cases d with rfl | ⟨s, rfl⟩ | ⟨q, hq⟩
  · rfl
  · cases s <;> rfl
  · have hnan : d ≠ .nan := by rintro rfl; cases hq
    rw [toInt64SatFree, if_neg hnan, Double.less_of_values hq (Double.value_ofInt _),
      Double.lessEq_of_values (Double.value_ofInt _) hq, saturated_of_value hq]
    simp only [decide_eq_true_eq]
    split
    · next h =>
      have := Double.truncate_le_intCast h.le
      congr 1
      omega
    · next hlo =>
      have hlo := Double.intCast_le_truncate (not_lt.mp hlo)
      split
      · next h =>
        have := Double.intCast_le_truncate h
        congr 1
        omega
      · next hhi =>
        have hhi := Double.truncate_lt (by decide) (not_le.mp hhi)
        rw [Double.castSigned_of_fits hq (by omega) (by omega)]
        congr 1
        omega

theorem representative_iff {w : Nat} (hw : 0 < w) (t r : ℤ) :
    r = t.bmod (2 ^ w) ↔ -2 ^ (w - 1) ≤ r ∧ r < 2 ^ (w - 1) ∧ r % 2 ^ w = t % 2 ^ w := by
  have hpow : (2 : ℤ) ^ w = 2 * 2 ^ (w - 1) := by
    rw [← pow_succ', Nat.sub_add_cancel hw]
  have hpos : 0 < 2 ^ w := by positivity
  constructor
  · rintro rfl
    have hlo := Int.le_bmod (x := t) hpos
    have hhi := Int.bmod_lt (x := t) hpos
    have hmod := Int.bmod_emod (x := t) (m := 2 ^ w)
    push_cast at hlo hhi hmod
    exact ⟨by omega, by omega, hmod⟩
  · rintro ⟨hlo, hhi, hmod⟩
    rw [← bmod_of_fits hw hlo hhi, ← Int.emod_bmod r, ← Int.emod_bmod t]
    push_cast
    rw [hmod]

/-- For every pattern the conversions are defined: no cast is out of range and no shift by the
width or more. They give the residue of the integer part, or the integer part held in range. -/
theorem double_conversions (u : BitVec 64) :
    (∃ r, toInt32Free u = some r ∧ ∀ r', r' = r ↔
      -2 ^ 31 ≤ r' ∧ r' < 2 ^ 31 ∧ r' % 2 ^ 32 = (toDouble u).integerPart % 2 ^ 32) ∧
    (∃ r, toInt64Free u = some r ∧ ∀ r', r' = r ↔
      -2 ^ 63 ≤ r' ∧ r' < 2 ^ 63 ∧ r' % 2 ^ 64 = (toDouble u).integerPart % 2 ^ 64) ∧
    toInt32SatFree (toDouble u) = some (saturated 32 (toDouble u)) ∧
    toInt64SatFree (toDouble u) = some (saturated 64 (toDouble u)) :=
  ⟨⟨_, toInt32Free_modular u, representative_iff (by decide) _⟩,
    ⟨_, toInt64Free_modular u, representative_iff (by decide) _⟩,
    toInt32SatFree_saturated _, toInt64SatFree_saturated _⟩

end TurboJS.Interpreter
