import Mathlib.Data.Nat.Bitwise

namespace TurboJS.Foundation

/-! Variable-length integers of 32 bits: seven bits a byte, lowest first, the high bit set on
every byte but the last; signed numbers with the sign folded into the lowest bit. -/

def putLeb128 (v : Nat) : List Nat :=
  let a := v &&& 0x7f
  if v >>> 7 = 0 then [a] else (a ||| 0x80) :: putLeb128 (v >>> 7)
termination_by v
decreasing_by
  rw [Nat.shiftRight_eq_div_pow] at *
  omega

/-- At most `n` more bytes are read, the next one at place `i`. -/
def getLeb128Loop : (n i v : Nat) → List Nat → Option (Nat × List Nat)
  | 0, _, _, _ => none
  | _ + 1, _, _, [] => none
  | n + 1, i, v, a :: rest =>
    let v := (v ||| ((a &&& 0x7f) <<< (i * 7))) % 2 ^ 32
    if a &&& 0x80 = 0 then some (v, rest) else getLeb128Loop n (i + 1) v rest

def getLeb128 : List Nat → Option (Nat × List Nat) := getLeb128Loop 5 0 0

def putSleb128 (v : BitVec 32) : List Nat := putLeb128 ((2#32 * v) ^^^ -(v >>> 31)).toNat

def getSleb128 (bytes : List Nat) : Option (ℤ × List Nat) :=
  (getLeb128 bytes).map fun (val, rest) =>
    let val := BitVec.ofNat 32 val
    (((val >>> 1) ^^^ -(val &&& 1#32)).toInt, rest)

theorem and_7f (v : Nat) : v &&& 0x7f = v % 128 := Nat.and_two_pow_sub_one_eq_mod v 7

theorem or_80 {a : Nat} (h : a < 128) : a ||| 0x80 = a + 128 := by
  rw [Nat.or_comm, Nat.add_comm]
  exact (Nat.two_pow_add_eq_or_of_lt (i := 7) h 1).symm

theorem and_80_of_lt {a : Nat} (h : a < 128) : a &&& 0x80 = 0 := by
  have hbit : a.testBit 7 = false := Nat.testBit_lt_two_pow h
  rw [show 0x80 = 2 ^ 7 from rfl, Nat.and_two_pow, hbit]
  rfl

theorem and_80_of_ge {a : Nat} (h : a < 128) : (a + 128) &&& 0x80 ≠ 0 := by
  have hbit : (a + 2 ^ 7).testBit 7 = true := by
    rw [Nat.testBit_eq_decide_div_mod_eq]
    simp only [decide_eq_true_eq]
    omega
  rw [show 0x80 = 2 ^ 7 from rfl, Nat.and_two_pow, hbit]
  decide

theorem or_shifted {acc i : Nat} (h : acc < 2 ^ (i * 7)) (x : Nat) :
    acc ||| (x <<< (i * 7)) = acc + x * 2 ^ (i * 7) := by
  rw [Nat.or_comm, Nat.shiftLeft_eq, Nat.mul_comm, Nat.add_comm]
  exact (Nat.two_pow_add_eq_or_of_lt h x).symm

theorem getLeb128Loop_put (n : Nat) : ∀ (i acc v : Nat) (rest : List Nat), acc < 2 ^ (i * 7) →
    v < 2 ^ (n * 7 + 7) → acc + v * 2 ^ (i * 7) < 2 ^ 32 →
    getLeb128Loop (n + 1) i acc (putLeb128 v ++ rest) = some (acc + v * 2 ^ (i * 7), rest) := by
  induction n with
  | zero =>
    intro i acc v rest hacc hv hfit
    have hv : v < 128 := hv
    rw [putLeb128, and_7f, if_pos (by rw [Nat.shiftRight_eq_div_pow]; omega), Nat.mod_eq_of_lt hv]
    simp only [List.cons_append, List.nil_append, getLeb128Loop, and_80_of_lt hv, if_true, and_7f,
      Nat.mod_eq_of_lt hv, or_shifted hacc, Nat.mod_eq_of_lt hfit]
  | succ n ih =>
    intro i acc v rest hacc hv hfit
    have hlow : v % 128 < 128 := Nat.mod_lt _ (by decide)
    have hpow : 2 ^ ((i + 1) * 7) = 128 * 2 ^ (i * 7) := by
      rw [Nat.add_mul, Nat.pow_add]
      omega
    have hsplit : v * 2 ^ (i * 7) = v % 128 * 2 ^ (i * 7) + v / 128 * 2 ^ ((i + 1) * 7) := by
      rw [hpow, ← Nat.mul_assoc, ← Nat.add_mul]
      congr 1
      omega
    have hread : (acc ||| (v % 128) <<< (i * 7)) % 2 ^ 32 = acc + v % 128 * 2 ^ (i * 7) := by
      rw [or_shifted hacc, Nat.mod_eq_of_lt (by omega)]
    rw [putLeb128, and_7f, Nat.shiftRight_eq_div_pow]
    split
    · next h =>
      have hv : v % 128 = v := Nat.mod_eq_of_lt (by omega)
      rw [hv] at hread hlow
      simp only [List.cons_append, List.nil_append, getLeb128Loop, and_7f, hv, hread,
        and_80_of_lt hlow, if_true]
    · have hbyte : (v % 128 ||| 0x80) &&& 0x7f = v % 128 := by
        rw [or_80 hlow, and_7f]
        omega
      have hmore : (v % 128 ||| 0x80) &&& 0x80 ≠ 0 := by
        rw [or_80 hlow]
        exact and_80_of_ge hlow
      have hnext := ih (i + 1) (acc + v % 128 * 2 ^ (i * 7)) (v / 128) rest
        (by
          have := Nat.mul_le_mul_right (2 ^ (i * 7)) (by omega : v % 128 ≤ 127)
          omega)
        (by
          rw [Nat.div_lt_iff_lt_mul (by decide)]
          have : 2 ^ ((n + 1) * 7 + 7) = 2 ^ (n * 7 + 7) * 128 := by
            rw [Nat.add_mul, Nat.add_right_comm, Nat.pow_add _ _ (1 * 7)]
          omega)
        (by omega)
      simp only [List.cons_append, getLeb128Loop, hbyte, hmore, if_false, hread]
      rw [hnext, Nat.add_assoc, ← hsplit]

theorem getLeb128_put {v : Nat} (h : v < 2 ^ 32) (rest : List Nat) :
    getLeb128 (putLeb128 v ++ rest) = some (v, rest) := by
  have := getLeb128Loop_put 4 0 0 v rest (by decide) (by omega) (by omega)
  simpa [getLeb128] using this

theorem unfold_sign (v : BitVec 32) :
    ((((2#32 * v) ^^^ -(v >>> 31)) >>> 1) ^^^ -(((2#32 * v) ^^^ -(v >>> 31)) &&& 1#32)) = v := by
  have hv := v.isLt
  have hlow (x : BitVec 32) : (x &&& 1#32).toNat = x.toNat % 2 := by
    rw [BitVec.toNat_and]
    exact Nat.and_two_pow_sub_one_eq_mod _ 1
  have hones : -(1#32) = BitVec.allOnes 32 := rfl
  have hshift : (v >>> 31).toNat = v.toNat / 2 ^ 31 := by
    rw [BitVec.toNat_ushiftRight, Nat.shiftRight_eq_div_pow]
  by_cases hneg : v.toNat < 2 ^ 31
  · have h0 : v >>> 31 = 0#32 := BitVec.eq_of_toNat_eq (by rw [hshift]; exact Nat.div_eq_of_lt hneg)
    have hbit : (2#32 * v) &&& 1#32 = 0#32 := BitVec.eq_of_toNat_eq (by rw [hlow]; simp)
    rw [h0, BitVec.neg_zero, BitVec.xor_zero, hbit, BitVec.neg_zero, BitVec.xor_zero]
    apply BitVec.eq_of_toNat_eq
    rw [BitVec.toNat_ushiftRight, Nat.shiftRight_eq_div_pow, BitVec.toNat_mul]
    simp only [BitVec.toNat_ofNat]
    omega
  · have h1 : v >>> 31 = 1#32 := BitVec.eq_of_toNat_eq (by rw [hshift, BitVec.toNat_ofNat]; omega)
    have hbit : ~~~(2#32 * v) &&& 1#32 = 1#32 := by
      apply BitVec.eq_of_toNat_eq
      rw [hlow, BitVec.toNat_not, BitVec.toNat_mul]
      simp only [BitVec.toNat_ofNat]
      omega
    rw [h1, hones, BitVec.xor_allOnes, hbit, hones, BitVec.xor_allOnes]
    apply BitVec.eq_of_toNat_eq
    rw [BitVec.toNat_not, BitVec.toNat_ushiftRight, Nat.shiftRight_eq_div_pow, BitVec.toNat_not,
      BitVec.toNat_mul]
    simp only [BitVec.toNat_ofNat]
    omega

theorem getSleb128_put (v : BitVec 32) (rest : List Nat) :
    getSleb128 (putSleb128 v ++ rest) = some (v.toInt, rest) := by
  rw [getSleb128, putSleb128, getLeb128_put (BitVec.isLt _)]
  simp only [Option.map_some, BitVec.ofNat_toNat, BitVec.setWidth_eq, unfold_sign]

end TurboJS.Foundation
