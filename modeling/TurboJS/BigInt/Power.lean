import TurboJS.BigInt.Shift

namespace TurboJS.BigInt

open Foundation

def TooLong (v : Int) : Prop := ∀ l : JSBigInt, l ≠ [] → signed l = v → maxSize < l.length

theorem tooLong_of_not_fits {v : Int} (h : ¬ FitsIn 32 maxSize v) : TooLong v := by
  intro l hl he
  by_contra hc
  apply h
  rw [← he]
  exact (fitsIn_signed (by decide) hl).mono (Nat.le_of_not_lt hc)

theorem tooLong_of_bits {v : Int} {k : Nat} (hk : 32 * maxSize < k) (hv : 2 ^ k ≤ |v|) :
    TooLong v := by
  apply tooLong_of_not_fits
  rintro ⟨h1, h2⟩
  have hpow : (2 : Int) ^ (32 * maxSize) < 2 ^ k := pow_lt_pow_right₀ (by decide) hk
  rcases abs_cases v with ⟨he, -⟩ | ⟨he, -⟩
  · rw [he] at hv
    have hpos : (0 : Int) < 2 ^ k := by positivity
    omega
  · rw [he] at hv
    have hpos : (0 : Int) < 2 ^ k := by positivity
    omega

/-- The result is the integer `v` in normal form, or `v` is too long. -/
def YieldsOrLong (x : BigIntM JSBigInt) (v : Int) : Prop :=
  Outcome x (fun r => Minimal r ∧ signed r = v) (TooLong v)

theorem Outcome.weaken {α : Type} {x : BigIntM α} {P : α → Prop} {T : Prop}
    (h : Outcome x P False) : Outcome x P T := by
  intro s
  have hs := h s
  split at hs
  · exact hs
  · rename_i e _
    cases e with
    | tooLarge => exact hs.elim
    | _ => exact hs

theorem powStep_yields {a r : JSBigInt} (ha : a ≠ []) (hr : r ≠ []) (bit : Bool) :
    Yields (powStep a r bit) (signed r * signed r * if bit then signed a else 1) := by
  refine Outcome.bind (mul_yields hr hr) fun r' hr' => ?_
  rw [← hr'.2]
  cases bit with
  | true => exact mul_yields hr'.1.1 ha
  | false => exact .pure ⟨hr'.1, by simp⟩

theorem powLoop_yields {a : JSBigInt} (ha : a ≠ []) (e : Limb) (i : Nat) :
    ∀ {r : JSBigInt}, Minimal r → signed r = signed a ^ (e.toNat / 2 ^ i) →
      Yields (powLoop a e i r) (signed a ^ e.toNat) := by
  induction i with
  | zero =>
    intro r hr hv
    rw [pow_zero, Nat.div_one] at hv
    exact .pure ⟨hr, hv⟩
  | succ i ih =>
    intro r hr hv
    refine Outcome.bind (powStep_yields ha hr.1 (e.getLsbD i)) fun r' hr' => ?_
    apply ih hr'.1
    -- The exponent so far is doubled, and the next bit is added.
    have hdiv : e.toNat / 2 ^ i = e.toNat / 2 ^ (i + 1) + e.toNat / 2 ^ (i + 1) +
        (e.getLsbD i).toNat := by
      rw [BitVec.getLsbD, Nat.toNat_testBit, pow_succ, ← Nat.div_div_eq_div_mul]
      omega
    rw [hr'.2, hv, hdiv]
    generalize e.toNat / 2 ^ (i + 1) = q
    cases e.getLsbD i with
    | true =>
      rw [if_pos rfl, Bool.toNat_true]
      ring
    | false =>
      rw [if_neg (by decide), Bool.toNat_false]
      ring

theorem limbClz_eq {e : Limb} (he : e ≠ 0) : 31 - limbClz e = Nat.log2 e.toNat ∧
    32 - limbClz e = Nat.log2 e.toNat + 1 := by
  have hne : e.toNat ≠ 0 := fun h => he (BitVec.eq_of_toNat_eq h)
  have hlt : Nat.log2 e.toNat < 32 := (Nat.log2_lt hne).mpr e.isLt
  rw [limbClz, if_neg he]
  omega

theorem exponent_cases {b : JSBigInt} (hb : Minimal b) (hpos : 0 ≤ signed b) (hne : b ≠ [0]) :
    (exponentTooLarge b = true ∧ 2 ^ 31 ≤ (signed b).toNat) ∨
    ∃ x : Limb, b = [x] ∧ exponentTooLarge b = false ∧ x ≠ 0 ∧ (signed b).toNat = x.toNat := by
  rcases hb.cases (by decide) with ⟨x, rfl⟩ | ⟨l, u, v, rfl, hs⟩
  · right
    have hx : signed [x] = x.toInt := signed_concat [] x
    rw [hx] at hpos ⊢
    have hx0 : x ≠ 0 := fun h => hne (by rw [h])
    have hint := BitVec.toInt_eq_toNat_cond x
    have hlt := x.isLt
    refine ⟨x, rfl, ?_, hx0, ?_⟩
    · simp only [exponentTooLarge, List.length_singleton, List.headD_cons, Bool.or_eq_false_iff,
        decide_eq_false_iff_not, gt_iff_lt, BitVec.lt_def]
      refine ⟨by decide, ?_⟩
      rw [show (0x7fffffff : Limb).toNat = 2 ^ 31 - 1 from rfl]
      split at hint <;> omega
    · split at hint <;> omega
  · left
    refine ⟨by simp [exponentTooLarge], ?_⟩
    by_contra hc
    -- A small exponent would have a single limb.
    have hfit : FitsIn 32 1 (signed (l ++ [u, v])) := by
      constructor <;> omega
    rw [show l ++ [u, v] = (l ++ [u]) ++ [v] by simp, signed_concat, join_append] at hfit
    have hfit := hfit.mono (show 1 ≤ l.length + 1 by omega)
    exact hs ((signLimb_iff_fits u v).mpr ((fitsIn_join (by decide)).mp hfit))

theorem two_le_abs {a : JSBigInt} (ha : Minimal a) (h0 : a ≠ [0]) (h1 : a ≠ [1]) (h2 : a ≠ [-1]) :
    2 ≤ |signed a| := by
  by_contra hc
  have hsmall : signed a = 0 ∨ signed a = 1 ∨ signed a = -1 := by
    have := abs_lt.mp (lt_of_not_ge hc)
    omega
  have hone : ∀ x : Limb, signed a = x.toInt → a = [x] := by
    intro x hx
    have hlen := ha.2 [x] (by simp) ((signed_concat [] x).trans hx.symm)
    rcases ha.cases (by decide) with ⟨y, rfl⟩ | ⟨l, u, v, rfl, -⟩
    · have hy : y.toInt = x.toInt := (signed_concat [] y).symm.trans hx
      rw [BitVec.toInt_inj.mp hy]
    · simp at hlen
  rcases hsmall with h | h | h
  · exact h0 (hone 0 h)
  · exact h1 (hone 1 h)
  · exact h2 (hone (-1) h)

theorem powGeneral_yields {a b : JSBigInt} (ha : Minimal a) (hb : Minimal b) (hpos : 0 ≤ signed b)
    (hne : b ≠ [0]) (h2 : 2 ≤ |signed a|) :
    YieldsOrLong (powGeneral a b) (signed a ^ (signed b).toNat) := by
  rw [powGeneral]
  rcases exponent_cases hb hpos hne with ⟨hlarge, hexp⟩ | ⟨x, rfl, hlarge, hx, hexp⟩
  · rw [if_pos hlarge]
    apply Outcome.raise
    intro s
    apply tooLong_of_bits (k := (signed b).toNat)
    · have : 32 * maxSize < 2 ^ 31 := by decide
      omega
    · rw [abs_pow]
      exact pow_le_pow_left₀ (by decide) h2 _
  · rw [if_neg (by rw [hlarge]; decide), hexp]
    refine Outcome.bind (allocate_outcome _) fun _ _ => ?_
    rw [List.headD_cons, (limbClz_eq hx).2, Nat.add_sub_cancel]
    apply Outcome.weaken
    apply powLoop_yields ha.1 x _ ha
    have hne : x.toNat ≠ 0 := fun h => hx (BitVec.eq_of_toNat_eq h)
    have hone : x.toNat / 2 ^ Nat.log2 x.toNat = 1 := by
      apply Nat.div_eq_of_lt_le
      · rw [Nat.one_mul]
        exact Nat.log2_self_le hne
      · rw [← pow_succ']
        exact Nat.lt_log2_self
    rw [hone, pow_one]

theorem topLimb_eq (isNeg : Bool) {r : Nat} (hr : r < 32) (hodd : isNeg = true ∨ r < 31) :
    ((if isNeg then -1 else 1 : Limb) <<< r).toInt = (if isNeg then -1 else 1) * 2 ^ r := by
  have hneg : ∀ r : Fin 32, ((-1 : Limb) <<< r.val).toInt = -1 * 2 ^ r.val := by decide
  have hpos : ∀ r : Fin 31, ((1 : Limb) <<< r.val).toInt = 1 * 2 ^ r.val := by decide
  cases isNeg with
  | true => exact hneg ⟨r, hr⟩
  | false => exact hpos ⟨r, hodd.resolve_left (by decide)⟩

theorem powTwo_limbs (isNeg : Bool) (e : Nat) :
    let r := (List.replicate ((e + 32 + 1 - isNeg.toNat) / 32) (0 : Limb)).set (e / 32)
      ((if isNeg then -1 else 1 : Limb) <<< (e % 32))
    Minimal r ∧ signed r = (if isNeg then -1 else 1) * 2 ^ e := by
  have hpow : (2 : Int) ^ e = 2 ^ (32 * (e / 32)) * 2 ^ (e % 32) := by
    rw [← pow_add, Nat.div_add_mod]
  have hset : ∀ (l : List Limb) (x : Limb),
      (List.replicate (e / 32) (0 : Limb) ++ 0 :: l).set (e / 32) x =
        List.replicate (e / 32) 0 ++ x :: l := by
    intro l x
    rw [List.set_append_right _ _ (by simp)]
    simp
  by_cases hodd : isNeg = true ∨ e % 32 < 31
  · have hlen : (e + 32 + 1 - isNeg.toNat) / 32 = e / 32 + 1 := by
      cases isNeg with
      | true => simp only [Bool.toNat_true]; omega
      | false =>
        have := hodd.resolve_left (by decide)
        simp only [Bool.toNat_false]
        omega
    have hx := topLimb_eq isNeg (Nat.mod_lt e (by decide)) hodd
    simp only [hlen, List.replicate_succ', hset]
    generalize (if isNeg then -1 else 1 : Limb) <<< (e % 32) = x at hx ⊢
    have hne : ([x] : JSBigInt) ≠ [0] := by
      intro h0
      rw [(List.cons.inj h0).1] at hx
      have hpos : (0 : Int) < 2 ^ (e % 32) := by positivity
      have hzero : (0 : Limb).toInt = 0 := rfl
      rw [hzero] at hx
      cases isNeg with
      | true => rw [if_pos rfl] at hx; omega
      | false => rw [if_neg (by decide)] at hx; omega
    refine ⟨minimal_shifted (minimal_singleton x) hne _, ?_⟩
    rw [signed_zeros (by simp), show signed [x] = x.toInt from signed_concat [] x, hx, hpow]
    ring
  · have hneg : isNeg = false := Bool.eq_false_iff.mpr fun h => hodd (.inl h)
    have hr : e % 32 = 31 := by
      have := fun h => hodd (.inr h)
      omega
    subst hneg
    have hlen : (e + 32 + 1 - false.toNat) / 32 = e / 32 + 1 + 1 := by
      simp only [Bool.toNat_false]
      omega
    have htwo : List.replicate (e / 32 + 1 + 1) (0 : Limb) =
        List.replicate (e / 32) 0 ++ [0, 0] := by
      rw [List.replicate_succ', List.replicate_succ', List.append_assoc]
      rfl
    simp only [hlen, htwo, hset, hr]
    have hsign : ¬ SignLimb (0 : Limb) ((1 : Limb) <<< 31) := by decide
    have htop : signed [(1 : Limb) <<< 31, 0] = 1 * 2 ^ 31 := by decide
    refine ⟨(minimal_concat_iff (by decide)).mpr hsign, ?_⟩
    rw [signed_zeros (by simp), if_neg (by decide), if_neg (by decide), htop, hpow, hr]
    ring

theorem powTwo_yields {a b : JSBigInt} {v : Limb} {isNeg : Bool} (hb : Minimal b)
    (hpos : 0 ≤ signed b) (hne : b ≠ [0]) (h2 : 2 ≤ |signed a|) (hv : v &&& (v - 1) = 0)
    (ha : signed a = (if isNeg then -1 else 1) * (v.toNat : Int)) :
    YieldsOrLong (powTwo v isNeg b) (signed a ^ (signed b).toNat) := by
  have hv0 : v ≠ 0 := by
    rintro rfl
    rw [ha, show (0 : Limb).toNat = 0 from rfl, Nat.cast_zero, mul_zero, abs_zero] at h2
    omega
  -- The base is two to the number of bits below its highest one.
  have hbase : v.toNat = 2 ^ Nat.log2 v.toNat := by
    have hne : v.toNat ≠ 0 := fun h => hv0 (BitVec.eq_of_toNat_eq h)
    have hlt := v.isLt
    have hand : v.toNat &&& (v.toNat - 1) = 0 := by
      have h := congrArg BitVec.toNat hv
      rw [BitVec.toNat_and, BitVec.toNat_sub_of_le (by
        rw [BitVec.le_def, show (1 : Limb).toNat = 1 from rfl]; omega)] at h
      exact h
    obtain ⟨k, hk⟩ := (Nat.and_sub_one_eq_zero_iff_isPowerOfTwo hne).mp hand
    rw [hk, Nat.log2_two_pow]
  rw [powTwo, (limbClz_eq hv0).1]
  generalize Nat.log2 v.toNat = n at hbase
  have habs : |signed a| = 2 ^ n := by
    rw [ha, abs_mul, hbase]
    cases isNeg <;> simp
  rcases exponent_cases hb hpos hne with ⟨hlarge, hexp⟩ | ⟨x, rfl, hlarge, hx, hexp⟩
  · rw [if_pos hlarge]
    apply Outcome.raise
    intro s
    apply tooLong_of_bits (k := (signed b).toNat)
    · have : 32 * maxSize < 2 ^ 31 := by decide
      omega
    · rw [abs_pow]
      exact pow_le_pow_left₀ (by decide) h2 _
  · rw [if_neg (by rw [hlarge]; decide), hexp, List.headD_cons]
    dsimp only
    split
    · rename_i hlong
      apply Outcome.raise
      intro s
      apply tooLong_of_bits (k := x.toNat * n)
      · omega
      · rw [abs_pow, habs, ← pow_mul, Nat.mul_comm]
    · refine Outcome.bind (allocate_outcome _) fun _ _ => .pure ?_
      obtain ⟨hmin, hval⟩ := powTwo_limbs (isNeg && x.getLsbD 0) (x.toNat * n)
      refine ⟨hmin, hval.trans ?_⟩
      rw [ha, hbase, mul_pow, Nat.cast_pow, ← pow_mul, Nat.mul_comm n]
      congr 1
      -- The sign is left when the exponent is odd.
      have hbit : x.getLsbD 0 = decide (x.toNat % 2 = 1) := by
        rw [BitVec.getLsbD, Nat.testBit_zero]
      cases isNeg with
      | false => simp
      | true =>
        rw [hbit]
        rcases Nat.even_or_odd x.toNat with he | ho
        · simp [Nat.even_iff.mp he, he.neg_one_pow]
        · simp [Nat.odd_iff.mp ho, ho.neg_one_pow]

theorem sign_of_nonneg {b : JSBigInt} (hb : b ≠ []) (hpos : 0 ≤ signed b) : sign b = 0 := by
  have hpart := sign_ne_zero hb
  by_contra hne
  rw [if_pos hne] at hpart
  have hlt : (magnitude b : Int) < 2 ^ (32 * b.length) := by exact_mod_cast magnitude_lt b
  rw [signed, join_eq, hpart] at hpos
  omega

theorem lowest_parity {b : JSBigInt} (hb : b ≠ []) :
    (b.headD 0 &&& 1 = 0 ∧ signed b % 2 = 0) ∨ (b.headD 0 &&& 1 = 1 ∧ signed b % 2 = 1) := by
  obtain ⟨x, l, rfl⟩ := List.exists_cons_of_ne_nil hb
  have hmod : signed (x :: l) % 2 = x.toNat % 2 := by
    rw [signed, join, show (2 : Int) ^ 32 = 2 * 2 ^ 31 from rfl, Int.mul_assoc,
      Int.add_mul_emod_self_left]
  have hand : (x &&& 1).toNat = x.toNat % 2 := by
    rw [BitVec.toNat_and, show (1 : Limb).toNat = 1 from rfl, Nat.and_one_is_mod]
  rw [hmod, List.headD_cons]
  rcases Nat.mod_two_eq_zero_or_one x.toNat with h | h
  · exact .inl ⟨BitVec.eq_of_toNat_eq (hand.trans h), by exact_mod_cast h⟩
  · exact .inr ⟨BitVec.eq_of_toNat_eq (hand.trans h), by exact_mod_cast h⟩

theorem limb_abs (v : Limb) :
    v.toInt = (if v.slt 0 then -1 else 1) * ((if v.slt 0 then -v else v).toNat : Int) := by
  have hlt := v.isLt
  have hint := BitVec.toInt_eq_toNat_cond v
  have hzero : (0 : Limb).toInt = 0 := rfl
  cases hs : v.slt 0 with
  | true =>
    have hneg : v.toInt < 0 := by
      rw [BitVec.slt_iff_toInt_lt, hzero] at hs
      exact hs
    rw [if_pos rfl, if_pos rfl, BitVec.toNat_neg]
    split at hint <;> omega
  | false =>
    have hpos : ¬ v.toInt < 0 := by
      intro h
      rw [← hzero, ← BitVec.slt_iff_toInt_lt, hs] at h
      cases h
    rw [if_neg (by decide), if_neg (by decide)]
    split at hint <;> omega

theorem pow_yields {a b : JSBigInt} (ha : Minimal a) (hb : Minimal b) (hpos : 0 ≤ signed b) :
    YieldsOrLong (pow a b) (signed a ^ (signed b).toNat) := by
  have hsmall : ∀ {x : Limb} {v : Int}, x.toInt = v → YieldsOrLong (newSi x) v := by
    intro x v hx
    rw [← hx]
    exact (newSi_yields x).weaken
  have hsingle : ∀ x : Limb, signed [x] = x.toInt := signed_concat []
  rw [pow, if_neg (by rw [sign_of_nonneg hb.1 hpos]; decide)]
  split
  · rename_i hzero
    subst hzero
    apply hsmall
    rw [show (signed ([0] : JSBigInt)).toNat = 0 from rfl, pow_zero]
    rfl
  · rename_i hne
    have hexp : (signed b).toNat ≠ 0 := by
      intro h0
      have hb0 : signed b = 0 := by omega
      rcases exponent_cases hb hpos hne with ⟨-, h⟩ | ⟨x, rfl, -, hx, h⟩
      · omega
      · exact hx (BitVec.eq_of_toNat_eq (by rw [← h, h0]; rfl))
    split
    · rename_i hlen
      obtain ⟨v, rfl⟩ := List.length_eq_one_iff.mp hlen
      rw [List.headD_cons]
      dsimp only
      split
      · rename_i hle
        have hcases : v = 0 ∨ v = 1 := by
          rw [BitVec.le_def, show (1 : Limb).toNat = 1 from rfl] at hle
          rcases Nat.le_one_iff_eq_zero_or_eq_one.mp hle with h | h
          · exact .inl (BitVec.eq_of_toNat_eq h)
          · exact .inr (BitVec.eq_of_toNat_eq h)
        apply hsmall
        rw [hsingle]
        rcases hcases with rfl | rfl
        · rw [show (0 : Limb).toInt = 0 from rfl, zero_pow hexp]
        · rw [show (1 : Limb).toInt = 1 from rfl, one_pow]
      · rename_i hbig
        split
        · rename_i hm
          subst hm
          apply hsmall
          rw [hsingle, show (-1 : Limb).toInt = -1 from rfl]
          rcases lowest_parity hb.1 with ⟨hlow, hpar⟩ | ⟨hlow, hpar⟩
          · have heven : Even (signed b).toNat := Nat.even_iff.mpr (by omega)
            rw [hlow, heven.neg_one_pow]
            rfl
          · have hodd : Odd (signed b).toNat := Nat.odd_iff.mpr (by omega)
            rw [hlow, hodd.neg_one_pow]
            rfl
        · rename_i hm
          have h2 : 2 ≤ |signed [v]| := by
            refine two_le_abs ha ?_ ?_ fun h => hm (List.cons.inj h).1
            · intro h
              exact hbig (by rw [(List.cons.inj h).1]; decide)
            · intro h
              exact hbig (by rw [(List.cons.inj h).1]; decide)
          generalize hw : (if v.slt 0 then -v else v) = u
          by_cases htwo : u &&& (u - 1) = 0
          · rw [if_pos htwo]
            refine powTwo_yields hb hpos hne h2 htwo ?_
            rw [hsingle, ← hw]
            exact limb_abs v
          · rw [if_neg htwo]
            exact powGeneral_yields ha hb hpos hne h2
    · rename_i hlen
      have hlong : ∀ x : Limb, a ≠ [x] := by
        rintro x rfl
        exact hlen rfl
      exact powGeneral_yields ha hb hpos hne (two_le_abs ha (hlong 0) (hlong 1) (hlong (-1)))

end TurboJS.BigInt
