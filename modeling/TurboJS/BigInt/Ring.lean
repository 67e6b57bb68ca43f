import TurboJS.BigInt.Arith

namespace TurboJS.BigInt

open Foundation

/-! ## Addition -/

theorem addc_spec (x y : Limb) (c : Bool) :
    (addc x y c).1.toNat + 2 ^ 32 * (addc x y c).2.toNat = x.toNat + y.toNat + c.toNat := by
  have hx := x.isLt
  have hy := y.isLt
  simp only [addc, BitVec.lt_def, BitVec.toNat_add]
  cases c with
  | true =>
    rw [show BitVec.toNat (carryLimb true) = 1 from rfl]
    by_cases h1 : (x.toNat + y.toNat) % 2 ^ 32 < x.toNat <;>
      by_cases h2 : ((x.toNat + y.toNat) % 2 ^ 32 + 1) % 2 ^ 32 < 1 <;>
      simp only [h1, h2, decide_true, decide_false, Bool.or_true, Bool.or_false, Bool.toNat_true,
        Bool.toNat_false] <;> omega
  | false =>
    rw [show BitVec.toNat (carryLimb false) = 0 from rfl]
    by_cases h1 : (x.toNat + y.toNat) % 2 ^ 32 < x.toNat <;>
      simp only [h1, decide_true, decide_false, Nat.not_lt_zero, Bool.or_true, Bool.or_false,
        Bool.toNat_true, Bool.toNat_false] <;> omega

theorem mpAdd_spec {xs ys : List Limb} {c : Bool} (hlen : xs.length = ys.length) (h h' : Int) :
    (mpAdd xs ys c).1.length = xs.length ∧
      join (mpAdd xs ys c).1 (h + h' + (mpAdd xs ys c).2.toNat) =
        join xs h + join ys h' + c.toNat := by
  induction xs generalizing ys c with
  | nil =>
    cases ys with
    | nil => exact ⟨rfl, rfl⟩
    | cons y ys => cases hlen
  | cons x xs ih =>
    cases ys with
    | nil => cases hlen
    | cons y ys =>
      obtain ⟨hl, hval⟩ := @ih ys (addc x y c).2 (Nat.succ.inj hlen)
      have hlimb : ((addc x y c).1.toNat : Int) + 2 ^ 32 * (addc x y c).2.toNat =
          x.toNat + y.toNat + c.toNat := by exact_mod_cast addc_spec x y c
      refine ⟨congrArg Nat.succ hl, ?_⟩
      simp only [mpAdd, join, hval]
      linarith

theorem join_not (l : List Limb) (h : Int) :
    join (l.map fun x => ~~~x) (-h - 1) = -join l h - 1 := by
  induction l with
  | nil => rfl
  | cons x l ih =>
    have hx := x.isLt
    have hnot : ((~~~x).toNat : Int) = 2 ^ 32 - 1 - x.toNat := by
      rw [BitVec.toNat_not]
      omega
    simp only [List.map_cons, join, ih, hnot]
    ring

theorem join_replicate {x : Limb} {h : Int} (hx : x.toNat + 2 ^ 32 * h = h) (k : Nat) :
    join (List.replicate k x) h = h := by
  induction k with
  | zero => rfl
  | succ k ih => rw [List.replicate_succ, join, ih, hx]

theorem neg_sign_cases {a : JSBigInt} (ha : a ≠ []) :
    -sign a = 0 ∧ signPart a = 0 ∨ -sign a = -1 ∧ signPart a = -1 := by
  obtain ⟨l, x, rfl⟩ := List.eq_nil_or_concat a |>.resolve_left ha
  rw [List.concat_eq_append, sign_concat, signPart_concat]
  cases x.msb with
  | true => exact .inr ⟨rfl, rfl⟩
  | false => exact .inl ⟨rfl, rfl⟩

theorem sign_limb {b : JSBigInt} (hb : b ≠ []) :
    (-sign b).toNat + 2 ^ 32 * signPart b = signPart b ∧ (-sign b).toInt = signPart b := by
  rcases neg_sign_cases hb with ⟨hs, hp⟩ | ⟨hs, hp⟩ <;> rw [hs, hp] <;> decide

def flippedPart (b : JSBigInt) (bNeg : Bool) : Int := if bNeg then -signPart b - 1 else signPart b

theorem join_flip (l b : JSBigInt) (bNeg : Bool) :
    join (l.map (flip bNeg)) (flippedPart b bNeg) =
      if bNeg then -join l (signPart b) - 1 else join l (signPart b) := by
  cases bNeg with
  | true =>
    have hmap : l.map (flip true) = l.map fun x => ~~~x :=
      List.map_congr_left fun x _ => BitVec.xor_allOnes
    rw [hmap]
    exact join_not l (signPart b)
  | false =>
    have hflip : flip false = id := funext fun x => BitVec.xor_zero
    rw [hflip, List.map_id]
    rfl

theorem top_limb {a b : JSBigInt} (ha : a ≠ []) (hb : b ≠ []) (bNeg c : Bool) :
    (-sign a + flip bNeg (-sign b) + carryLimb c).toInt =
        signPart a + flippedPart b bNeg + c.toNat ∧
      (-sign a).toNat + 2 ^ 32 * signPart a = signPart a ∧
      (flip bNeg (-sign b)).toNat + 2 ^ 32 * flippedPart b bNeg = flippedPart b bNeg := by
  rw [flippedPart, flip]
  obtain ⟨hs, hp⟩ | ⟨hs, hp⟩ := neg_sign_cases ha <;>
    obtain ⟨hs', hp'⟩ | ⟨hs', hp'⟩ := neg_sign_cases hb <;>
    rw [hs, hp, hs', hp'] <;> cases bNeg <;> cases c <;> decide

theorem addLimbs_spec {a b : JSBigInt} (ha : a ≠ []) (hb : b ≠ []) (bNeg : Bool) :
    (addLimbs a b bNeg).1 ≠ [] ∧
      join (addLimbs a b bNeg).1 (signPart a + flippedPart b bNeg + (addLimbs a b bNeg).2.toNat) =
        join a (signPart a) + join (b.map (flip bNeg)) (flippedPart b bNeg) + bNeg.toNat := by
  obtain ⟨-, hra, hrb⟩ := top_limb ha hb bNeg false
  have hapos := List.length_pos_iff.mpr ha
  have hbpos := List.length_pos_iff.mpr hb
  generalize hn : min a.length b.length = n
  have htake : (a.take n).length = ((b.take n).map (flip bNeg)).length := by
    simp only [List.length_map, List.length_take]
    omega
  -- The common part carries into what is above it.
  obtain ⟨hlen, hcommon⟩ := mpAdd_spec htake (c := bNeg) (join (a.drop n) (signPart a))
    (join ((b.drop n).map (flip bNeg)) (flippedPart b bNeg))
  rw [← join_append, List.take_append_drop, ← join_append, ← List.map_append,
    List.take_append_drop] at hcommon
  rw [addLimbs, hn]
  generalize mpAdd (a.take n) ((b.take n).map (flip bNeg)) bNeg = common at hlen hcommon ⊢
  have hne : ∀ l : List Limb, common.1 ++ l ≠ [] := by
    intro l he
    have := congrArg List.length he
    simp only [List.length_append, hlen, List.length_take, List.length_nil] at this
    omega
  refine ⟨hne _, ?_⟩
  rw [join_append, ← hcommon]
  split
  · rename_i hgt
    obtain ⟨-, hhigh⟩ := @mpAdd_spec (a.drop n)
      (List.replicate (max a.length b.length - n) (flip bNeg (-sign b))) common.2
      (by simp only [List.length_drop, List.length_replicate]; omega) (signPart a)
      (flippedPart b bNeg)
    rw [hhigh, join_replicate hrb, List.drop_eq_nil_of_le (show b.length ≤ n by omega)]
    rfl
  · split
    · rename_i hlt
      obtain ⟨-, hhigh⟩ := @mpAdd_spec
        (List.replicate (max a.length b.length - n) (-sign a)) ((b.drop n).map (flip bNeg)) common.2
        (by simp only [List.length_map, List.length_drop, List.length_replicate]; omega)
        (signPart a) (flippedPart b bNeg)
      rw [hhigh, join_replicate hra, List.drop_eq_nil_of_le (show a.length ≤ n by omega)]
      rfl
    · rw [List.drop_eq_nil_of_le (show a.length ≤ n by omega),
        List.drop_eq_nil_of_le (show b.length ≤ n by omega)]
      rfl

theorem add_yields {a b : JSBigInt} (ha : a ≠ []) (hb : b ≠ []) (bNeg : Bool) :
    Yields (add a b bNeg) (if bNeg then signed a - signed b else signed a + signed b) := by
  obtain ⟨hne, hval⟩ := addLimbs_spec ha hb bNeg
  apply Yields.of_allocated
  have h := extend_yields hne (-sign a + flip bNeg (-sign b) + carryLimb (addLimbs a b bNeg).2)
  rw [(top_limb ha hb bNeg _).1, hval, join_flip] at h
  have hsum : join a (signPart a) +
      (if bNeg then -join b (signPart b) - 1 else join b (signPart b)) + (bNeg.toNat : Int) =
      if bNeg then signed a - signed b else signed a + signed b := by
    cases bNeg with
    | true =>
      simp only [if_true, signed, Bool.toNat_true]
      push_cast
      ring
    | false =>
      simp [signed]
  rw [hsum] at h
  exact h

theorem neg_yields {a : JSBigInt} (ha : a ≠ []) : Yields (neg a) (-signed a) := by
  have h := add_yields (a := [0]) (by simp) ha true
  rwa [if_pos rfl, show signed ([0] : JSBigInt) = 0 from rfl, zero_sub] at h

theorem mpSub_limb (x y : Limb) (c : Bool) :
    (x - y - carryLimb c).toNat + y.toNat + c.toNat = x.toNat +
      2 ^ 32 * (decide (x - y < x - y - carryLimb c) || decide (x - y > x)).toNat := by
  have hx := x.isLt
  have hy := y.isLt
  simp only [gt_iff_lt, BitVec.lt_def, BitVec.toNat_sub]
  cases c with
  | true =>
    rw [show BitVec.toNat (carryLimb true) = 1 from rfl]
    by_cases h1 : x.toNat < (2 ^ 32 - y.toNat + x.toNat) % 2 ^ 32 <;>
      by_cases h2 : (2 ^ 32 - y.toNat + x.toNat) % 2 ^ 32 <
        (2 ^ 32 - 1 + (2 ^ 32 - y.toNat + x.toNat) % 2 ^ 32) % 2 ^ 32 <;>
      simp only [h1, h2, decide_true, decide_false, Bool.or_true, Bool.or_false, Bool.toNat_true,
        Bool.toNat_false] <;> omega
  | false =>
    rw [show BitVec.toNat (carryLimb false) = 0 from rfl]
    by_cases h1 : x.toNat < (2 ^ 32 - y.toNat + x.toNat) % 2 ^ 32 <;>
      by_cases h2 : (2 ^ 32 - y.toNat + x.toNat) % 2 ^ 32 <
        (2 ^ 32 - 0 + (2 ^ 32 - y.toNat + x.toNat) % 2 ^ 32) % 2 ^ 32 <;>
      simp only [h1, h2, decide_true, decide_false, Bool.or_true, Bool.or_false, Bool.toNat_true,
        Bool.toNat_false] <;> omega

theorem mpSub_spec {xs ys : List Limb} {c : Bool} (hlen : xs.length = ys.length) :
    (mpSub xs ys c).1.length = xs.length ∧
      magnitude (mpSub xs ys c).1 + magnitude ys + c.toNat =
        magnitude xs + 2 ^ (32 * xs.length) * (mpSub xs ys c).2.toNat := by
  induction xs generalizing ys c with
  | nil =>
    cases ys with
    | nil => simp [mpSub, magnitude]
    | cons y ys => cases hlen
  | cons x xs ih =>
    cases ys with
    | nil => cases hlen
    | cons y ys =>
      obtain ⟨hl, hval⟩ := @ih ys (decide (x - y < x - y - carryLimb c) || decide (x - y > x))
        (Nat.succ.inj hlen)
      have hlimb := mpSub_limb x y c
      refine ⟨congrArg Nat.succ hl, ?_⟩
      have hpow : 2 ^ (32 * (x :: xs).length) = 2 ^ 32 * 2 ^ (32 * xs.length) := by
        rw [List.length_cons]
        ring
      simp only [mpSub, magnitude, hpow]
      linarith

theorem lowLimb_toNat (t : BitVec 64) : (lowLimb t).toNat = t.toNat % 2 ^ 32 := by
  rw [lowLimb, BitVec.toNat_setWidth]

theorem highLimb_toNat (t : BitVec 64) : (highLimb t).toNat = t.toNat / 2 ^ 32 := by
  have ht := t.isLt
  rw [highLimb, BitVec.toNat_setWidth, BitVec.toNat_ushiftRight, Nat.shiftRight_eq_div_pow]
  omega

theorem mulLimbs_toNat (x b l y : Limb) :
    (x.setWidth 64 * b.setWidth 64 + l.setWidth 64 + y.setWidth 64 : BitVec 64).toNat =
      x.toNat * b.toNat + l.toNat + y.toNat := by
  have hx := x.isLt
  have hb := b.isLt
  have hl := l.isLt
  have hy := y.isLt
  have hprod : x.toNat * b.toNat ≤ (2 ^ 32 - 1) * (2 ^ 32 - 1) :=
    Nat.mul_le_mul (by omega) (by omega)
  simp only [BitVec.toNat_add, BitVec.toNat_mul, BitVec.toNat_setWidth]
  rw [Nat.mod_eq_of_lt (show x.toNat < 2 ^ 64 by omega),
    Nat.mod_eq_of_lt (show b.toNat < 2 ^ 64 by omega),
    Nat.mod_eq_of_lt (show l.toNat < 2 ^ 64 by omega),
    Nat.mod_eq_of_lt (show y.toNat < 2 ^ 64 by omega)]
  omega

theorem mpAddMul1_spec {ys xs : List Limb} (hlen : ys.length = xs.length) (b l : Limb) :
    (mpAddMul1 ys xs b l).1.length = xs.length ∧
      magnitude (mpAddMul1 ys xs b l).1 + 2 ^ (32 * xs.length) * (mpAddMul1 ys xs b l).2.toNat =
        magnitude ys + magnitude xs * b.toNat + l.toNat := by
  induction xs generalizing ys l with
  | nil =>
    cases ys with
    | nil => simp [mpAddMul1, magnitude]
    | cons y ys => cases hlen
  | cons x xs ih =>
    cases ys with
    | nil => cases hlen
    | cons y ys =>
      let t : BitVec 64 := x.setWidth 64 * b.setWidth 64 + l.setWidth 64 + y.setWidth 64
      obtain ⟨hl, hval⟩ := ih (Nat.succ.inj hlen) (highLimb t)
      have hsplit : (lowLimb t).toNat + 2 ^ 32 * (highLimb t).toNat =
          x.toNat * b.toNat + l.toNat + y.toNat := by
        rw [lowLimb_toNat, highLimb_toNat, Nat.mod_add_div, mulLimbs_toNat]
      refine ⟨congrArg Nat.succ hl, ?_⟩
      have hpow : 2 ^ (32 * (x :: xs).length) = 2 ^ 32 * 2 ^ (32 * xs.length) := by
        rw [List.length_cons]
        ring
      change (lowLimb t).toNat + 2 ^ 32 * magnitude (mpAddMul1 ys xs b (highLimb t)).1 +
        2 ^ (32 * (x :: xs).length) * (mpAddMul1 ys xs b (highLimb t)).2.toNat =
          y.toNat + 2 ^ 32 * magnitude ys + (x.toNat + 2 ^ 32 * magnitude xs) * b.toNat + l.toNat
      rw [hpow]
      linarith

theorem mpMul1_eq (xs : List Limb) (b l : Limb) :
    mpMul1 xs b l = mpAddMul1 (List.replicate xs.length 0) xs b l := by
  induction xs generalizing l with
  | nil => rfl
  | cons x xs ih =>
    have hzero : ∀ t : BitVec 64, t + (0 : Limb).setWidth 64 = t := by
      intro t
      rw [show (0 : Limb).setWidth 64 = 0#64 from rfl, BitVec.add_zero]
    rw [List.length_cons, List.replicate_succ, mpMul1, mpAddMul1, hzero, ih]

theorem mulStep_spec {op1 r p : List Limb} (hlen : r.length = op1.length + p.length)
    (hr : magnitude r = magnitude op1 * magnitude p) (x : Limb) :
    (mulStep op1 (r, p.length) x).1.length = op1.length + (p ++ [x]).length ∧
      magnitude (mulStep op1 (r, p.length) x).1 = magnitude op1 * magnitude (p ++ [x]) := by
  have hdrop : (r.drop p.length).length = op1.length := by
    rw [List.length_drop]
    omega
  obtain ⟨hl, hval⟩ := mpAddMul1_spec hdrop x 0
  have htake : (r.take p.length).length = p.length := by
    rw [List.length_take]
    omega
  have hsplit := magnitude_append (r.take p.length) (r.drop p.length)
  rw [List.take_append_drop, htake, hr] at hsplit
  simp only [mulStep]
  constructor
  · simp only [List.length_append, htake, hl, List.length_singleton]
    omega
  · rw [magnitude_append, magnitude_append, magnitude_append, List.length_append, htake, hl]
    simp only [magnitude, Nat.mul_zero, Nat.add_zero]
    rw [show (0 : Limb).toNat = 0 from rfl, Nat.add_zero] at hval
    have hpow : 2 ^ (32 * (p.length + op1.length)) = 2 ^ (32 * p.length) * 2 ^ (32 * op1.length) := by
      rw [Nat.mul_add, pow_add]
    rw [hpow, Nat.mul_add (magnitude op1), hsplit, Nat.mul_assoc, Nat.add_assoc, ← Nat.mul_add, hval]
    ring

theorem mulBasecase_spec (op1 : List Limb) {op2 : List Limb} (h2 : op2 ≠ []) :
    (mulBasecase op1 op2).length = op1.length + op2.length ∧
      magnitude (mulBasecase op1 op2) = magnitude op1 * magnitude op2 := by
  have hfold : ∀ (l p r : List Limb), r.length = op1.length + p.length →
      magnitude r = magnitude op1 * magnitude p →
      (l.foldl (mulStep op1) (r, p.length)).1.length = op1.length + (p ++ l).length ∧
        magnitude (l.foldl (mulStep op1) (r, p.length)).1 = magnitude op1 * magnitude (p ++ l) := by
    intro l
    induction l with
    | nil =>
      intro p r hlen hr
      rw [List.append_nil]
      exact ⟨hlen, hr⟩
    | cons x l ih =>
      intro p r hlen hr
      obtain ⟨hlen', hr'⟩ := mulStep_spec hlen hr x
      have hcount : (mulStep op1 (r, p.length) x).2 = (p ++ [x]).length := by simp [mulStep]
      have h := ih (p ++ [x]) _ hlen' hr'
      rw [← hcount, List.append_assoc] at h
      exact h
  cases op2 with
  | nil => exact absurd rfl h2
  | cons x op2 =>
    obtain ⟨hl, hval⟩ := mpAddMul1_spec (List.length_replicate (n := op1.length) (a := (0 : Limb))) x 0
    rw [← mpMul1_eq] at hl hval
    rw [magnitude_zeros, show (0 : Limb).toNat = 0 from rfl, Nat.zero_add, Nat.add_zero] at hval
    refine hfold op2 [x] ((mpMul1 op1 x 0).1 ++ [(mpMul1 op1 x 0).2]) ?_ ?_
    · rw [List.length_append, hl]
      rfl
    · rw [magnitude_append, hl]
      simpa [magnitude] using hval

theorem subHigh_spec {r b : List Limb} {n : Nat} (hlen : r.length = n + b.length) :
    (r.take n ++ (mpSub (r.drop n) b false).1).length = r.length ∧
      ∃ k : Int, (magnitude (r.take n ++ (mpSub (r.drop n) b false).1) : Int) =
        magnitude r - 2 ^ (32 * n) * magnitude b + 2 ^ (32 * r.length) * k := by
  have hdrop : (r.drop n).length = b.length := by
    rw [List.length_drop]
    omega
  have htake : (r.take n).length = n := by
    rw [List.length_take]
    omega
  obtain ⟨hl, hval⟩ := mpSub_spec (c := false) hdrop
  refine ⟨by rw [List.length_append, htake, hl, hdrop, hlen], (mpSub (r.drop n) b false).2.toNat, ?_⟩
  have hsplit := magnitude_append (r.take n) (r.drop n)
  rw [List.take_append_drop, htake] at hsplit
  have hpow : (2 : Int) ^ (32 * r.length) = 2 ^ (32 * n) * 2 ^ (32 * b.length) := by
    rw [hlen, Nat.mul_add, pow_add]
  have hval : (magnitude (mpSub (r.drop n) b false).1 : Int) + magnitude b =
      magnitude (r.drop n) + 2 ^ (32 * b.length) * (mpSub (r.drop n) b false).2.toNat := by
    rw [hdrop] at hval
    exact_mod_cast hval
  rw [magnitude_append, htake, hsplit, hpow]
  push_cast
  linear_combination 2 ^ (32 * n) * hval

theorem sign_ne_zero {a : JSBigInt} (ha : a ≠ []) :
    signPart a = if sign a ≠ 0 then -1 else 0 := by
  rcases neg_sign_cases ha with ⟨hs, hp⟩ | ⟨hs, hp⟩
  · have hzero : sign a = 0 := by
      rw [← BitVec.neg_neg (x := sign a), hs]
      rfl
    rw [hp, hzero]
    rfl
  · have hne : sign a ≠ 0 := by
      intro h0
      rw [h0] at hs
      cases hs
    rw [hp, if_pos hne]

theorem mul_yields {a b : JSBigInt} (ha : a ≠ []) (hb : b ≠ []) :
    Yields (mul a b) (signed a * signed b) := by
  apply Yields.of_allocated
  obtain ⟨hlen, hval⟩ := mulBasecase_spec a hb
  have hapos := List.length_pos_iff.mpr ha
  -- The unsigned product is corrected once for each negative operand.
  obtain ⟨r₁, hr₁, hlen₁, k₁, hval₁⟩ : ∃ r₁,
      (if sign a ≠ 0 then (mulBasecase a b).take a.length ++
        (mpSub ((mulBasecase a b).drop a.length) b false).1 else mulBasecase a b) = r₁ ∧
      r₁.length = a.length + b.length ∧ ∃ k : Int, (magnitude r₁ : Int) =
        magnitude a * magnitude b + 2 ^ (32 * a.length) * (signPart a * magnitude b) +
          2 ^ (32 * (a.length + b.length)) * k := by
    refine ⟨_, rfl, ?_⟩
    rw [sign_ne_zero ha]
    split
    · obtain ⟨hl, k, hk⟩ := subHigh_spec hlen
      refine ⟨hl.trans hlen, k, ?_⟩
      rw [hk, hval, hlen]
      push_cast
      ring
    · refine ⟨hlen, 0, ?_⟩
      rw [hval]
      push_cast
      ring
  obtain ⟨r₂, hr₂, hlen₂, k₂, hval₂⟩ : ∃ r₂,
      (if sign b ≠ 0 then r₁.take b.length ++ (mpSub (r₁.drop b.length) a false).1 else r₁) = r₂ ∧
      r₂.length = a.length + b.length ∧ ∃ k : Int, (magnitude r₂ : Int) =
        magnitude r₁ + 2 ^ (32 * b.length) * (signPart b * magnitude a) +
          2 ^ (32 * (a.length + b.length)) * k := by
    refine ⟨_, rfl, ?_⟩
    rw [sign_ne_zero hb]
    split
    · obtain ⟨hl, k, hk⟩ := subHigh_spec (hlen₁.trans (Nat.add_comm _ _))
      refine ⟨hl.trans hlen₁, k, ?_⟩
      rw [hk, hlen₁]
      ring
    · exact ⟨hlen₁, 0, by ring⟩
  simp only
  rw [hr₁, hr₂]
  have hne : r₂ ≠ [] := List.length_pos_iff.mp (by omega)
  have hfit : FitsIn 32 r₂.length (signed a * signed b) := by
    rw [hlen₂]
    exact FitsIn.mul (fitsIn_signed (by decide) ha) (fitsIn_signed (by decide) hb)
  have hproduct : signed a * signed b = magnitude r₂ +
      2 ^ (32 * r₂.length) * (signPart a * signPart b - k₁ - k₂) := by
    rw [signed, signed, join_eq, join_eq, hval₂, hval₁, hlen₂, Nat.mul_add, pow_add]
    ring
  have h := normalize_yields hne
  rwa [signed_eq_of_congr (by decide) hne hfit hproduct] at h

end TurboJS.BigInt
