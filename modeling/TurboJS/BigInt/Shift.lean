import TurboJS.BigInt.Ring

namespace TurboJS.BigInt

open Foundation

/-! ## And, or, exclusive or -/

def LogicOp.int : LogicOp → Int → Int → Int
  | .or => Int.lor
  | .and => Int.land
  | .xor => Int.xor

def LogicOp.bit : LogicOp → Bool → Bool → Bool
  | .or, p, q => p || q
  | .and, p, q => p && q
  | .xor, p, q => p ^^ q

theorem LogicOp.testBit_int (op : LogicOp) (v u : Int) (k : Nat) :
    (op.int v u).testBit k = op.bit (v.testBit k) (u.testBit k) := by
  cases op with
  | or => exact Int.testBit_lor v u k
  | and => exact Int.testBit_land v u k
  | xor => exact Int.testBit_lxor v u k

theorem LogicOp.getLsbD_limb (op : LogicOp) (x y : Limb) (k : Nat) :
    (op.limb x y).getLsbD k = op.bit (x.getLsbD k) (y.getLsbD k) := by
  cases op with
  | or => exact BitVec.getLsbD_or
  | and => exact BitVec.getLsbD_and
  | xor => exact BitVec.getLsbD_xor

theorem LogicOp.comm (op : LogicOp) (v u : Int) : op.int v u = op.int u v := by
  apply eq_of_testBit_eq
  intro k
  rw [op.testBit_int, op.testBit_int]
  cases op with
  | or => exact Bool.or_comm _ _
  | and => exact Bool.and_comm _ _
  | xor => exact Bool.xor_comm _ _

theorem LogicOp.int_digit (op : LogicOp) (x y : Limb) (h h' : Int) :
    op.int (x.toNat + 2 ^ 32 * h) (y.toNat + 2 ^ 32 * h') =
      (op.limb x y).toNat + 2 ^ 32 * op.int h h' := by
  apply eq_of_testBit_eq
  intro k
  rw [op.testBit_int, testBit_digit, testBit_digit, testBit_digit]
  split
  · exact (op.getLsbD_limb x y k).symm
  · exact (op.testBit_int h h' (k - 32)).symm

theorem join_logic (op : LogicOp) {a b : List Limb} (hlen : a.length = b.length) (h h' : Int) :
    join (List.zipWith op.limb a b) (op.int h h') = op.int (join a h) (join b h') := by
  induction a generalizing b with
  | nil =>
    cases b with
    | nil => rfl
    | cons y b => cases hlen
  | cons x a ih =>
    cases b with
    | nil => cases hlen
    | cons y b =>
      rw [List.zipWith_cons_cons, join, ih (Nat.succ.inj hlen), join, join, op.int_digit]

theorem testBit_sign (p : Bool) (k : Nat) : Int.testBit (if p then -1 else 0) k = p := by
  cases p with
  | true =>
    change (!Nat.testBit 0 k) = true
    rw [Nat.zero_testBit]
    rfl
  | false => exact Nat.zero_testBit k

theorem LogicOp.toInt_limb (op : LogicOp) (x y : Limb) :
    (op.limb x y).toInt = op.int x.toInt y.toInt := by
  have hmsb : (op.limb x y).msb = op.bit x.msb y.msb := op.getLsbD_limb x y 31
  have hpart : op.int (if x.msb then -1 else 0) (if y.msb then -1 else 0) =
      if op.bit x.msb y.msb then -1 else 0 := by
    apply eq_of_testBit_eq
    intro k
    rw [op.testBit_int, testBit_sign, testBit_sign, testBit_sign]
  rw [toInt_eq_sign x, toInt_eq_sign y, op.int_digit, toInt_eq_sign, hmsb, hpart]

theorem signed_logic (op : LogicOp) {a b : List Limb} (ha : a ≠ []) (hlen : a.length = b.length) :
    signed (List.zipWith op.limb a b) = op.int (signed a) (signed b) := by
  obtain ⟨a, x, rfl⟩ := List.eq_nil_or_concat a |>.resolve_left ha
  have hb : b ≠ [] := List.length_pos_iff.mp (by rw [← hlen]; simp)
  obtain ⟨b, y, rfl⟩ := List.eq_nil_or_concat b |>.resolve_left hb
  simp only [List.concat_eq_append] at hlen ⊢
  have hlen : a.length = b.length := by simpa using hlen
  rw [List.zipWith_append hlen, List.zipWith_cons_cons, List.zipWith_nil_left, signed_concat,
    signed_concat, signed_concat, op.toInt_limb, join_logic op hlen]

theorem signed_extended {b : JSBigInt} (hb : b ≠ []) (k : Nat) :
    signed (b ++ List.replicate k (-sign b)) = signed b := by
  cases k with
  | zero => rw [List.replicate_zero, List.append_nil]
  | succ k =>
    obtain ⟨hdigit, hint⟩ := sign_limb hb
    rw [List.replicate_succ', ← List.append_assoc, signed_concat, hint, join_append,
      join_replicate hdigit]
    rfl

theorem zipWith_replicate_length (f : Limb → Limb → Limb) (l : List Limb) (x : Limb) :
    List.zipWith f l (List.replicate l.length x) = l.map fun y => f y x := by
  induction l with
  | nil => rfl
  | cons y l ih => rw [List.length_cons, List.replicate_succ, List.zipWith_cons_cons, ih, List.map_cons]

theorem logicOrdered_yields {a b : JSBigInt} (op : LogicOp) (ha : a ≠ []) (hb : b ≠ [])
    (hlen : b.length ≤ a.length) : Yields (logicOrdered a b op) (op.int (signed a) (signed b)) := by
  -- The loops together are one loop over `b` with the limbs of its sign.
  have hloops : List.zipWith op.limb a b ++ ((a.drop b.length).map fun x => op.limb x (-sign b)) =
      List.zipWith op.limb a (b ++ List.replicate (a.length - b.length) (-sign b)) := by
    obtain ⟨l, m, rfl, hl⟩ : ∃ l m, a = l ++ m ∧ l.length = b.length :=
      ⟨a.take b.length, a.drop b.length, (List.take_append_drop _ _).symm,
        by rw [List.length_take, Nat.min_eq_left hlen]⟩
    have hrest : (l ++ m).length - b.length = m.length := by
      rw [List.length_append]
      omega
    have hcommon : List.zipWith op.limb (l ++ m) b = List.zipWith op.limb l b := by
      conv_lhs => rw [← List.append_nil b, List.zipWith_append hl]
      rw [List.zipWith_nil_right, List.append_nil]
    rw [hcommon, hrest, List.zipWith_append hl, ← hl, List.drop_left, zipWith_replicate_length]
  have hne : List.zipWith op.limb a (b ++ List.replicate (a.length - b.length) (-sign b)) ≠ [] := by
    apply List.length_pos_iff.mp
    have hpos := List.length_pos_iff.mpr ha
    simp only [List.length_zipWith, List.length_append, List.length_replicate]
    omega
  have h := normalize_yields hne
  rw [signed_logic op ha (by simp; omega), signed_extended hb, ← hloops] at h
  exact Yields.of_allocated h

theorem logic_yields {a b : JSBigInt} (op : LogicOp) (ha : a ≠ []) (hb : b ≠ []) :
    Yields (logic a b op) (op.int (signed a) (signed b)) := by
  rw [logic]
  split
  · rename_i hlt
    rw [op.comm]
    exact logicOrdered_yields op hb ha hlt.le
  · rename_i hge
    exact logicOrdered_yields op ha hb (Nat.le_of_not_lt hge)

theorem signed_not {a : List Limb} (ha : a ≠ []) : signed (a.map fun x => ~~~x) = -signed a - 1 := by
  obtain ⟨a, x, rfl⟩ := List.eq_nil_or_concat a |>.resolve_left ha
  have hx : (~~~x).toInt = -x.toInt - 1 := by
    have hnot := x.isLt
    have hmsb : (~~~x).msb = !x.msb := by
      rw [BitVec.msb_not]
      simp
    rw [toInt_eq_sign, toInt_eq_sign, hmsb, BitVec.toNat_not]
    cases x.msb <;> simp <;> omega
  rw [List.concat_eq_append, List.map_append, List.map_singleton, signed_concat, signed_concat, hx,
    join_not]

theorem not_yields {a : JSBigInt} (ha : Minimal a) : Yields (not a) (-signed a - 1) := by
  apply Yields.of_allocated
  refine .pure ⟨⟨by simpa using ha.1, fun m hm he => ?_⟩, signed_not ha.1⟩
  rw [List.length_map]
  -- The complement of a shorter list would be a shorter list for `a`.
  have hback : signed (m.map fun x => ~~~x) = signed a := by
    rw [signed_not hm, he, signed_not ha.1]
    ring
  simpa using ha.2 (m.map fun x => ~~~x) (by simpa using hm) hback

theorem shiftedUp_toNat {s : Nat} (hs : s ≤ 32) (v l : Limb) (hl : l.toNat < 2 ^ s) :
    (v <<< s ||| l).toNat + 2 ^ 32 * (v >>> (32 - s)).toNat = 2 ^ s * v.toNat + l.toNat := by
  have hpow : 2 ^ 32 = 2 ^ s * 2 ^ (32 - s) := by
    rw [← pow_add, Nat.add_sub_cancel' hs]
  have hmod : v.toNat * 2 ^ s % 2 ^ 32 = 2 ^ s * (v.toNat % 2 ^ (32 - s)) := by
    rw [hpow, Nat.mul_comm, Nat.mul_mod_mul_left]
  rw [BitVec.toNat_or, BitVec.toNat_shiftLeft, BitVec.toNat_ushiftRight, Nat.shiftLeft_eq,
    Nat.shiftRight_eq_div_pow, hmod, ← Nat.two_pow_add_eq_or_of_lt hl, hpow]
  have hdiv := Nat.mod_add_div v.toNat (2 ^ (32 - s))
  calc 2 ^ s * (v.toNat % 2 ^ (32 - s)) + l.toNat +
        2 ^ s * 2 ^ (32 - s) * (v.toNat / 2 ^ (32 - s))
      = 2 ^ s * (v.toNat % 2 ^ (32 - s) + 2 ^ (32 - s) * (v.toNat / 2 ^ (32 - s))) + l.toNat := by
        ring
    _ = 2 ^ s * v.toNat + l.toNat := by rw [hdiv]

theorem shiftedOut_lt {s : Nat} (hs : s ≤ 32) (v : Limb) : (v >>> (32 - s)).toNat < 2 ^ s := by
  have hv := v.isLt
  rw [BitVec.toNat_ushiftRight, Nat.shiftRight_eq_div_pow]
  apply Nat.div_lt_of_lt_mul
  rwa [← pow_add, Nat.sub_add_cancel hs]

theorem mpShl_spec {s : Nat} (hs : s ≤ 32) (a : List Limb) {l : Limb} (hl : l.toNat < 2 ^ s)
    (h : Int) : (mpShl a s l).1.length = a.length ∧ (mpShl a s l).2.toNat < 2 ^ s ∧
      join (mpShl a s l).1 (2 ^ s * h + (mpShl a s l).2.toNat) = 2 ^ s * join a h + l.toNat := by
  induction a generalizing l with
  | nil => exact ⟨rfl, hl, rfl⟩
  | cons v a ih =>
    obtain ⟨hlen, hlt, hval⟩ := ih (shiftedOut_lt hs v)
    have hlimb : ((v <<< s ||| l).toNat : Int) + 2 ^ 32 * (v >>> (32 - s)).toNat =
        2 ^ s * v.toNat + l.toNat := by exact_mod_cast shiftedUp_toNat hs v l hl
    refine ⟨congrArg Nat.succ hlen, hlt, ?_⟩
    simp only [mpShl, join, hval]
    linear_combination hlimb

theorem join_zeros (k : Nat) (h : Int) :
    join (List.replicate k (0 : Limb)) h = 2 ^ (32 * k) * h := by
  rw [join_eq, magnitude_zeros, List.length_replicate]
  simp

theorem shiftedSign_toInt {s : Nat} (hs : s < 32) {l : Limb} (hl : l.toNat < 2 ^ s) {a : JSBigInt}
    (ha : a ≠ []) : (if sign a ≠ 0 then l ||| (-1 : Limb) <<< s else l).toInt =
      2 ^ s * signPart a + l.toNat := by
  have hpow : 2 ^ 32 = 2 ^ s * 2 ^ (32 - s) := by
    rw [← pow_add, Nat.add_sub_cancel' hs.le]
  have hhalf : 2 * 2 ^ s ≤ 2 ^ 32 := by
    rw [← pow_succ']
    exact Nat.pow_le_pow_right (by decide) hs
  rw [sign_ne_zero ha]
  split
  · have hmod : (2 ^ 32 - 1) * 2 ^ s % 2 ^ 32 = 2 ^ s * (2 ^ (32 - s) - 1) := by
      have hsub : 2 ^ (32 - s) * (2 ^ s - 1) + (2 ^ (32 - s) - 1) = 2 ^ 32 - 1 := by
        rw [Nat.mul_sub, Nat.mul_one, Nat.mul_comm, ← hpow]
        have := Nat.pow_le_pow_right (show 0 < 2 by decide) (show 32 - s ≤ 32 by omega)
        have := Nat.two_pow_pos (32 - s)
        omega
      have hlt : 2 ^ (32 - s) - 1 < 2 ^ (32 - s) := Nat.sub_lt (Nat.two_pow_pos _) Nat.one_pos
      rw [Nat.mul_comm, hpow, Nat.mul_mod_mul_left, ← hpow, ← hsub, Nat.mul_add_mod,
        Nat.mod_eq_of_lt hlt]
    have hor : (l ||| (-1 : Limb) <<< s).toNat + 2 ^ s = 2 ^ 32 + l.toNat := by
      rw [BitVec.toNat_or, Nat.or_comm, BitVec.toNat_shiftLeft, Nat.shiftLeft_eq,
        show (-1 : Limb).toNat = 2 ^ 32 - 1 from rfl, hmod, ← Nat.two_pow_add_eq_or_of_lt hl,
        Nat.mul_sub, ← hpow, Nat.mul_one]
      omega
    have hcast : ((l ||| (-1 : Limb) <<< s).toNat : Int) + 2 ^ s = 2 ^ 32 + l.toNat := by
      exact_mod_cast hor
    rw [BitVec.toInt_eq_toNat_cond, if_neg (by omega), Nat.cast_pow, Nat.cast_ofNat]
    linear_combination hcast
  · rw [BitVec.toInt_eq_toNat_cond, if_pos (by omega)]
    ring

theorem minimal_shifted {a : JSBigInt} (ha : Minimal a) (hne : a ≠ [0]) (d : Nat) :
    Minimal (List.replicate d (0 : Limb) ++ a) := by
  rcases ha.cases (by decide) with ⟨x, rfl⟩ | ⟨l, u, v, rfl, hs⟩
  · cases d with
    | zero => exact minimal_singleton x
    | succ d =>
      rw [List.replicate_succ', List.append_assoc]
      refine (minimal_concat_iff (by decide)).mpr fun hs => hne ?_
      have hx : x.toInt = 0 := hs
      rw [(toInt_eq_zero_iff x).mp hx]
  · rw [← List.append_assoc]
    exact (minimal_concat_iff (by decide)).mpr hs

theorem signed_zeros {a : JSBigInt} (ha : a ≠ []) (d : Nat) :
    signed (List.replicate d (0 : Limb) ++ a) = 2 ^ (32 * d) * signed a := by
  obtain ⟨l, x, rfl⟩ := List.eq_nil_or_concat a |>.resolve_left ha
  rw [List.concat_eq_append, ← List.append_assoc, signed_concat, join_append, join_zeros,
    signed_concat]

theorem shl_yields {a : JSBigInt} (ha : Minimal a) (n : Nat) :
    Yields (shl a n) (signed a * 2 ^ n) := by
  rw [shl]
  split
  · rename_i h0
    subst h0
    have h := newSi_yields 0
    rwa [show signed ([0] : JSBigInt) = 0 from rfl, zero_mul]
  · rename_i hne
    apply Yields.of_allocated
    have hpow : (2 : Int) ^ n = 2 ^ (32 * (n / 32)) * 2 ^ (n % 32) := by
      rw [← pow_add, Nat.div_add_mod]
    split
    · rename_i hs
      refine .pure ⟨minimal_shifted ha hne _, ?_⟩
      rw [signed_zeros ha.1, hpow, hs]
      ring
    · obtain ⟨hlen, hlt, hval⟩ := mpShl_spec (show n % 32 ≤ 32 by omega) a
        (show (0 : Limb).toNat < 2 ^ (n % 32) from Nat.two_pow_pos _) (signPart a)
      have hr : List.replicate (n / 32) 0 ++ (mpShl a (n % 32) 0).1 ≠ [] := by
        apply List.length_pos_iff.mp
        have := List.length_pos_iff.mpr ha.1
        rw [List.length_append, hlen]
        omega
      have h := extend_yields hr
        (if sign a ≠ 0 then (mpShl a (n % 32) 0).2 ||| (-1 : Limb) <<< (n % 32)
          else (mpShl a (n % 32) 0).2)
      rw [shiftedSign_toInt (by omega) hlt ha.1, join_append, join_zeros, hval] at h
      have hproduct : 2 ^ (32 * (n / 32)) * (2 ^ (n % 32) * join a (signPart a) +
          ((0 : Limb).toNat : Int)) = signed a * 2 ^ n := by
        rw [hpow, signed, show ((0 : Limb).toNat : Int) = 0 from rfl]
        ring
      rw [hproduct] at h
      exact h

theorem shiftedDown_toNat {s : Nat} (hs : s ≤ 32) (a l : Limb) :
    (a >>> s ||| l <<< (32 - s)).toNat = a.toNat / 2 ^ s + 2 ^ (32 - s) * (l.toNat % 2 ^ s) := by
  have ha := a.isLt
  have hpow : 2 ^ 32 = 2 ^ (32 - s) * 2 ^ s := by
    rw [← pow_add, Nat.sub_add_cancel hs]
  have hlow : a.toNat / 2 ^ s < 2 ^ (32 - s) := by
    apply Nat.div_lt_of_lt_mul
    rwa [Nat.mul_comm, ← hpow]
  have hmod : l.toNat * 2 ^ (32 - s) % 2 ^ 32 = 2 ^ (32 - s) * (l.toNat % 2 ^ s) := by
    rw [hpow, Nat.mul_comm, Nat.mul_mod_mul_left]
  rw [BitVec.toNat_or, Nat.or_comm, BitVec.toNat_ushiftRight, Nat.shiftRight_eq_div_pow,
    BitVec.toNat_shiftLeft, Nat.shiftLeft_eq, hmod, ← Nat.two_pow_add_eq_or_of_lt hlow]
  omega

theorem mpShr_spec {s : Nat} (hs : s ≤ 32) (tab : List Limb) {high : Limb} {h : Int}
    (hh : h % 2 ^ 32 = high.toNat) : (mpShr tab s high).1.length = tab.length ∧
      join tab h % 2 ^ 32 = (mpShr tab s high).2.toNat ∧
      join (mpShr tab s high).1 (h / 2 ^ s) = join tab h / 2 ^ s := by
  induction tab with
  | nil => exact ⟨rfl, hh, rfl⟩
  | cons a tab ih =>
    obtain ⟨hlen, hlow, hval⟩ := ih
    have hpow : (2 : Int) ^ 32 = 2 ^ s * 2 ^ (32 - s) := by
      rw [← pow_add, Nat.add_sub_cancel' hs]
    have ha : (a.toNat : Int) < 2 ^ 32 := by exact_mod_cast a.isLt
    have hlimb : ((a >>> s ||| (mpShr tab s high).2 <<< (32 - s)).toNat : Int) =
        a.toNat / 2 ^ s + 2 ^ (32 - s) * ((mpShr tab s high).2.toNat % 2 ^ s) := by
      exact_mod_cast shiftedDown_toNat hs a (mpShr tab s high).2
    refine ⟨congrArg Nat.succ hlen, ?_, ?_⟩
    · change ((a.toNat : Int) + 2 ^ 32 * join tab h) % 2 ^ 32 = a.toNat
      rw [Int.add_mul_emod_self_left]
      exact Int.emod_eq_of_lt (by positivity) ha
    · -- The bits that come in are the lowest ones of what is above.
      have hsame : ((mpShr tab s high).2.toNat : Int) % 2 ^ s = join tab h % 2 ^ s := by
        rw [← hlow]
        exact Int.emod_emod_of_dvd _ ⟨_, hpow⟩
      change ((a >>> s ||| (mpShr tab s high).2 <<< (32 - s)).toNat : Int) +
        2 ^ 32 * join (mpShr tab s high).1 (h / 2 ^ s) =
          ((a.toNat : Int) + 2 ^ 32 * join tab h) / 2 ^ s
      have hdiv := Int.emod_add_mul_ediv (join tab h) (2 ^ s)
      have hsplit : ((a.toNat : Int) + 2 ^ 32 * join tab h) / 2 ^ s =
          a.toNat / 2 ^ s + 2 ^ (32 - s) * join tab h := by
        rw [hpow, Int.mul_assoc, Int.add_mul_ediv_left _ _ (by positivity)]
      rw [hlimb, hval, hsame, hsplit]
      linear_combination 2 ^ (32 - s) * hdiv + (join tab h / 2 ^ s) * hpow

theorem FitsIn.floor {n : Nat} {v : Int} (h : FitsIn 32 n v) (s : Nat) :
    FitsIn 32 n (v / 2 ^ s) := by
  have hpos : (0 : Int) < 2 ^ s := by positivity
  have hone : (1 : Int) ≤ 2 ^ s := by omega
  obtain ⟨h1, h2⟩ := h
  have hwidth : (0 : Int) < 2 ^ (32 * n) := by positivity
  have hle := Int.ediv_mul_le v hpos.ne'
  have hlt := Int.lt_ediv_add_one_mul_self v hpos
  constructor
  · by_contra hc
    have hneg : v / 2 ^ s + 1 ≤ 0 := by omega
    nlinarith
  · by_contra hc
    have hnonneg : 0 ≤ v / 2 ^ s := by omega
    nlinarith

theorem signed_drop_eq {a : JSBigInt} {d : Nat} (hd : d < a.length) :
    signed (a.drop d) = signed a / 2 ^ (32 * d) ∧ signPart (a.drop d) = signPart a := by
  have htake : (a.take d).length = d := by
    rw [List.length_take, Nat.min_eq_left hd.le]
  have hpart : signPart (a.drop d) = signPart a := by
    rw [signPart, signPart, List.getLast?_drop, if_neg (by omega)]
  have hlt : (magnitude (a.take d) : Int) < 2 ^ (32 * d) := by
    have := magnitude_lt (a.take d)
    rw [htake] at this
    exact_mod_cast this
  refine ⟨?_, hpart⟩
  have hsplit : signed a = magnitude (a.take d) + 2 ^ (32 * d) * signed (a.drop d) := by
    calc signed a = join (a.take d ++ a.drop d) (signPart a) := by
          rw [List.take_append_drop]
          rfl
      _ = magnitude (a.take d) + 2 ^ (32 * d) * signed (a.drop d) := by
          rw [join_append, join_eq, htake, signed, hpart]
  rw [hsplit, Int.add_mul_ediv_left _ _ (by positivity),
    Int.ediv_eq_zero_of_lt (by positivity) hlt, zero_add]

theorem signPart_div (a : JSBigInt) (n : Nat) : signPart a / 2 ^ n = signPart a := by
  rcases signPart_cases a with h | h <;> rw [h]
  · exact Int.zero_ediv _
  · exact (Int.negSucc_ediv 0 (by positivity)).trans
      (congrArg (fun q => -(q + 1)) (Int.zero_ediv (2 ^ n)))

theorem signed_div_width {a : JSBigInt} {n : Nat} (hn : 32 * a.length ≤ n) :
    signed a / 2 ^ n = signPart a := by
  have hlt : (magnitude a : Int) < 2 ^ (32 * a.length) := by exact_mod_cast magnitude_lt a
  have hpow : (2 : Int) ^ n = 2 ^ (32 * a.length) * 2 ^ (n - 32 * a.length) := by
    rw [← pow_add, Nat.add_sub_cancel' hn]
  rw [hpow, ← Int.ediv_ediv_of_nonneg (by positivity), signed, join_eq,
    Int.add_mul_ediv_left _ _ (by positivity), Int.ediv_eq_zero_of_lt (by positivity) hlt, zero_add]
  exact signPart_div a _

theorem shr_yields {a : JSBigInt} (ha : Minimal a) (n : Nat) :
    Yields (shr a n) (signed a / 2 ^ n) := by
  rw [shr]
  split
  · rename_i hd
    have h := newSi_yields (-sign a)
    rwa [(sign_limb ha.1).2, ← signed_div_width (n := n) (by omega)] at h
  · rename_i hd
    have hd : n / 32 < a.length := Nat.lt_of_not_le hd
    obtain ⟨hdrop, hpart⟩ := signed_drop_eq hd
    have hmin := ha.drop (by decide) hd
    have hpow : signed a / 2 ^ n = signed (a.drop (n / 32)) / 2 ^ (n % 32) := by
      rw [hdrop, Int.ediv_ediv_of_nonneg (by positivity), ← pow_add, Nat.div_add_mod]
    apply Yields.of_allocated
    split
    · rename_i hs
      rw [hs, pow_zero, Int.ediv_one] at hpow
      exact .pure ⟨hmin, hpow.symm⟩
    · have hsign : signPart a % 2 ^ 32 = ((-sign a).toNat : Int) := by
        rcases neg_sign_cases ha.1 with ⟨hs, hp⟩ | ⟨hs, hp⟩ <;> rw [hs, hp] <;> decide
      obtain ⟨hlen, -, hval⟩ := mpShr_spec (show n % 32 ≤ 32 by omega) (a.drop (n / 32)) hsign
      rw [signPart_div, ← hpart] at hval
      have hne : (mpShr (a.drop (n / 32)) (n % 32) (-sign a)).1 ≠ [] := by
        apply List.length_pos_iff.mp
        rw [hlen]
        exact List.length_pos_iff.mpr hmin.1
      have hfit : FitsIn 32 (mpShr (a.drop (n / 32)) (n % 32) (-sign a)).1.length
          (signed (a.drop (n / 32)) / 2 ^ (n % 32)) := by
        rw [hlen]
        exact FitsIn.floor (fitsIn_signed (by decide) hmin.1) _
      have h := normalize_yields hne
      rwa [signed_eq_of_congr (by decide) hne hfit (hval.symm.trans (join_eq _ _)), ← hpow] at h

end TurboJS.BigInt
