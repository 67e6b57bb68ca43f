import Mathlib.Algebra.BigOperators.Intervals
import TurboJS.OSR.ClosedForm

namespace TurboJS.OSR

open Foundation

/-! The masked and relational counts in the arithmetic of `uint64_t`. -/

/-- The `while (scan)` loop: the number of bits and their sum. -/
def scanBits64 : Nat → Nat → Nat × Nat → Wrapping (Nat × Nat)
  | 0, _, r => pure r
  | fuel + 1, scan, r =>
    if scan = 0 then pure r
    else do
      let weight ← Wrapping.add 64 r.2 (lowestBit scan)
      scanBits64 fuel (scan ^^^ lowestBit scan) (r.1 + 1, weight)

/-- `if (lower_count) result.sum += (combinations >> 1) * lower_weight`. -/
def addLower (combinations : Nat) (lower : Nat × Nat) (sum : Nat) : Wrapping Nat :=
  if lower.1 ≠ 0 then do
    let product ← Wrapping.mul 64 (combinations / 2) lower.2
    Wrapping.add 64 sum product
  else pure sum

/-- The `for` loop from `bit - 1` down, with `prefix` in `bits`. -/
def maskZeroScan64 (n mask : Nat) : Nat → MaskStats → Nat → Wrapping MaskStats
  | 0, r, bits => do
    let count ← Wrapping.add 64 r.count 1
    let sum ← Wrapping.add 64 r.sum bits
    pure ⟨count, sum⟩
  | bit + 1, r, bits =>
    if n.testBit bit then do
      let lower ← scanBits64 32 (lowerAllowed mask bit) (0, 0)
      let combinations ← Wrapping.mul 64 1 (2 ^ lower.1)
      let count ← Wrapping.add 64 r.count combinations
      let product ← Wrapping.mul 64 combinations bits
      let sum ← Wrapping.add 64 r.sum product
      let sum ← addLower combinations lower sum
      if mask.testBit bit then pure ⟨count, sum⟩
      else do
        let bits ← Wrapping.add 64 bits (2 ^ bit)
        maskZeroScan64 n mask bit ⟨count, sum⟩ bits
    else maskZeroScan64 n mask bit r bits

def maskZeroPrefix64 (stop : Int) (mask : Nat) : Wrapping MaskStats :=
  if stop ≤ 0 then pure ⟨0, 0⟩
  else maskZeroScan64 ((stop - 1).toNat % 2 ^ 32) (mask % 2 ^ 31) 31 ⟨0, 0⟩ 0

/-- The conversion of a signed number to `uint64_t`. -/
def toUInt64 (i : Int) : Nat := (i % 2 ^ 64).toNat

def rangeEnds (first limit : Int) (total : Nat) : Wrapping Nat :=
  if total ≠ 0 then do
    let ends ← Wrapping.add 64 (toUInt64 first) (toUInt64 limit)
    Wrapping.sub 64 ends 1
  else pure 0

def halve (a b : Nat) : Nat × Nat := if a % 2 = 0 then (a / 2, b) else (a, b / 2)

def maskTrueRange64 (first limit : Int) (mask : Nat) : Wrapping MaskStats := do
  let hi ← maskZeroPrefix64 limit mask
  let lo ← maskZeroPrefix64 first mask
  let total := if limit > first then toUInt64 (limit - first) else 0
  let ends ← rangeEnds first limit total
  let sum ← Wrapping.mul 64 (halve total ends).1 (halve total ends).2
  let zeros ← Wrapping.sub 64 hi.count lo.count
  let count ← Wrapping.sub 64 total zeros
  let zeroSum ← Wrapping.sub 64 hi.sum lo.sum
  let sum ← Wrapping.sub 64 sum zeroSum
  pure ⟨count, sum⟩

theorem scanBits_mono (fuel scan : Nat) (r : Nat × Nat) : r.2 ≤ (scanBits fuel scan r).2 := by
  induction fuel generalizing scan r with
  | zero => exact le_rfl
  | succ fuel ih =>
    rw [scanBits]
    split
    · exact le_rfl
    · exact le_trans (Nat.le_add_right _ _) (ih _ (r.1 + 1, r.2 + lowestBit scan))

theorem scanBits64_eq {fuel scan : Nat} {r : Nat × Nat}
    (h : (scanBits fuel scan r).2 < 2 ^ 64) : scanBits64 fuel scan r = pure (scanBits fuel scan r) := by
  induction fuel generalizing scan r with
  | zero => rfl
  | succ fuel ih =>
    rw [scanBits] at h
    rw [scanBits64, scanBits]
    split
    · rfl
    · rename_i h0
      rw [if_neg h0] at h
      have hle := scanBits_mono fuel (scan ^^^ lowestBit scan) (r.1 + 1, r.2 + lowestBit scan)
      rw [Wrapping.add_eq (lt_of_le_of_lt hle h), pure_bind]
      exact ih h

theorem scanBits_lowerAllowed {mask bit : Nat} (hb : bit ≤ 32) :
    (scanBits 32 (lowerAllowed mask bit) (0, 0)).2 < 2 ^ 64 := by
  have hlt : lowerAllowed mask bit < 2 ^ 32 := by
    rw [lowerAllowed_eq, allowedBits]
    exact lt_of_lt_of_le (Nat.mod_lt _ (Nat.two_pow_pos bit)) (Nat.pow_le_pow_right (by decide) hb)
  rw [scanBits_eq hlt (bitCount_le 32 _)]
  simp only [Nat.zero_add]
  omega

theorem maskZeroScan_mono (n mask bit : Nat) (r : MaskStats) (bits : Nat) :
    r.count ≤ (maskZeroScan n mask bit r bits).count ∧
      r.sum ≤ (maskZeroScan n mask bit r bits).sum := by
  induction bit generalizing r bits with
  | zero => simp [maskZeroScan]
  | succ bit ih =>
    rw [maskZeroScan]
    split
    · simp only
      split
      · simp only [Nat.add_assoc]
        simp
      · obtain ⟨hc, hs⟩ := ih _ (bits + 2 ^ bit)
        exact ⟨le_trans (Nat.le_add_right _ _) hc, le_trans (by simp only [Nat.add_assoc]; simp) hs⟩
    · exact ih r bits

theorem maskZeroScan64_eq {n mask bit : Nat} (hb : bit ≤ 32) {r : MaskStats} {bits : Nat}
    (hbits : bits + 2 ^ bit ≤ 2 ^ 64) (hc : (maskZeroScan n mask bit r bits).count < 2 ^ 64)
    (hs : (maskZeroScan n mask bit r bits).sum < 2 ^ 64) :
    maskZeroScan64 n mask bit r bits = pure (maskZeroScan n mask bit r bits) := by
  induction bit generalizing r bits with
  | zero =>
    rw [maskZeroScan64, maskZeroScan, Wrapping.add_eq hc, pure_bind, Wrapping.add_eq hs, pure_bind]
  | succ bit ih =>
    have hpow : 2 ^ (bit + 1) = 2 ^ bit + 2 ^ bit := by ring
    have hpos := Nat.two_pow_pos bit
    rw [maskZeroScan] at hc hs
    rw [maskZeroScan64, maskZeroScan]
    split
    · rename_i ht
      simp only [ht, if_true] at hc hs
      rw [scanBits64_eq (scanBits_lowerAllowed (show bit ≤ 32 by omega)), pure_bind]
      generalize scanBits 32 (lowerAllowed mask bit) (0, 0) = lower at hc hs ⊢
      -- What the later bits add is on top of what this one adds.
      have hgrown : r.count + 2 ^ lower.1 < 2 ^ 64 ∧ r.sum + 2 ^ lower.1 * bits +
          (if lower.1 ≠ 0 then 2 ^ lower.1 / 2 * lower.2 else 0) < 2 ^ 64 := by
        split at hc
        · rename_i hm
          rw [if_pos hm] at hs
          exact ⟨hc, hs⟩
        · rename_i hm
          rw [if_neg hm] at hs
          obtain ⟨hc', hs'⟩ := maskZeroScan_mono n mask bit ⟨r.count + 2 ^ lower.1,
            r.sum + 2 ^ lower.1 * bits + if lower.1 ≠ 0 then 2 ^ lower.1 / 2 * lower.2 else 0⟩
            (bits + 2 ^ bit)
          exact ⟨lt_of_le_of_lt hc' hc, lt_of_le_of_lt hs' hs⟩
      obtain ⟨hcount, hsum⟩ := hgrown
      rw [Wrapping.mul_eq (show 1 * 2 ^ lower.1 < 2 ^ 64 by omega), pure_bind, Nat.one_mul,
        Wrapping.add_eq hcount, pure_bind,
        Wrapping.mul_eq (show 2 ^ lower.1 * bits < 2 ^ 64 by omega), pure_bind,
        Wrapping.add_eq (show r.sum + 2 ^ lower.1 * bits < 2 ^ 64 by omega), pure_bind]
      have hweight : addLower (2 ^ lower.1) lower (r.sum + 2 ^ lower.1 * bits) =
          pure (r.sum + 2 ^ lower.1 * bits +
            if lower.1 ≠ 0 then 2 ^ lower.1 / 2 * lower.2 else 0) := by
        by_cases h0 : lower.1 ≠ 0
        · rw [if_pos h0] at hsum
          rw [addLower, if_pos h0, if_pos h0, Wrapping.mul_eq (by omega), pure_bind,
            Wrapping.add_eq hsum]
        · rw [addLower, if_neg h0, if_neg h0, Nat.add_zero]
      rw [hweight, pure_bind]
      simp only
      split
      · rfl
      · rename_i hm
        rw [if_neg hm] at hc hs
        rw [Wrapping.add_eq (by omega), pure_bind]
        exact ih (by omega) (by omega) hc hs
    · rename_i ht
      rw [if_neg ht] at hc hs
      exact ih (by omega) (by omega) hc hs

theorem zeroCount_add (mask : Nat) {first limit : Nat} (h : first ≤ limit) :
    zeroCount mask first + ((Finset.Ico first limit).filter fun i => i &&& mask = 0).card =
      zeroCount mask limit := by
  have hsum : ∀ m, zeroCount mask m = ∑ i ∈ Finset.range m, if i &&& mask = 0 then 1 else 0 := by
    intro m
    induction m with
    | zero => rfl
    | succ m ih => rw [zeroCount_succ, ih, Finset.sum_range_succ]
  rw [Finset.card_filter, hsum, hsum, Finset.sum_range_add_sum_Ico _ h]

theorem zeroSum_add (mask : Nat) {first limit : Nat} (h : first ≤ limit) :
    zeroSum mask first + ∑ i ∈ (Finset.Ico first limit).filter (fun i => i &&& mask = 0), i =
      zeroSum mask limit := by
  have hsum : ∀ m, zeroSum mask m = ∑ i ∈ Finset.range m, if i &&& mask = 0 then i else 0 := by
    intro m
    induction m with
    | zero => rfl
    | succ m ih => rw [zeroSum_succ, ih, Finset.sum_range_succ]
  rw [Finset.sum_filter, hsum, hsum, Finset.sum_range_add_sum_Ico _ h]

theorem sum_Ico_mul_two {first limit : Nat} (h : first ≤ limit) :
    (∑ i ∈ Finset.Ico first limit, i) * 2 = (limit - first) * (first + limit - 1) := by
  induction limit, h using Nat.le_induction with
  | base => simp
  | succ limit h ih =>
    rw [Finset.sum_Ico_succ_top h, Nat.add_mul, ih]
    obtain ⟨d, rfl⟩ := Nat.exists_eq_add_of_le h
    have h1 : first + d - first = d := by omega
    have h2 : first + d + 1 - first = d + 1 := by omega
    have h3 : first + (first + d + 1) - 1 = first + (first + d) := by omega
    rw [h1, h2, h3]
    cases d with
    | zero =>
      simp
      ring
    | succ d =>
      have h4 : first + (first + (d + 1)) - 1 = first + (first + d) := by omega
      rw [h4]
      ring

theorem zeroCount_le (mask m : Nat) : zeroCount mask m ≤ m := by
  induction m with
  | zero => exact le_rfl
  | succ m ih =>
    rw [zeroCount_succ]
    split <;> omega

theorem zeroSum_le (mask m : Nat) : zeroSum mask m ≤ m * m := by
  induction m with
  | zero => exact le_rfl
  | succ m ih =>
    have hsq : (m + 1) * (m + 1) = m * m + 2 * m + 1 := by ring
    rw [zeroSum_succ, hsq]
    split <;> omega

theorem maskZeroPrefix64_eq {stop mask : Nat} (hs : stop < 2 ^ 31) :
    maskZeroPrefix64 stop mask =
      pure ⟨zeroCount (mask % 2 ^ 31) stop, zeroSum (mask % 2 ^ 31) stop⟩ := by
  have hexact := maskZeroPrefix_eq stop (mask % 2 ^ 31) (by omega) (Nat.mod_lt _ (by decide))
  have hmod : mask % 2 ^ 31 % 2 ^ 31 = mask % 2 ^ 31 := Nat.mod_mod _ _
  rw [maskZeroPrefix, hmod] at hexact
  rw [maskZeroPrefix64]
  split
  · rename_i h0
    rw [if_pos h0] at hexact
    rw [← hexact]
  · rename_i h0
    rw [if_neg h0] at hexact
    have hn : ((stop : Int) - 1).toNat % 2 ^ 32 = ((stop : Int) - 1).toNat :=
      Nat.mod_eq_of_lt (by omega)
    have hc := zeroCount_le (mask % 2 ^ 31) stop
    have hsum := zeroSum_le (mask % 2 ^ 31) stop
    have hsq : stop * stop < 2 ^ 31 * 2 ^ 31 := Nat.mul_lt_mul'' hs hs
    rw [hn, maskZeroScan64_eq (by decide) (by decide) (by rw [hexact]; simp only; omega)
      (by rw [hexact]; simp only; omega), hexact]

theorem toUInt64_eq {n : Nat} (h : n < 2 ^ 64) : toUInt64 n = n := by
  rw [toUInt64]
  omega

theorem rangeEnds_eq {first limit : Nat} (h : first ≤ limit) (hl : limit < 2 ^ 31) :
    rangeEnds first limit (limit - first) =
      pure (if limit - first ≠ 0 then first + limit - 1 else 0) := by
  rw [rangeEnds]
  split
  · rw [toUInt64_eq (by omega), toUInt64_eq (by omega), Wrapping.add_eq (by omega), pure_bind,
      Wrapping.sub_eq (by omega) (by omega)]
  · rfl

theorem halve_mul {a b x : Nat} (h : x * 2 = a * b) : (halve a b).1 * (halve a b).2 = x := by
  rw [halve]
  split
  · obtain ⟨k, rfl⟩ : ∃ k, a = 2 * k := ⟨a / 2, by omega⟩
    have hassoc : 2 * k * b = k * b * 2 := by ring
    simp only [Nat.mul_div_cancel_left k Nat.zero_lt_two]
    omega
  · rename_i ho
    -- The product is even and `a` is not.
    obtain ⟨c, rfl⟩ : ∃ c, a = 2 * c + 1 := ⟨a / 2, by omega⟩
    have hsplit : (2 * c + 1) * b = 2 * (c * b) + b := by ring
    obtain ⟨k, rfl⟩ : ∃ k, b = 2 * k := ⟨x - c * b, by omega⟩
    have hassoc : (2 * c + 1) * (2 * k) = (2 * c + 1) * k * 2 := by ring
    simp only [Nat.mul_div_cancel_left k Nat.zero_lt_two]
    omega

theorem sum_Ico_halved {first limit : Nat} (h : first ≤ limit) :
    let ends := if limit - first ≠ 0 then first + limit - 1 else 0
    (halve (limit - first) ends).1 * (halve (limit - first) ends).2 =
      ∑ i ∈ Finset.Ico first limit, i := by
  apply halve_mul
  rw [sum_Ico_mul_two h]
  split
  · rfl
  · rename_i h0
    rw [not_not.mp h0, Nat.zero_mul, Nat.zero_mul]

theorem maskTrueRange64_eq {first limit : Nat} (h : first ≤ limit) (hl : limit < 2 ^ 31)
    (mask : Nat) : maskTrueRange64 first limit mask =
      pure ⟨((Finset.Ico first limit).filter fun i => i &&& mask ≠ 0).card,
        ∑ i ∈ (Finset.Ico first limit).filter (fun i => i &&& mask ≠ 0), i⟩ := by
  have htotal : (if (limit : Int) > first then toUInt64 (limit - first) else 0) = limit - first := by
    split
    · rw [← Int.ofNat_sub h, toUInt64_eq (by omega)]
    · omega
  -- A number of the range has no bit 31, so the mask may lose it.
  have hlow : ∀ i ∈ Finset.Ico first limit, i &&& mask = i &&& (mask % 2 ^ 31) := by
    intro i hi
    have hi : i < 2 ^ 31 := lt_trans (Finset.mem_Ico.mp hi).2 hl
    rw [← Nat.mod_eq_of_lt (lt_of_le_of_lt Nat.and_le_left hi : i &&& mask < 2 ^ 31),
      Nat.and_mod_two_pow, Nat.mod_eq_of_lt hi]
  have hzero : (Finset.Ico first limit).filter (fun i => i &&& mask = 0) =
      (Finset.Ico first limit).filter fun i => i &&& (mask % 2 ^ 31) = 0 :=
    Finset.filter_congr fun i hi => by rw [hlow i hi]
  have hcount := zeroCount_add (mask % 2 ^ 31) h
  have hsum := zeroSum_add (mask % 2 ^ 31) h
  rw [← hzero] at hcount hsum
  have hcards : ((Finset.Ico first limit).filter fun i => i &&& mask = 0).card +
      ((Finset.Ico first limit).filter fun i => i &&& mask ≠ 0).card = limit - first := by
    rw [← Nat.card_Ico]
    exact Finset.card_filter_add_card_filter_not _
  have hsums : ∑ i ∈ (Finset.Ico first limit).filter (fun i => i &&& mask = 0), i +
      ∑ i ∈ (Finset.Ico first limit).filter (fun i => i &&& mask ≠ 0), i =
      ∑ i ∈ Finset.Ico first limit, i :=
    Finset.sum_filter_add_sum_filter_not _ _ _
  have hsmall : ∑ i ∈ Finset.Ico first limit, i < 2 ^ 64 := by
    have htwice := sum_Ico_mul_two h
    have hprod : (limit - first) * (first + limit - 1) ≤ 2 ^ 31 * 2 ^ 32 :=
      Nat.mul_le_mul (by omega) (by omega)
    omega
  have hle := zeroCount_le (mask % 2 ^ 31) limit
  have hle' := zeroSum_le (mask % 2 ^ 31) limit
  have hsq : limit * limit < 2 ^ 31 * 2 ^ 31 := Nat.mul_lt_mul'' hl hl
  have hhalf := sum_Ico_halved h
  simp only [maskTrueRange64, maskZeroPrefix64_eq hl, maskZeroPrefix64_eq (lt_of_le_of_lt h hl),
    pure_bind, htotal, rangeEnds_eq h hl]
  simp only at hhalf
  rw [Wrapping.mul_eq (hhalf.trans_lt hsmall), hhalf, pure_bind,
    Wrapping.sub_eq (by omega) (by omega), pure_bind, Wrapping.sub_eq (by omega) (by omega),
    pure_bind, Wrapping.sub_eq (by omega) (by omega), pure_bind,
    Wrapping.sub_eq (by omega) (by omega), pure_bind]
  congr 2 <;> omega

theorem trueCount_eq_card (kind : ConditionKind) (t : Int) {first limit : Nat} (h : first ≤ limit) :
    trueCount kind first t (limit - first) =
      ((Finset.Ico first limit).filter fun i : Nat => kind.holds i t).card := by
  induction limit, h using Nat.le_induction with
  | base => simp [trueCount]
  | succ limit h ih =>
    rw [Nat.succ_sub h, trueCount, ih, ← Int.natCast_add, Nat.add_sub_cancel' h,
      ← Finset.insert_Ico_right_eq_Ico_add_one h, Finset.filter_insert]
    split
    · rw [Finset.card_insert_of_notMem (by simp)]
      rfl
    · rfl

/-- The counts of a range are those of its members that meet the condition, their sum is the sum
of these members, and no operation on `uint64_t` wraps. -/
theorem range_counts_are_exact {first limit : Nat} (h : first ≤ limit) (hl : limit ≤ 2 ^ 31 - 1) :
    (∀ mask < 2 ^ 32, maskTrueRange64 first limit mask =
      ⟨⟨((Finset.Ico first limit).filter fun i => i &&& mask ≠ 0).card,
        ∑ i ∈ (Finset.Ico first limit).filter (fun i => i &&& mask ≠ 0), i⟩, false⟩) ∧
    ∀ kind ≠ .mask, ∀ t : Int, -2 ^ 31 ≤ t → t < 2 ^ 31 →
      relationalTrueCount first limit kind t =
        some (((Finset.Ico first limit).filter fun i : Nat => kind.holds i t).card : Int) := by
  constructor
  · intro mask _
    exact maskTrueRange64_eq h (by omega) mask
  · intro kind hk t _ _
    rw [← trueCount_eq_card kind t h, ← relationalTrueCount_eq hk, ← Int.natCast_add,
      Nat.add_sub_cancel' h]

theorem five_counts_are_exact :
    (∀ mask < 2 ^ 32, maskTrueRange64 (3 : Nat) (8 : Nat) mask =
      ⟨⟨((Finset.Ico 3 8).filter fun i => i &&& mask ≠ 0).card,
        ∑ i ∈ (Finset.Ico 3 8).filter (fun i => i &&& mask ≠ 0), i⟩, false⟩) ∧
    ∀ kind ≠ .mask, ∀ t : Int, -2 ^ 31 ≤ t → t < 2 ^ 31 →
      relationalTrueCount (3 : Nat) (8 : Nat) kind t =
        some (((Finset.Ico 3 8).filter fun i : Nat => kind.holds i t).card : Int) :=
  range_counts_are_exact (by decide) (by decide)

end TurboJS.OSR
