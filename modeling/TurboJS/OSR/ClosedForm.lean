import TurboJS.OSR.Iteration
import TurboJS.Foundation.Bits

namespace TurboJS.OSR
open Bytecode Foundation

/-! The closed forms of the scalar-loop runner against the sums they stand for. -/

/-- The sum of the `n` integers from `i`. -/
def rangeSum (i : Int) : Nat → Int
  | 0 => 0
  | n + 1 => rangeSum i n + (i + n)

theorem two_mul_rangeSum (i : Int) (n : Nat) : 2 * rangeSum i n = n * (i + (i + n) - 1) := by
  induction n with
  | zero => simp [rangeSum]
  | succ n ih =>
    simp only [rangeSum, Int.mul_add, ih]
    push_cast
    ring

theorem seriesSum_eq (i : Int) (n : Nat) : seriesSum i (i + n) = rangeSum i n := by
  have h2 := two_mul_rangeSum i n
  simp only [seriesSum]
  have hn : i + n - i = (n : Int) := by omega
  rw [hn]
  split
  · rename_i he
    have hk : (n : Int) = 2 * (n / 2 : Int) := by omega
    have hp : 2 * ((n / 2 : Int) * (i + (i + n) - 1)) = n * (i + (i + n) - 1) := by
      rw [← Int.mul_assoc, ← hk]
    omega
  · rename_i ho
    have hk : i + (i + n) - 1 = 2 * ((i + (i + n) - 1) / 2) := by omega
    have hp : 2 * (n * ((i + (i + n) - 1) / 2)) = n * (i + (i + n) - 1) := by
      rw [Int.mul_left_comm, ← hk]
    omega

theorem total_zero (item : ScalarIntAccumulator) : item.total 0 0 = 0 := by
  unfold ScalarIntAccumulator.total
  cases item.term with
  | induction => cases item.subtract <;> simp [toBits]
  | constant c => simp [toBits]
  | accumulator k => rfl

theorem total_succ (item : ScalarIntAccumulator) (count sum i : Int) :
    item.total (count + 1) (sum + i) = item.total count sum + item.once i := by
  unfold ScalarIntAccumulator.total ScalarIntAccumulator.once
  cases item.term with
  | induction =>
    cases item.subtract <;> simp only [toBits_add, if_true, Bool.false_eq_true, if_false,
      BitVec.neg_add, BitVec.sub_eq_add_neg]
  | constant c =>
    have h1 : toBits 1 = 1#32 := rfl
    simp only [toBits_add]
    rw [h1, BitVec.add_mul, BitVec.one_mul]
  | accumulator k => simp

/-- How many of the `n` integers from `i` meet a condition. -/
def trueCount (kind : ConditionKind) (i t : Int) : Nat → Int
  | 0 => 0
  | n + 1 => trueCount kind i t n + if kind.holds (i + n) t then 1 else 0

def trueSum (kind : ConditionKind) (i t : Int) : Nat → Int
  | 0 => 0
  | n + 1 => trueSum kind i t n + if kind.holds (i + n) t then i + n else 0

/-- What a step adds in the `n` iterations from `i`. -/
def stepSum (step : ConditionalStep) (i t : Int) : Nat → BitVec 32
  | 0 => 0
  | n + 1 => stepSum step i t n + step.once (i + n) t

theorem stepSum_eq (step : ConditionalStep) (i t : Int) (n : Nat) :
    stepSum step i t n =
      step.onTrue.total (trueCount step.conditionKind i t n) (trueSum step.conditionKind i t n) +
        step.onFalse.total (n - trueCount step.conditionKind i t n)
          (rangeSum i n - trueSum step.conditionKind i t n) := by
  induction n with
  | zero => simp [stepSum, trueCount, trueSum, rangeSum, total_zero]
  | succ n ih =>
    simp only [stepSum, trueCount, trueSum, rangeSum, ih, ConditionalStep.once]
    split
    · rw [total_succ]
      have hc : ((n + 1 : Nat) : Int) - (trueCount step.conditionKind i t n + 1) =
          n - trueCount step.conditionKind i t n := by
        push_cast
        ring
      have hs : rangeSum i n + (i + n) - (trueSum step.conditionKind i t n + (i + n)) =
          rangeSum i n - trueSum step.conditionKind i t n := by ring
      rw [hc, hs, BitVec.add_assoc, BitVec.add_assoc, BitVec.add_comm (step.onFalse.total _ _)]
    · have hc : ((n + 1 : Nat) : Int) - (trueCount step.conditionKind i t n + 0) =
          n - trueCount step.conditionKind i t n + 1 := by
        push_cast
        ring
      have hs : rangeSum i n + (i + n) - (trueSum step.conditionKind i t n + 0) =
          rangeSum i n - trueSum step.conditionKind i t n + (i + n) := by ring
      rw [hc, hs, total_succ, Int.add_zero, Int.add_zero, BitVec.add_assoc]

theorem relationalTrueCount_eq {kind : ConditionKind} (hk : kind ≠ .mask) (i t : Int) (n : Nat) :
    relationalTrueCount i (i + n) kind t = some (trueCount kind i t n) := by
  induction n with
  | zero => simp [relationalTrueCount, trueCount]
  | succ n ih =>
    have hn : i + ((n + 1 : Nat) : Int) - i = n + 1 := by
      push_cast
      ring
    have hn' : i + (n : Int) - i = n := by ring
    simp only [relationalTrueCount, hn'] at ih
    simp only [relationalTrueCount, trueCount, hn]
    rw [if_neg (by omega)]
    cases kind <;> simp only [ConditionKind.holds, decide_eq_true_eq, Option.some.injEq] at ih ⊢
    case mask => exact absurd rfl hk
    all_goals
      push_cast
      by_cases h0 : (n : Int) ≤ 0
      · simp only [h0, if_true, Option.some.injEq] at ih
        rw [← ih]
        split_ifs <;> omega
      · simp only [h0, if_false, Option.some.injEq] at ih
        rw [← ih]
        split_ifs <;> omega

theorem scanBits_eq {fuel scan : Nat} (hs : scan < 2 ^ 32) (hf : bitCount 32 scan ≤ fuel)
    (r : Nat × Nat) : scanBits fuel scan r = (r.1 + bitCount 32 scan, r.2 + scan) := by
  induction fuel generalizing scan r with
  | zero =>
    by_cases h0 : scan = 0
    · subst h0
      simp [scanBits, bitCount_zero]
    · have h := (lowest_bit h0 hs).2
      omega
  | succ fuel ih =>
    unfold scanBits
    split
    · rename_i h0
      subst h0
      simp [bitCount_zero]
    · rename_i h0
      obtain ⟨hsum, hcount⟩ := lowest_bit h0 hs
      rw [lowestBit, ih (by omega) (by omega)]
      simp only [Prod.mk.injEq]
      omega

theorem lowerAllowed_eq (mask bit : Nat) : lowerAllowed mask bit = allowedBits 32 mask bit := by
  rw [lowerAllowed, allowedBits, Nat.and_two_pow_sub_one_eq_mod]

theorem scan_block {mask bit : Nat} (hm : mask < 2 ^ 32) (hb : bit ≤ 32) :
    2 ^ (scanBits 32 (lowerAllowed mask bit) (0, 0)).1 = zeroCount mask (2 ^ bit) ∧
      (if (scanBits 32 (lowerAllowed mask bit) (0, 0)).1 ≠ 0 then
        2 ^ (scanBits 32 (lowerAllowed mask bit) (0, 0)).1 / 2 *
          (scanBits 32 (lowerAllowed mask bit) (0, 0)).2 else 0) = zeroSum mask (2 ^ bit) := by
  obtain ⟨hc, hs⟩ := zero_first_block hm hb
  have hlt : allowedBits 32 mask bit < 2 ^ 32 :=
    Nat.lt_of_lt_of_le (Nat.mod_lt _ (Nat.two_pow_pos bit)) (Nat.pow_le_pow_right (by decide) hb)
  have hscan := scanBits_eq hlt (bitCount_le 32 _) (0, 0)
  simp only [Nat.zero_add] at hscan
  rw [lowerAllowed_eq, hscan]
  refine ⟨hc.symm, ?_⟩
  rw [hc] at hs
  cases hbits : bitCount 32 (allowedBits 32 mask bit) with
  | zero =>
    -- Without an allowed bit only zero avoids the mask.
    have hzero : allowedBits 32 mask bit = 0 := by
      by_contra hne
      have := (lowest_bit hne hlt).2
      omega
    rw [hzero, Nat.mul_zero] at hs
    simp
    omega
  | succ k =>
    rw [hbits] at hs
    have hpow : 2 ^ (k + 1) / 2 = 2 ^ k := by
      rw [Nat.pow_succ, Nat.mul_div_cancel _ Nat.zero_lt_two]
    have hsum : 2 ^ (k + 1) * allowedBits 32 mask bit = 2 * (2 ^ k * allowedBits 32 mask bit) := by
      ring
    simp only [Nat.succ_ne_zero, ne_eq, not_false_eq_true, if_true, hpow]
    omega

/-- The scan of the bits of `n` counts and sums up to `n`: `bits` is `n` with the bits below
`bit` cleared, and the result so far is for the numbers below it. -/
theorem maskZeroScan_eq {n mask : Nat} (hm : mask < 2 ^ 32) {bit : Nat} (hb : bit ≤ 32)
    {r : MaskStats} (hbits : 2 ^ bit * (n / 2 ^ bit) &&& mask = 0)
    (hr : r = ⟨zeroCount mask (2 ^ bit * (n / 2 ^ bit)), zeroSum mask (2 ^ bit * (n / 2 ^ bit))⟩) :
    maskZeroScan n mask bit r (2 ^ bit * (n / 2 ^ bit)) =
      ⟨zeroCount mask (n + 1), zeroSum mask (n + 1)⟩ := by
  induction bit generalizing r with
  | zero =>
    simp only [Nat.pow_zero, Nat.div_one, Nat.one_mul] at hbits hr ⊢
    simp [maskZeroScan, hr, zeroCount_succ, zeroSum_succ, hbits]
  | succ bit ih =>
    -- The aligned part of `n` at this bit, from the one above it.
    have hdiv : n / 2 ^ bit = 2 * (n / 2 ^ (bit + 1)) + (n.testBit bit).toNat := by
      rw [Nat.toNat_testBit, Nat.pow_succ, ← Nat.div_div_eq_div_mul]
      omega
    have hpow : 2 ^ (bit + 1) * (n / 2 ^ (bit + 1)) = 2 ^ bit * (2 * (n / 2 ^ (bit + 1))) := by ring
    unfold maskZeroScan
    cases ht : n.testBit bit with
    | false =>
      rw [ht] at hdiv
      simp only [Bool.toNat_false, Nat.add_zero] at hdiv
      rw [hpow, ← hdiv] at hbits hr ⊢
      simp only [Bool.false_eq_true, if_false]
      exact ih (by omega) hbits hr
    | true =>
      rw [ht] at hdiv
      simp only [Bool.toNat_true] at hdiv
      have halign : 2 ^ bit * (n / 2 ^ bit) = 2 ^ (bit + 1) * (n / 2 ^ (bit + 1)) + 2 ^ bit := by
        rw [hdiv, hpow]
        ring
      obtain ⟨hc, hs⟩ := scan_block hm (show bit ≤ 32 by omega)
      rw [hpow] at hbits
      obtain ⟨hzc, hzs⟩ := zero_block hbits (Nat.le_refl _)
      rw [← hpow, ← halign] at hzc hzs
      have hr' : (⟨r.count + 2 ^ (scanBits 32 (lowerAllowed mask bit) (0, 0)).1,
          r.sum + 2 ^ (scanBits 32 (lowerAllowed mask bit) (0, 0)).1 *
              (2 ^ (bit + 1) * (n / 2 ^ (bit + 1))) +
            if (scanBits 32 (lowerAllowed mask bit) (0, 0)).1 ≠ 0 then
              2 ^ (scanBits 32 (lowerAllowed mask bit) (0, 0)).1 / 2 *
                (scanBits 32 (lowerAllowed mask bit) (0, 0)).2 else 0⟩ : MaskStats) =
          ⟨zeroCount mask (2 ^ bit * (n / 2 ^ bit)), zeroSum mask (2 ^ bit * (n / 2 ^ bit))⟩ := by
        rw [hs, hc, hr, hzc, hzs]
      simp only [if_true]
      rw [hr', ← halign]
      split
      · rename_i hmask
        -- Every number from here to `n` has this bit.
        have hmeet : 2 ^ bit * (n / 2 ^ bit) &&& mask ≠ 0 := by
          intro hz
          have hbit := congrArg (fun x => x.testBit bit) hz
          simp only [Nat.testBit_and, hmask, Nat.zero_testBit, Bool.and_true] at hbit
          rw [Nat.testBit_two_pow_mul] at hbit
          simp [hdiv] at hbit
        have hle : 2 ^ bit * (n / 2 ^ bit) ≤ n := Nat.mul_div_le n (2 ^ bit)
        have hlt : n < 2 ^ bit * (n / 2 ^ bit) + 2 ^ bit := by
          have := Nat.lt_mul_div_succ n (Nat.two_pow_pos bit)
          rwa [Nat.mul_succ] at this
        obtain ⟨m, hm'⟩ : ∃ m, n + 1 = 2 ^ bit * (n / 2 ^ bit) + m :=
          ⟨n + 1 - 2 ^ bit * (n / 2 ^ bit), by omega⟩
        obtain ⟨h1, h2⟩ := zero_block_masked hmeet (show m ≤ 2 ^ bit by omega)
        rw [hm', h1, h2]
      · rename_i hmask
        refine ih (by omega) ?_ rfl
        have hlt : 2 ^ bit < 2 ^ (bit + 1) := Nat.pow_lt_pow_succ (by decide)
        rw [halign, block_and hlt, hpow, hbits, Nat.zero_or]
        exact two_pow_and_eq_zero.mpr (by simpa using hmask)

theorem maskZeroPrefix_eq (stop mask : Nat) (hs : stop ≤ 2 ^ 31) (hm : mask < 2 ^ 31) :
    maskZeroPrefix stop mask = ⟨zeroCount mask stop, zeroSum mask stop⟩ := by
  unfold maskZeroPrefix
  split
  · rename_i h0
    have hz : stop = 0 := by omega
    subst hz
    rfl
  · rename_i h0
    obtain ⟨n, rfl⟩ : ∃ n, stop = n + 1 := ⟨stop - 1, by omega⟩
    have hn : (((n + 1 : Nat) : Int) - 1).toNat = n := by omega
    have hzero : 2 ^ 31 * (n / 2 ^ 31) = 0 := by
      rw [Nat.div_eq_of_lt (by omega), Nat.mul_zero]
    have h := maskZeroScan_eq (n := n) (show mask < 2 ^ 32 by omega) (show 31 ≤ 32 by decide)
      (r := ⟨0, 0⟩) (by rw [hzero, Nat.zero_and]) (by rw [hzero]; rfl)
    rw [hzero] at h
    rw [hn, Nat.mod_eq_of_lt hm, h]

theorem toNat_toBits {i : Int} (h0 : 0 ≤ i) (h1 : i ≤ int32Max) : (toBits i).toNat = i.toNat := by
  simp only [int32Max] at h1
  rw [toBits, BitVec.toNat_ofInt]
  omega

theorem holds_mask {i t : Int} (hi : 0 ≤ i) (hi' : i ≤ int32Max) (ht : 0 ≤ t) (ht' : t ≤ int32Max) :
    ConditionKind.mask.holds i t = decide (¬ i.toNat &&& t.toNat = 0) := by
  simp only [ConditionKind.holds, ne_eq, decide_eq_decide, not_iff_not]
  rw [← BitVec.toNat_inj, BitVec.toNat_and, toNat_toBits hi hi', toNat_toBits ht ht']
  rfl

theorem trueCount_mask {i t : Int} (hi : 0 ≤ i) (ht : 0 ≤ t) (ht' : t ≤ int32Max) (n : Nat)
    (hn : i + n ≤ int32Max) :
    trueCount .mask i t n =
        n - ((zeroCount t.toNat (i + n).toNat : Int) - zeroCount t.toNat i.toNat) ∧
      trueSum .mask i t n =
        rangeSum i n - ((zeroSum t.toNat (i + n).toNat : Int) - zeroSum t.toNat i.toNat) := by
  induction n with
  | zero => simp [trueCount, trueSum, rangeSum]
  | succ n ih =>
    push_cast at hn
    obtain ⟨h1, h2⟩ := ih (by omega)
    have hsucc : (i + ((n + 1 : Nat) : Int)).toNat = (i + n).toNat + 1 := by omega
    have hcast : ((i + n).toNat : Int) = i + n := by omega
    rw [trueCount, trueSum, rangeSum, hsucc, zeroCount_succ, zeroSum_succ, h1, h2,
      holds_mask (by omega) (by omega) ht ht']
    by_cases hz : (i + n).toNat &&& t.toNat = 0
    · simp only [hz, not_true_eq_false, decide_false, Bool.false_eq_true, if_false, if_true]
      push_cast
      rw [hcast]
      constructor <;> ring
    · simp only [hz, not_false_eq_true, decide_true, if_true, if_false]
      push_cast
      constructor <;> ring

theorem maskTrueRange_eq {i t : Int} (hi : 0 ≤ i) (ht : 0 ≤ t) (ht' : t ≤ int32Max) (n : Nat)
    (hn : i + n ≤ int32Max) :
    maskTrueRange i (i + n) t.toNat = (trueCount .mask i t n, trueSum .mask i t n) := by
  obtain ⟨h1, h2⟩ := trueCount_mask hi ht ht' n hn
  simp only [int32Max] at hn ht'
  have hlo := maskZeroPrefix_eq i.toNat t.toNat (by omega) (by omega)
  have hhi := maskZeroPrefix_eq (i + n).toNat t.toNat (by omega) (by omega)
  rw [Int.toNat_of_nonneg hi] at hlo
  rw [Int.toNat_of_nonneg (by omega)] at hhi
  simp only [maskTrueRange, hlo, hhi, seriesSum_eq, h1, h2, Prod.mk.injEq, and_true]
  ring

theorem closed_eq {step : ConditionalStep} {i t : Int} {n : Nat} {x : BitVec 32} (hi : 0 ≤ i)
    (hn : i + n ≤ int32Max) (hm : step.conditionKind = .mask → 0 ≤ t ∧ t ≤ int32Max)
    (h : step.closed i (i + n) t = some x) : x = stepSum step i t n := by
  have hcount : i + (n : Int) - i = n := by ring
  rw [stepSum_eq]
  by_cases hk : step.conditionKind = .mask
  · obtain ⟨ht, ht'⟩ := hm hk
    simp only [ConditionalStep.closed, hk, maskTrueRange_eq hi ht ht' n hn, Option.some.injEq,
      hcount, seriesSum_eq] at h
    rw [hk, ← h]
  · have hrel : step.closed i (i + n) t =
        if step.onTrue.term.isInduction ∨ step.onFalse.term.isInduction then none
        else some (step.onTrue.total (trueCount step.conditionKind i t n) 0 +
          step.onFalse.total (n - trueCount step.conditionKind i t n) 0) := by
      have hc := relationalTrueCount_eq hk i t n
      unfold ConditionalStep.closed
      split
      · rename_i hk'
        exact absurd hk' hk
      · rw [hc, hcount]
        rfl
    rw [hrel] at h
    split at h
    · cases h
    · rename_i hterm
      simp only [not_or, Bool.not_eq_true] at hterm
      have hconst : ∀ (a : ScalarIntAccumulator), a.term.isInduction = false →
          ∀ count sum, a.total count sum = a.total count 0 := by
        intro a ha count sum
        unfold ScalarIntAccumulator.total
        cases hterm : a.term with
        | induction =>
          rw [hterm] at ha
          simp [Term.isInduction] at ha
        | constant c => rfl
        | accumulator k => rfl
      simp only [Option.some.injEq] at h
      rw [← h, hconst step.onTrue hterm.1 _ (trueSum _ _ _ _),
        hconst step.onFalse hterm.2 _ (rangeSum i n - _)]

end TurboJS.OSR
