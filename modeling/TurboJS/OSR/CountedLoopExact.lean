import Mathlib.Algebra.BigOperators.Group.Finset.Basic
import Mathlib.Tactic.Ring
import TurboJS.OSR.CountedKernel

namespace TurboJS.OSR.Counted
open IR Foundation Entry

/-! A counted loop that the entry admits: what its kernel computes, and when that is what the
specification says. -/

/-! ## Runs of the kernel -/

theorem Runs.operation {env : Env} {code : List Op} {m t u : Machine} (off : Nat) (op : Op)
    (hpc : m.pc = off) (hop : itemAt Op.size code off = some op)
    (hexec : op.exec env m (off + op.size) = some t)
    (rest : Runs (stepMachine env code) (fun _ => True) t u) :
    Runs (stepMachine env code) (fun _ => True) m u := by
  refine .head trivial ?_ rest
  rw [stepMachine, if_pos (by omega), hpc, Int.toNat_natCast, hop, Option.bind_some, hexec]

theorem turns_le {env : Env} {code : List Op} {m m' : Machine}
    (h : stepMachine env code m = some m') : m.turns ≤ m'.turns := by
  unfold stepMachine at h
  split at h
  · obtain ⟨op, -, hop⟩ := Option.bind_eq_some_iff.mp h
    cases op with
    | load d index =>
      simp only [Op.exec] at hop
      split at hop
      · obtain ⟨v, -, rfl⟩ := Option.map_eq_some_iff.mp hop
        cases d <;> exact Nat.le_refl _
      · cases hop
    | loadXmm0 index =>
      simp only [Op.exec] at hop
      split at hop
      · obtain ⟨v, -, rfl⟩ := Option.map_eq_some_iff.mp hop
        exact Nat.le_refl _
      · cases hop
    | jmp disp =>
      cases hop
      exact Nat.le_succ _
    | _ => grind [Op.exec]
  · cases h

theorem Halts.stuck {env : Env} {code : List Op} {m m' : Machine} (h : Halts env code m m') :
    stepMachine env code m' = none := by
  obtain ⟨-, hret, hpc, -⟩ := h
  rw [stepMachine, if_pos hpc, hret, Option.bind_some]
  rfl

theorem Halts.unique {env : Env} {code : List Op} {m m₁ m₂ : Machine}
    (h₁ : Halts env code m m₁) (h₂ : Halts env code m m₂) : m₁ = m₂ :=
  h₁.1.moving.exit_unique h₂.1.moving (fun h => h h₁.stuck) (fun h => h h₂.stuck)

section

variable {env : Env} {s : CountedLoopSpec} {m : Machine}

def turn (s : CountedLoopSpec) (m : Machine) : Machine :=
  { m with
    pc := 31, rax := m.rax + s.step.signExtend 64, rdx := m.rdx + m.rax, compared := (m.rax, m.rcx),
    turns := m.turns + 1 }

theorem turn_runs (hpc : m.pc = 31) (hgo : s.comparison.holds m.rax m.rcx = true) :
    Runs (stepMachine env (int64Kernel s)) (fun _ => True) m (turn s m) := by
  refine Runs.operation 31 .cmpRaxRcx hpc rfl rfl ?_
  refine Runs.operation 34 (.exitUnless s.comparison 15) rfl rfl (by rw [Op.exec, if_pos hgo]) ?_
  refine Runs.operation 40 .addRdxRax rfl rfl rfl ?_
  refine Runs.operation 43 (.addRaxImm s.step) rfl rfl rfl ?_
  refine Runs.operation 50 (.jmp (-24)) rfl rfl rfl ?_
  exact .refl _

def left (s : CountedLoopSpec) (m : Machine) : Machine :=
  { m with
    pc := 71, rax := 0, compared := (m.rax, m.rcx)
    locals := setBits (setBits m.locals s.inductionLocal m.rax) s.accumulatorLocal m.rdx }

theorem left_halts (hpc : m.pc = 31) (hstop : s.comparison.holds m.rax m.rcx = false)
    (hr9 : m.r9 = true) (hi : s.inductionLocal < m.locals.length)
    (ha : s.accumulatorLocal < m.locals.length) :
    Halts env (int64Kernel s) m (left s m) := by
  have hi' : m.r9 = true ∧ s.inductionLocal < m.locals.length := ⟨hr9, hi⟩
  have ha' : m.r9 = true ∧
      s.accumulatorLocal < (setBits m.locals s.inductionLocal m.rax).length := by
    rw [setBits, List.length_modify]
    exact ⟨hr9, ha⟩
  refine ⟨?_, rfl, Int.natCast_nonneg 71, rfl⟩
  refine Runs.operation 31 .cmpRaxRcx hpc rfl rfl ?_
  refine Runs.operation 34 (.exitUnless s.comparison 15) rfl rfl
    (by rw [Op.exec, if_neg (by simp [hstop])]) ?_
  refine Runs.operation 55 (.store s.inductionLocal .rax) rfl rfl (if_pos hi') ?_
  refine Runs.operation 62 (.store s.accumulatorLocal .rdx) rfl rfl (if_pos ha') ?_
  refine Runs.operation 69 .xorEax rfl rfl rfl ?_
  exact .refl _

def atHead (frame : OSRFrame) (xmm0 xmm1 : Word) (compared : Word × Word)
    (induction limit accumulator : OSRValue) : Machine :=
  ⟨31, induction.bits, limit.bits, accumulator.bits, xmm0, xmm1, compared, true, true,
    frame.locals, 0⟩

theorem enterKernel_runs {frame : OSRFrame} {registers : Register → Word} {xmm0 xmm1 : Word}
    {compared : Word × Word} {induction limit accumulator : OSRValue}
    (hi : frame.locals[s.inductionLocal]? = some induction)
    (hl : frame.locals[s.limitLocal]? = some limit)
    (ha : frame.locals[s.accumulatorLocal]? = some accumulator) :
    Runs (stepMachine env (int64Kernel s)) (fun _ => True)
      (enterKernel frame registers xmm0 xmm1 compared)
      (atHead frame xmm0 xmm1 compared induction limit accumulator) := by
  refine Runs.operation 0 .frameToR8 rfl rfl rfl ?_
  refine Runs.operation 3 .localsToR9 rfl rfl rfl ?_
  refine Runs.operation 10 (.load .rax s.inductionLocal) rfl rfl
    (congrArg (Option.map _) hi) ?_
  refine Runs.operation 17 (.load .rcx s.limitLocal) rfl rfl (congrArg (Option.map _) hl) ?_
  refine Runs.operation 24 (.load .rdx s.accumulatorLocal) rfl rfl
    (congrArg (Option.map _) ha) ?_
  exact .refl _

end

section

variable (s : CountedLoopSpec) (m : Machine)

theorem turns_frame (hpc : m.pc = 31) (k : Nat) :
    ((turn s)^[k] m).pc = 31 ∧ ((turn s)^[k] m).rcx = m.rcx ∧
      ((turn s)^[k] m).r9 = m.r9 ∧ ((turn s)^[k] m).locals = m.locals ∧
      ((turn s)^[k] m).turns = m.turns + k := by
  induction k with
  | zero => exact ⟨hpc, rfl, rfl, rfl, rfl⟩
  | succ k ih =>
    rw [Function.iterate_succ_apply']
    obtain ⟨-, hrcx, hr9, hlocals, hturns⟩ := ih
    exact ⟨rfl, hrcx, hr9, hlocals, congrArg Nat.succ hturns⟩

def inductionAt (initial step : Int) (k : Nat) : Int := initial + k * step

theorem turns_rax (k : Nat) :
    ((turn s)^[k] m).rax = BitVec.ofInt 64 (inductionAt m.rax.toInt s.step.toInt k) := by
  induction k with
  | zero => simp [inductionAt]
  | succ k ih =>
    rw [Function.iterate_succ_apply']
    show ((turn s)^[k] m).rax + s.step.signExtend 64 = _
    have hstep : s.step.signExtend 64 = BitVec.ofInt 64 s.step.toInt := rfl
    rw [ih, hstep, ← BitVec.ofInt_add]
    congr 1
    simp only [inductionAt, Nat.cast_succ]
    ring

theorem turns_rdx (k : Nat) :
    ((turn s)^[k] m).rdx = m.rdx +
      BitVec.ofInt 64 (∑ j ∈ Finset.range k, inductionAt m.rax.toInt s.step.toInt j) := by
  induction k with
  | zero => simp
  | succ k ih =>
    rw [Function.iterate_succ_apply']
    show ((turn s)^[k] m).rdx + ((turn s)^[k] m).rax = _
    rw [ih, turns_rax, Finset.sum_range_succ, BitVec.ofInt_add, BitVec.add_assoc]

end

def FitsInt64 (z : Int) : Prop := -2 ^ 63 ≤ z ∧ z < 2 ^ 63

instance (z : Int) : Decidable (FitsInt64 z) := inferInstanceAs (Decidable (_ ∧ _))

def LoopComparison.distance (c : LoopComparison) (induction limit : Int) : Int :=
  match c with
  | .lt | .lte => limit - induction
  | .gt | .gte => induction - limit

def LoopComparison.strict : LoopComparison → Bool
  | .lt | .gt => true
  | .lte | .gte => false

def LoopComparison.slack (c : LoopComparison) : Int := if c.strict then 0 else 1

def exactIterations (c : LoopComparison) (induction limit step : Int) : Nat :=
  let distance := c.distance induction limit
  if c.strict then if distance ≤ 0 then 0 else ((distance + |step| - 1) / |step|).toNat
  else if distance < 0 then 0 else (distance / |step| + 1).toNat

def LoopComparison.Towards (c : LoopComparison) (step : Int) : Prop :=
  match c with
  | .lt | .lte => 0 < step
  | .gt | .gte => step < 0

theorem holds_iff (c : LoopComparison) (w l : Word) :
    c.holds w l = true ↔ 0 < c.distance w.toInt l.toInt + c.slack := by
  cases c <;>
    simp [LoopComparison.holds, LoopComparison.distance, LoopComparison.slack,
      LoopComparison.strict, BitVec.slt_iff_toInt_lt, BitVec.sle_iff_toInt_le] <;> omega

theorem distance_inductionAt {c : LoopComparison} {initial limit step : Int}
    (hc : c.Towards step) (k : Nat) :
    c.distance (inductionAt initial step k) limit = c.distance initial limit - k * |step| := by
  cases c <;> simp only [LoopComparison.Towards] at hc <;>
    simp only [LoopComparison.distance, inductionAt]
  case lt | lte =>
    rw [abs_of_pos hc]
    ring
  case gt | gte =>
    rw [abs_of_neg hc]
    ring

theorem Towards.width_pos {c : LoopComparison} {step : Int} (hc : c.Towards step) : 0 < |step| := by
  cases c <;> simp only [LoopComparison.Towards] at hc <;> exact abs_pos.mpr (by omega)

theorem goes_on_iff {c : LoopComparison} {initial limit step : Int} (hc : c.Towards step)
    (k : Nat) :
    0 < c.distance (inductionAt initial step k) limit + c.slack ↔
      k < exactIterations c initial limit step := by
  have hd := Towards.width_pos hc
  rw [distance_inductionAt hc, exactIterations]
  generalize c.distance initial limit = distance
  generalize |step| = d at hd ⊢
  have hback : 0 ≤ k * d := Int.mul_nonneg (Int.natCast_nonneg k) (Int.le_of_lt hd)
  have hrounds (numerator : Int) : k < (numerator / d).toNat ↔ (k + 1) * d ≤ numerator := by
    rw [Int.lt_toNat, ← Int.add_one_le_iff, Int.le_ediv_iff_mul_le hd]
  have hnext : ((k : Int) + 1) * d = k * d + d := by ring
  cases hs : c.strict with
  | true =>
    simp only [LoopComparison.slack, hs, if_true]
    by_cases hnone : distance ≤ 0
    · simp only [hnone, if_true, Nat.not_lt_zero, iff_false]
      omega
    · rw [if_neg hnone, hrounds, hnext]
      omega
  | false =>
    simp only [LoopComparison.slack, hs, Bool.false_eq_true, if_false]
    by_cases hnone : distance < 0
    · simp only [hnone, if_true, Nat.not_lt_zero, iff_false]
      omega
    · have hone : distance / d + 1 = (distance + d) / d := by
        rw [Int.add_ediv_of_dvd_right (Int.dvd_refl d), Int.ediv_self (by omega)]
      rw [if_neg hnone, hone, hrounds, hnext]
      omega

theorem inductionAt_succ (initial step : Int) (k : Nat) :
    inductionAt initial step (k + 1) = inductionAt initial step k + step := by
  simp only [inductionAt, Nat.cast_succ]
  ring

theorem fits_of_lt {c : LoopComparison} {initial limit step : Int} (hc : c.Towards step) {k : Nat}
    (hi : FitsInt64 initial) (hl : FitsInt64 limit)
    (hk : k < exactIterations c initial limit step) : FitsInt64 (inductionAt initial step k) := by
  have hgo := (goes_on_iff hc k).mpr hk
  unfold FitsInt64 at *
  cases c <;> simp only [LoopComparison.Towards] at hc <;>
    simp only [LoopComparison.distance, LoopComparison.slack, LoopComparison.strict, if_true,
      Bool.false_eq_true, if_false] at hgo
  case lt | lte =>
    have hfar : 0 ≤ k * step := Int.mul_nonneg (Int.natCast_nonneg k) (Int.le_of_lt hc)
    simp only [inductionAt] at hgo ⊢
    omega
  case gt | gte =>
    have hfar : k * step ≤ 0 :=
      Int.mul_nonpos_of_nonneg_of_nonpos (Int.natCast_nonneg k) (Int.le_of_lt hc)
    simp only [inductionAt] at hgo ⊢
    omega

theorem toInt_ofInt_of_fits {z : Int} (h : FitsInt64 z) : (BitVec.ofInt 64 z).toInt = z := by
  unfold FitsInt64 at h
  rw [BitVec.toInt_ofInt, Int.bmod_eq_of_le] <;> simp <;> omega

theorem fits_toInt (w : Word) : FitsInt64 w.toInt := by
  have hle := BitVec.le_toInt w
  have hlt := BitVec.toInt_lt (x := w)
  unfold FitsInt64
  omega

theorem goes_on_of_wraps {c : LoopComparison} {initial limit : Word} {step : BitVec 32}
    (hc : c.Towards step.toInt) {n : Nat}
    (hn : n = exactIterations c initial.toInt limit.toInt step.toInt)
    (hout : ¬ FitsInt64 (inductionAt initial.toInt step.toInt n)) :
    c.holds (BitVec.ofInt 64 (inductionAt initial.toInt step.toInt n)) limit = true := by
  cases n with
  | zero => exact absurd (by simpa [inductionAt] using fits_toInt initial) hout
  | succ n =>
    have hlast : n < exactIterations c initial.toInt limit.toInt step.toInt := by omega
    have hfits := fits_of_lt hc (fits_toInt initial) (fits_toInt limit) hlast
    have hgo := (goes_on_iff hc n).mpr hlast
    have hl := fits_toInt limit
    have hlow := BitVec.le_toInt step
    have hhigh := BitVec.toInt_lt (x := step)
    rw [inductionAt_succ] at hout ⊢
    rw [holds_iff, BitVec.toInt_ofInt]
    generalize inductionAt initial.toInt step.toInt n = value at *
    unfold FitsInt64 at *
    cases c <;> simp only [LoopComparison.Towards] at hc <;>
      simp only [LoopComparison.distance, LoopComparison.slack, LoopComparison.strict, if_true,
        Bool.false_eq_true, if_false] at hgo ⊢ <;>
      simp only [Int.bmod_def] <;> omega

theorem holds_of_lt {c : LoopComparison} {initial limit : Word} {step : BitVec 32}
    (hc : c.Towards step.toInt) {k : Nat}
    (hk : k < exactIterations c initial.toInt limit.toInt step.toInt) :
    c.holds (BitVec.ofInt 64 (inductionAt initial.toInt step.toInt k)) limit = true := by
  rw [holds_iff, toInt_ofInt_of_fits (fits_of_lt hc (fits_toInt initial) (fits_toInt limit) hk)]
  exact (goes_on_iff hc k).mpr hk

theorem stops_of_fits {c : LoopComparison} {initial limit : Word} {step : BitVec 32}
    (hc : c.Towards step.toInt) {n : Nat}
    (hn : n = exactIterations c initial.toInt limit.toInt step.toInt)
    (hfits : FitsInt64 (inductionAt initial.toInt step.toInt n)) :
    c.holds (BitVec.ofInt 64 (inductionAt initial.toInt step.toInt n)) limit = false := by
  rw [Bool.eq_false_iff, Ne, holds_iff, toInt_ofInt_of_fits hfits, goes_on_iff hc, hn]
  exact Nat.lt_irrefl _

/-- `countIterations` for one direction: `width` is the step without its sign. -/
def countTowards (strict : Bool) (gone : Bool) (distance width : Word) : Word :=
  if gone then 0 else if strict then (distance + width - 1) / width else distance / width + 1

theorem toNat_countTowards {strict gone : Bool} {distance width : Word}
    (hd : ¬ gone → distance.toNat < 2 ^ 63) (hw : 0 < width.toNat ∧ width.toNat ≤ 2 ^ 31) :
    (countTowards strict gone distance width).toNat =
      if gone then 0 else if strict then (distance.toNat + width.toNat - 1) / width.toNat
        else distance.toNat / width.toNat + 1 := by
  unfold countTowards
  have hone : (1 : Word).toNat = 1 := rfl
  cases gone with
  | true => rfl
  | false =>
    have hd := hd (by simp)
    cases strict with
    | true =>
      simp only [Bool.false_eq_true, if_false, if_true, BitVec.toNat_udiv]
      congr 1
      rw [BitVec.toNat_sub, BitVec.toNat_add]
      omega
    | false =>
      have hq := Nat.div_le_self distance.toNat width.toNat
      simp only [Bool.false_eq_true, if_false, BitVec.toNat_add, BitVec.toNat_udiv]
      generalize distance.toNat / width.toNat = q at hq
      omega

theorem toNat_sub_of_le {x y : Word} (hle : y.toInt ≤ x.toInt) :
    ((x - y).toNat : Int) = x.toInt - y.toInt := by
  rw [BitVec.toNat_sub]
  have hx := BitVec.toInt_eq_toNat_cond x
  have hy := BitVec.toInt_eq_toNat_cond y
  have hxlt := x.isLt
  have hylt := y.isLt
  split at hx <;> split at hy <;> omega

theorem toNat_width_pos {step : BitVec 32} (h : 0 < step.toInt) :
    ((step.setWidth 64).toNat : Int) = |step.toInt| := by
  rw [BitVec.toNat_setWidth, abs_of_pos h]
  have hs := BitVec.toInt_eq_toNat_cond step
  have hslt := step.isLt
  split at hs <;> omega

theorem toNat_width_neg {step : BitVec 32} (h : step.toInt < 0) :
    ((((-(step.signExtend 64)).setWidth 32).setWidth 64).toNat : Int) = |step.toInt| := by
  rw [abs_of_neg h, BitVec.toNat_setWidth, BitVec.toNat_setWidth, BitVec.toNat_neg]
  have hext : (step.signExtend 64).toInt = step.toInt := BitVec.toInt_signExtend_of_le (by omega)
  have hs := BitVec.toInt_eq_toNat_cond (step.signExtend 64)
  have hslt := (step.signExtend 64).isLt
  have hlow := BitVec.le_toInt step
  split at hs <;> omega

def LoopComparison.distanceWord (c : LoopComparison) (induction limit : Word) : Word :=
  match c with
  | .lt | .lte => limit - induction
  | .gt | .gte => induction - limit

theorem countIterations_eq {s : CountedLoopSpec} {induction limit n : Word} (hstep : s.step ≠ 0)
    (h : countIterations s induction limit = some n) :
    s.comparison.Towards s.step.toInt ∧ ∃ width : Word, (width.toNat : Int) = |s.step.toInt| ∧
      n = countTowards s.comparison.strict (!s.comparison.holds induction limit)
        (s.comparison.distanceWord induction limit) width := by
  unfold countIterations at h
  split at h
  · rename_i hslt
    have hpos : 0 < s.step.toInt := by simpa [BitVec.slt_iff_toInt_lt] using hslt
    cases hc : s.comparison with
    | lt | lte =>
      refine ⟨hpos, s.step.setWidth 64, toNat_width_pos hpos, ?_⟩
      simp only [hc, BitVec.sle_eq_not_slt] at h
      simp only [LoopComparison.holds, BitVec.sle_eq_not_slt]
      split at h <;>
        simp_all [countTowards, LoopComparison.strict, LoopComparison.distanceWord]
    | gt | gte => simp [hc] at h
  · rename_i hslt
    have hne : s.step.toInt ≠ 0 := fun hzero =>
      hstep (BitVec.eq_of_toInt_eq (by simpa using hzero))
    have hneg : s.step.toInt < 0 := by
      have hnot : ¬ 0 < s.step.toInt := by simpa [BitVec.slt_iff_toInt_lt] using hslt
      omega
    cases hc : s.comparison with
    | lt | lte => simp [hc] at h
    | gt | gte =>
      refine ⟨hneg, _, toNat_width_neg hneg, ?_⟩
      simp only [hc, BitVec.sle_eq_not_slt] at h
      simp only [LoopComparison.holds, BitVec.sle_eq_not_slt]
      split at h <;>
        simp_all [countTowards, LoopComparison.strict, LoopComparison.distanceWord]

theorem holds_distance {c : LoopComparison} {induction limit : Word}
    (h : c.holds induction limit = true) :
    0 ≤ c.distance induction.toInt limit.toInt ∧
      ((c.distanceWord induction limit).toNat : Int) =
        c.distance induction.toInt limit.toInt := by
  rw [holds_iff] at h
  have hpos : 0 ≤ c.distance induction.toInt limit.toInt := by
    cases c <;> simp only [LoopComparison.slack, LoopComparison.strict, if_true,
      Bool.false_eq_true, if_false] at h <;> omega
  refine ⟨hpos, ?_⟩
  cases c <;> simp only [LoopComparison.distance] at hpos <;>
    exact toNat_sub_of_le (by omega)

theorem countIterations_exact {s : CountedLoopSpec} {induction limit n : Word}
    (hstep : s.step ≠ 0) (h : countIterations s induction limit = some n)
    (hsmall : s.comparison.holds induction limit = true →
      FitsInt64 (s.comparison.distance induction.toInt limit.toInt)) :
    n.toNat = exactIterations s.comparison induction.toInt limit.toInt s.step.toInt := by
  obtain ⟨hc, width, hw, rfl⟩ := countIterations_eq hstep h
  have hpos := Towards.width_pos hc
  have hlow := BitVec.le_toInt s.step
  have hhigh := BitVec.toInt_lt (x := s.step)
  have hwbounds : 0 < width.toNat ∧ width.toNat ≤ 2 ^ 31 := by
    rcases abs_choice s.step.toInt with habs | habs <;> omega
  have hbound (hgo : s.comparison.holds induction limit = true) :
      (s.comparison.distanceWord induction limit).toNat < 2 ^ 63 := by
    have hfits := hsmall hgo
    have hword := (holds_distance hgo).2
    unfold FitsInt64 at hfits
    omega
  rw [toNat_countTowards (fun hgo => hbound (by simpa using hgo)) hwbounds, exactIterations]
  have hiff := holds_iff s.comparison induction limit
  cases hgo : s.comparison.holds induction limit with
  | false =>
    rw [hgo] at hiff
    cases hs : s.comparison.strict <;> simp only [LoopComparison.slack, hs] at hiff ⊢ <;> grind
  | true =>
    obtain ⟨hnonneg, hword⟩ := holds_distance hgo
    rw [hgo] at hiff
    have hhead := hiff.mp rfl
    rw [← hword, ← hw] at *
    cases hs : s.comparison.strict with
    | true =>
      have hnot : ¬ ((s.comparison.distanceWord induction limit).toNat : Int) ≤ 0 := by
        simp only [LoopComparison.slack, hs, if_true] at hhead
        omega
      have hcast : ((s.comparison.distanceWord induction limit).toNat : Int) + width.toNat - 1 =
          ((s.comparison.distanceWord induction limit).toNat + width.toNat - 1 : Nat) := by omega
      simp only [Bool.not_true, Bool.false_eq_true, if_false, if_true, if_neg hnot, hcast,
        ← Int.natCast_ediv, Int.toNat_natCast]
    | false =>
      have hnot : ¬ ((s.comparison.distanceWord induction limit).toNat : Int) < 0 := by omega
      simp only [Bool.not_true, Bool.false_eq_true, if_false, if_neg hnot, ← Int.natCast_ediv]
      exact (Int.toNat_natCast (_ + 1)).symm

def slot (frame : OSRFrame) (index : Nat) : Word := (frame.locals[index]?.map (·.bits)).getD 0

def CountedLoopSpec.exactIterations (s : CountedLoopSpec) (frame : OSRFrame) : Nat :=
  Counted.exactIterations s.comparison (slot frame s.inductionLocal).toInt
    (slot frame s.limitLocal).toInt s.step.toInt

def CountedLoopSpec.value (s : CountedLoopSpec) (frame : OSRFrame) (k : Nat) : Int :=
  inductionAt (slot frame s.inductionLocal).toInt s.step.toInt k

def CountedLoopSpec.sum (s : CountedLoopSpec) (frame : OSRFrame) (n : Nat) : Int :=
  ∑ k ∈ Finset.range n, s.value frame k

/-- The operations of the count stay within their words: the difference is a signed one, and what
is done to it is unsigned. -/
def CountedLoopSpec.Unwrapped (s : CountedLoopSpec) (frame : OSRFrame) : Prop :=
  s.comparison.holds (slot frame s.inductionLocal) (slot frame s.limitLocal) = true →
    let distance := s.comparison.distance (slot frame s.inductionLocal).toInt
      (slot frame s.limitLocal).toInt
    FitsInt64 distance ∧
      if s.comparison.strict then distance + |s.step.toInt| < 2 ^ 64
      else distance / |s.step.toInt| + 1 < 2 ^ 64

structure Exact (env : Env) (s : CountedLoopSpec) (code : List Op) (frame : OSRFrame)
    (start : Machine) (iterations : Word) : Prop where
  unwrapped : s.Unwrapped frame
  counted : iterations.toNat = s.exactIterations frame
  bounded : iterations ≤ s.maximumIterations
  halts : ∃ m, Halts env code start m ∧ m.turns = iterations.toNat ∧
    m.locals[s.inductionLocal]?.map (·.bits.toInt) = some (s.value frame iterations.toNat) ∧
    m.locals[s.accumulatorLocal]?.map (·.bits) =
      some (slot frame s.accumulatorLocal + BitVec.ofInt 64 (s.sum frame iterations.toNat))

/-- The difference of the bounds and the value after the last iteration are signed words, and
where the induction variable is its own accumulator both come to one word. -/
structure CountedLoopSpec.Meets (s : CountedLoopSpec) (frame : OSRFrame) : Prop where
  difference : s.comparison.holds (slot frame s.inductionLocal) (slot frame s.limitLocal) = true →
    FitsInt64 (s.comparison.distance (slot frame s.inductionLocal).toInt
      (slot frame s.limitLocal).toInt)
  last : FitsInt64 (s.value frame (s.exactIterations frame))
  separate : s.inductionLocal = s.accumulatorLocal →
    BitVec.ofInt 64 (s.sum frame (s.exactIterations frame)) =
      BitVec.ofInt 64 (s.exactIterations frame * s.step.toInt)

section

variable {env : Env} {s : CountedLoopSpec} {frame : OSRFrame} {registers : Register → Word}
  {xmm0 xmm1 : Word} {compared : Word × Word} {induction limit accumulator : OSRValue}

structure Loads (s : CountedLoopSpec) (frame : OSRFrame)
    (induction limit accumulator : OSRValue) : Prop where
  induction : frame.locals[s.inductionLocal]? = some induction
  limit : frame.locals[s.limitLocal]? = some limit
  accumulator : frame.locals[s.accumulatorLocal]? = some accumulator

theorem turns_run (hload : Loads s frame induction limit accumulator) (n : Nat)
    (hgo : ∀ k, k < n → s.comparison.holds
      (BitVec.ofInt 64 (inductionAt induction.bits.toInt s.step.toInt k)) limit.bits = true) :
    Runs (stepMachine env (int64Kernel s)) (fun _ => True)
      (enterKernel frame registers xmm0 xmm1 compared)
      ((turn s)^[n] (atHead frame xmm0 xmm1 compared induction limit accumulator)) := by
  refine (enterKernel_runs hload.induction hload.limit hload.accumulator).trans ?_
  refine Runs.iterate
    (fun k => (turn s)^[k] (atHead frame xmm0 xmm1 compared induction limit accumulator)) n ?_
  intro k hk
  have hframe := turns_frame s (atHead frame xmm0 xmm1 compared induction limit accumulator) rfl k
  have hrax := turns_rax s (atHead frame xmm0 xmm1 compared induction limit accumulator) k
  rw [Function.iterate_succ_apply']
  refine turn_runs hframe.1 ?_
  rw [hrax, hframe.2.1]
  exact hgo k hk

theorem turns_le_of_halts (hload : Loads s frame induction limit accumulator) {n : Nat}
    (hgo : ∀ k, k < n → s.comparison.holds
      (BitVec.ofInt 64 (inductionAt induction.bits.toInt s.step.toInt k)) limit.bits = true)
    {m : Machine}
    (hm : Halts env (int64Kernel s) (enterKernel frame registers xmm0 xmm1 compared) m) :
    n ≤ m.turns := by
  have hturns : Runs (stepMachine env (int64Kernel s)) (fun _ => True)
      (enterKernel frame registers xmm0 xmm1 compared)
      ((turn s)^[n] (atHead frame xmm0 xmm1 compared induction limit accumulator)) :=
    turns_run hload n hgo
  have hrest := hturns.moving.rest_of_exit hm.1.moving (fun h => h hm.stuck)
  refine hrest.keeps (P := fun u : Machine => n ≤ u.turns) (fun u v hu huv => ?_) ?_
  · exact Nat.le_trans hu (turns_le huv)
  · have hframe :=
      turns_frame s (atHead frame xmm0 xmm1 compared induction limit accumulator) rfl n
    rw [hframe.2.2.2.2]
    exact Nat.le_add_left n _

def finish (s : CountedLoopSpec) (frame : OSRFrame) (xmm0 xmm1 : Word) (compared : Word × Word)
    (induction limit accumulator : OSRValue) (n : Nat) : Machine :=
  left s ((turn s)^[n] (atHead frame xmm0 xmm1 compared induction limit accumulator))

theorem finish_halts (hload : Loads s frame induction limit accumulator) {n : Nat}
    (hgo : ∀ k, k < n → s.comparison.holds
      (BitVec.ofInt 64 (inductionAt induction.bits.toInt s.step.toInt k)) limit.bits = true)
    (hstop : s.comparison.holds
      (BitVec.ofInt 64 (inductionAt induction.bits.toInt s.step.toInt n)) limit.bits = false) :
    Halts env (int64Kernel s) (enterKernel frame registers xmm0 xmm1 compared)
      (finish s frame xmm0 xmm1 compared induction limit accumulator n) := by
  have hframe := turns_frame s (atHead frame xmm0 xmm1 compared induction limit accumulator) rfl n
  obtain ⟨hpc, hrcx, hr9, hlocals, -⟩ := hframe
  have hi := (List.getElem?_eq_some_iff.mp hload.induction).1
  have ha := (List.getElem?_eq_some_iff.mp hload.accumulator).1
  have hend : Halts env (int64Kernel s) _ (left s _) :=
    left_halts hpc (by rw [turns_rax, hrcx]; exact hstop) hr9 (by rw [hlocals]; exact hi)
      (by rw [hlocals]; exact ha)
  exact ⟨(turns_run hload n hgo).trans hend.1, hend.2⟩

theorem finish_turns (n : Nat) :
    (finish s frame xmm0 xmm1 compared induction limit accumulator n).turns = n := by
  show ((turn s)^[n] _).turns = n
  rw [(turns_frame s _ rfl n).2.2.2.2]
  exact Nat.zero_add n

theorem finish_locals (hload : Loads s frame induction limit accumulator) (n : Nat) :
    let locals := (finish s frame xmm0 xmm1 compared induction limit accumulator n).locals
    let final := accumulator.bits +
      BitVec.ofInt 64 (∑ j ∈ Finset.range n, inductionAt induction.bits.toInt s.step.toInt j)
    locals[s.accumulatorLocal]?.map (·.bits) = some final ∧
      locals[s.inductionLocal]?.map (·.bits) =
        some (if s.inductionLocal = s.accumulatorLocal then final
          else BitVec.ofInt 64 (inductionAt induction.bits.toInt s.step.toInt n)) := by
  intro locals final
  have hframe := turns_frame s (atHead frame xmm0 xmm1 compared induction limit accumulator) rfl n
  have hrax := turns_rax s (atHead frame xmm0 xmm1 compared induction limit accumulator) n
  have hrdx := turns_rdx s (atHead frame xmm0 xmm1 compared induction limit accumulator) n
  have hlocals : locals = setBits (setBits frame.locals s.inductionLocal
      (BitVec.ofInt 64 (inductionAt induction.bits.toInt s.step.toInt n)))
      s.accumulatorLocal final := by
    show setBits (setBits _ _ _) _ _ = _
    rw [hframe.2.2.2.1, hrax, hrdx]
    rfl
  rw [hlocals]
  simp only [setBits, List.getElem?_modify, hload.accumulator, hload.induction]
  constructor
  · simp
  · by_cases hsame : s.inductionLocal = s.accumulatorLocal
    · simp [hsame]
    · simp [hsame, Ne.symm hsame]

theorem slot_of_getElem? {index : Nat} {v : OSRValue} (h : frame.locals[index]? = some v) :
    slot frame index = v.bits := by
  rw [slot, h]
  rfl

theorem compile_eq {allocates : Bool} {spec : CountedLoopSpec} {p : LoopProgram}
    (h : osrCompileCountedI64Loop allocates spec = .ok p) :
    spec.step ≠ 0 ∧ p = ⟨spec, int64Kernel spec, float64Kernel spec⟩ := by
  unfold osrCompileCountedI64Loop at h
  split at h
  · cases h
  · rename_i hargs
    split at h
    · cases h
      exact ⟨fun hzero => hargs (.inl hzero), rfl⟩
    · cases h

theorem prepare_int64 {p : LoopProgram} {iterations : Word} {code : List Op}
    (hframe : ∀ v ∈ frame.locals, v.kind = kindInt64)
    (h : p.prepare frame = some (iterations, code)) :
    ∃ induction limit accumulator, Loads p.spec frame induction limit accumulator ∧
      countIterations p.spec induction.bits limit.bits = some iterations ∧
      iterations ≤ p.spec.maximumIterations ∧ code = p.code := by
  obtain ⟨induction, hi, h⟩ := Option.bind_eq_some_iff.mp h
  obtain ⟨limit, hl, h⟩ := Option.bind_eq_some_iff.mp h
  obtain ⟨accumulator, ha, h⟩ := Option.bind_eq_some_iff.mp h
  have hkind := hframe accumulator (List.mem_of_getElem? ha)
  split at h
  · cases h
  · obtain ⟨n, hn, h⟩ := Option.bind_eq_some_iff.mp h
    split at h
    · cases h
    · rename_i hmax
      simp only [hkind, kindInt64, kindFloat64, Option.some.injEq, Prod.mk.injEq] at h
      obtain ⟨rfl, rfl⟩ := h
      exact ⟨induction, limit, accumulator, ⟨hi, hl, ha⟩, hn, BitVec.not_lt.mp hmax, rfl⟩

theorem Loads.exactIterations_eq (h : Loads s frame induction limit accumulator) :
    s.exactIterations frame =
      exactIterations s.comparison induction.bits.toInt limit.bits.toInt s.step.toInt := by
  rw [CountedLoopSpec.exactIterations, slot_of_getElem? h.induction, slot_of_getElem? h.limit]

theorem Loads.value_eq (h : Loads s frame induction limit accumulator) :
    s.value frame = inductionAt induction.bits.toInt s.step.toInt := by
  funext k
  rw [CountedLoopSpec.value, slot_of_getElem? h.induction]

theorem Loads.goes_on (h : Loads s frame induction limit accumulator)
    (hc : s.comparison.Towards s.step.toInt) {k : Nat} (hk : k < s.exactIterations frame) :
    s.comparison.holds (BitVec.ofInt 64 (inductionAt induction.bits.toInt s.step.toInt k))
      limit.bits = true := by
  rw [h.exactIterations_eq] at hk
  exact holds_of_lt hc hk

theorem Loads.halts_of_fits (h : Loads s frame induction limit accumulator)
    (hc : s.comparison.Towards s.step.toInt)
    (hlast : FitsInt64 (s.value frame (s.exactIterations frame))) :
    Halts env (int64Kernel s) (enterKernel frame registers xmm0 xmm1 compared)
      (finish s frame xmm0 xmm1 compared induction limit accumulator
        (s.exactIterations frame)) := by
  refine finish_halts h (fun k hk => h.goes_on hc hk) ?_
  rw [h.value_eq] at hlast
  exact stops_of_fits hc h.exactIterations_eq hlast

theorem Loads.last_of_exact {iterations : Word} (h : Loads s frame induction limit accumulator)
    (hc : s.comparison.Towards s.step.toInt)
    (hexact : Exact env s (int64Kernel s) frame
      (enterKernel frame registers xmm0 xmm1 compared) iterations) :
    FitsInt64 (s.value frame (s.exactIterations frame)) := by
  by_contra hout
  obtain ⟨-, hn, -, m, hm, hturns, -, -⟩ := hexact
  rw [h.value_eq] at hout
  have hwraps := goes_on_of_wraps hc h.exactIterations_eq hout
  -- the comparison holds once more than the exact loop has turns
  have hle : s.exactIterations frame + 1 ≤ m.turns := by
    refine turns_le_of_halts h (fun k hk => ?_) hm
    rcases Nat.lt_succ_iff_lt_or_eq.mp hk with hk | rfl
    · exact h.goes_on hc hk
    · exact hwraps
  omega

theorem Loads.final_locals (h : Loads s frame induction limit accumulator) (n : Nat) :
    let locals := (finish s frame xmm0 xmm1 compared induction limit accumulator n).locals
    let final := slot frame s.accumulatorLocal + BitVec.ofInt 64 (s.sum frame n)
    locals[s.accumulatorLocal]?.map (·.bits) = some final ∧
      locals[s.inductionLocal]?.map (·.bits) =
        some (if s.inductionLocal = s.accumulatorLocal then final
          else BitVec.ofInt 64 (s.value frame n)) := by
  rw [CountedLoopSpec.sum, h.value_eq, slot_of_getElem? h.accumulator]
  exact finish_locals h n

theorem map_toInt_iff {o : Option OSRValue} {w : Word} {z : Int} (ho : o.map (·.bits) = some w) :
    o.map (·.bits.toInt) = some z ↔ w.toInt = z := by
  obtain ⟨v, rfl, rfl⟩ := Option.map_eq_some_iff.mp ho
  simp

theorem shared_iff {n : Nat} (hsame : s.inductionLocal = s.accumulatorLocal)
    (hlast : FitsInt64 (s.value frame n)) :
    (slot frame s.accumulatorLocal + BitVec.ofInt 64 (s.sum frame n)).toInt = s.value frame n ↔
      BitVec.ofInt 64 (s.sum frame n) = BitVec.ofInt 64 (n * s.step.toInt) := by
  have hvalue : BitVec.ofInt 64 (s.value frame n) =
      slot frame s.accumulatorLocal + BitVec.ofInt 64 (n * s.step.toInt) := by
    rw [CountedLoopSpec.value, inductionAt, BitVec.ofInt_add, BitVec.ofInt_toInt, hsame]
  constructor
  · intro h
    rw [← h, BitVec.ofInt_toInt] at hvalue
    exact (BitVec.add_right_inj _).mp hvalue
  · intro h
    rw [h, ← hvalue, toInt_ofInt_of_fits hlast]

theorem unwrapped_of_difference (hc : s.comparison.Towards s.step.toInt)
    (h : s.comparison.holds (slot frame s.inductionLocal) (slot frame s.limitLocal) = true →
      FitsInt64 (s.comparison.distance (slot frame s.inductionLocal).toInt
        (slot frame s.limitLocal).toInt)) : s.Unwrapped frame := by
  intro hgo
  refine ⟨h hgo, ?_⟩
  have hnonneg := (holds_distance hgo).1
  have hfits := h hgo
  have hpos := Towards.width_pos hc
  have hlow := BitVec.le_toInt s.step
  have hhigh := BitVec.toInt_lt (x := s.step)
  generalize s.comparison.distance (slot frame s.inductionLocal).toInt
    (slot frame s.limitLocal).toInt = distance at *
  unfold FitsInt64 at hfits
  split
  · rcases abs_choice s.step.toInt with habs | habs <;> omega
  · have hle := Int.ediv_le_self |s.step.toInt| hnonneg
    omega

theorem Loads.exact_of_meets {iterations : Word}
    (h : Loads s frame induction limit accumulator) (hstep : s.step ≠ 0)
    (hcount : countIterations s induction.bits limit.bits = some iterations)
    (hmax : iterations ≤ s.maximumIterations) (hmeets : s.Meets frame) :
    Exact env s (int64Kernel s) frame (enterKernel frame registers xmm0 xmm1 compared)
      iterations := by
  obtain ⟨hdifference, hlast, hseparate⟩ := hmeets
  have hc := (countIterations_eq hstep hcount).1
  have hn : iterations.toNat = s.exactIterations frame := by
    rw [h.exactIterations_eq]
    refine countIterations_exact hstep hcount ?_
    rwa [slot_of_getElem? h.induction, slot_of_getElem? h.limit] at hdifference
  refine ⟨unwrapped_of_difference hc hdifference, hn, hmax, _, h.halts_of_fits hc hlast, ?_⟩
  obtain ⟨haccumulator, hinduction⟩ := h.final_locals (s.exactIterations frame)
  rw [finish_turns, hn]
  refine ⟨rfl, (map_toInt_iff hinduction).mpr ?_, haccumulator⟩
  split
  · rename_i hsame
    exact (shared_iff hsame hlast).mpr (hseparate hsame)
  · exact toInt_ofInt_of_fits hlast

theorem Loads.meets_of_exact {iterations : Word}
    (h : Loads s frame induction limit accumulator) (hc : s.comparison.Towards s.step.toInt)
    (hexact : Exact env s (int64Kernel s) frame
      (enterKernel frame registers xmm0 xmm1 compared) iterations) : s.Meets frame := by
  have hlast := h.last_of_exact hc hexact
  obtain ⟨hunwrapped, hn, -, m, hm, -, hinduction, -⟩ := hexact
  refine ⟨fun hgo => (hunwrapped hgo).1, hlast, fun hsame => ?_⟩
  have hend := hm.unique (h.halts_of_fits hc hlast)
  obtain ⟨-, hfinal⟩ := h.final_locals (s.exactIterations frame)
  rw [← hend] at hfinal
  rw [hn, map_toInt_iff hfinal, if_pos hsame, shared_iff hsame hlast] at hinduction
  exact hinduction

/-- A loop that is admitted does what its count says, and the count is right, just where the
difference of its bounds and the value after its last iteration are signed words and its
accumulator is a local of its own or takes the steps of the induction variable. -/
theorem counted_loop_exact_iff {allocates : Bool} {spec : CountedLoopSpec} {p : LoopProgram}
    {iterations : Word} {code : List Op}
    (hp : osrCompileCountedI64Loop allocates spec = .ok p)
    (hframe : ∀ v ∈ frame.locals, v.kind = kindInt64)
    (hprepared : p.prepare frame = some (iterations, code)) :
    Exact env spec code frame (enterKernel frame registers xmm0 xmm1 compared) iterations ↔
      spec.Meets frame := by
  obtain ⟨hstep, rfl⟩ := compile_eq hp
  obtain ⟨induction, limit, accumulator, hload, hcount, hmax, rfl⟩ := prepare_int64 hframe hprepared
  constructor
  · exact hload.meets_of_exact (countIterations_eq hstep hcount).1
  · exact hload.exact_of_meets hstep hcount hmax

end

def int64Local (z : Int) : OSRValue := ⟨BitVec.ofInt 64 z, kindInt64, 0⟩

def frameOf (values : List Int) : OSRFrame := ⟨values.map int64Local, [], 0, 0⟩

def sumSpec (comparison : LoopComparison) (step : BitVec 32) : CountedLoopSpec :=
  ⟨0, 1, 2, step, 0, 0, 1000, comparison⟩

def sumProgram (comparison : LoopComparison) (step : BitVec 32) : LoopProgram :=
  ⟨sumSpec comparison step, int64Kernel (sumSpec comparison step),
    float64Kernel (sumSpec comparison step)⟩

theorem sumSpec_meets : (sumSpec .lt 3).Meets (frameOf [0, 10, 5]) :=
  ⟨by decide +kernel, by decide +kernel, by decide +kernel⟩

def wordEnv : Env where
  addF64 a b := a + b
  subF64 a b := a - b
  mulF64 a b := a * b
  divF64 a b := a / b
  lessThanF64 a b := a.slt b
  lessEqualF64 a b := a.sle b
  equalF64 a b := a == b
  i64ToF64 a := a
  f64ToI64 a := a
  arity _ := 0
  native _ _ := none

theorem sum_to_ten_exact :
    Exact wordEnv (sumSpec .lt 3) (int64Kernel (sumSpec .lt 3)) (frameOf [0, 10, 5])
      (enterKernel (frameOf [0, 10, 5]) (fun _ => 0) 0 0 (0, 0)) 4 :=
  (counted_loop_exact_iff (p := sumProgram .lt 3) (rfl : osrCompileCountedI64Loop true _ = _)
    (by decide) (by decide +kernel)).mpr sumSpec_meets

/-- A loop up to the last integer, inclusive, is counted as two iterations and never ends. -/
theorem last_integer_is_not_exact :
    ¬ ∀ (env : Env) (allocates : Bool) (spec : CountedLoopSpec) (p : LoopProgram)
      (frame : OSRFrame) (registers : Register → Word) (xmm0 xmm1 : Word)
      (compared : Word × Word) (iterations : Word) (code : List Op),
      osrCompileCountedI64Loop allocates spec = .ok p →
      (∀ v ∈ frame.locals, v.kind = kindInt64) → p.prepare frame = some (iterations, code) →
      Exact env spec code frame (enterKernel frame registers xmm0 xmm1 compared) iterations := by
  intro hall
  have hexact := hall wordEnv true (sumSpec .lte 1) (sumProgram .lte 1)
    (frameOf [2 ^ 63 - 2, 2 ^ 63 - 1, 0]) (fun _ => 0) 0 0 (0, 0) 2
    (int64Kernel (sumSpec .lte 1)) rfl (by decide) (by decide +kernel)
  have hload : Loads (sumSpec .lte 1) (frameOf [2 ^ 63 - 2, 2 ^ 63 - 1, 0])
      (int64Local (2 ^ 63 - 2)) (int64Local (2 ^ 63 - 1)) (int64Local 0) := ⟨rfl, rfl, rfl⟩
  have hlast := hload.last_of_exact (show 0 < (1 : BitVec 32).toInt by decide) hexact
  revert hlast
  decide +kernel

end TurboJS.OSR.Counted
