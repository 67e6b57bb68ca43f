import TurboJS.Foundation.Double

namespace TurboJS.Interpreter
open Foundation

/-! The shortcuts that the interpreter takes for arithmetic on numbers. -/

inductive NumberValue where
  | int (v : BitVec 32)
  | float64 (d : Double)
  deriving DecidableEq

def NumberValue.toDouble : NumberValue → Double
  | .int v => .ofInt v.toInt
  | .float64 d => d

def int32Min : ℤ := -2 ^ 31

def int32Max : ℤ := 2 ^ 31 - 1

section

variable (round : ℚ → Double)

def jsInt64 (v : ℤ) : NumberValue :=
  if int32Min ≤ v ∧ v ≤ int32Max then .int (BitVec.ofInt 32 v) else .float64 (.ofInt64 round v)

def doubleIsInt32 : Double → Bool
  | .zero negative => !negative
  | .finite q _ => q.den == 1 && decide (int32Min ≤ q.num ∧ q.num ≤ int32Max)
  | _ => false

def jsNumber (d : Double) : NumberValue :=
  if doubleIsInt32 d then .int (BitVec.ofInt 32 (Double.truncate (d.value?.getD 0)))
  else .float64 d

inductive UnaryOp where
  | dec
  | inc
  | neg
  deriving DecidableEq, Repr

/-- `2 * (op - OP_dec) - 1`. -/
def UnaryOp.delta : UnaryOp → ℤ
  | .dec => -1
  | _ => 1

/-- `js_unary_arith_slow` on a number. -/
def jsUnaryArithSlow (op : UnaryOp) : NumberValue → NumberValue
  | .float64 d =>
    match op with
    | .inc | .dec => .float64 (d.add round (.ofInt op.delta))
    | .neg => .float64 d.neg
  | .int v =>
    match op with
    | .inc | .dec => jsInt64 round (v.toInt + op.delta)
    | .neg => if v.toInt = 0 then .float64 (.zero true) else jsInt64 round (-v.toInt)

/-- `js_post_inc_slow` on a number: the old value and the new one. -/
def jsPostIncSlow (op : UnaryOp) (v : NumberValue) : NumberValue × NumberValue :=
  (v, jsUnaryArithSlow round op v)

inductive BinaryOp where
  | sub
  | mul
  | div
  | mod
  deriving DecidableEq, Repr

/-- The `handle_float64` of `js_binary_arith_slow`. -/
def BinaryOp.onDoubles (op : BinaryOp) (d1 d2 : Double) : Double :=
  match op with
  | .sub => d1.sub round d2
  | .mul => d1.mul round d2
  | .div => d1.div round d2
  | .mod => d1.fmod d2

/-- `js_binary_arith_slow` on two numbers. -/
def jsBinaryArithSlow (op : BinaryOp) : NumberValue → NumberValue → NumberValue
  | .int v1, .int v2 =>
    match op with
    | .sub => jsInt64 round (v1.toInt - v2.toInt)
    | .mul =>
      if v1.toInt * v2.toInt = 0 ∧ (v1 ||| v2).toInt < 0 then .float64 (.zero true)
      else jsInt64 round (v1.toInt * v2.toInt)
    | .div => jsNumber ((Double.ofInt v1.toInt).div round (.ofInt v2.toInt))
    | .mod =>
      if v1.toInt < 0 ∨ v2.toInt ≤ 0 then
        jsNumber ((Double.ofInt v1.toInt).fmod (.ofInt v2.toInt))
      else jsInt64 round (v1.toInt.tmod v2.toInt)
  | op1, op2 => .float64 (op.onDoubles round op1.toDouble op2.toDouble)

/-- `js_add_slow` on two numbers. -/
def jsAddSlow : NumberValue → NumberValue → NumberValue
  | .int v1, .int v2 => jsInt64 round (v1.toInt + v2.toInt)
  | op1, op2 => .float64 (op1.toDouble.add round op2.toDouble)

def opAdd : NumberValue → NumberValue → NumberValue
  | .int v1, .int v2 =>
    let r := v1.toInt + v2.toInt
    if r < int32Min ∨ int32Max < r then .float64 (.ofInt64 round r)
    else .int (BitVec.ofInt 32 r)
  | .float64 d1, .float64 d2 => .float64 (d1.add round d2)
  | op1, op2 => .float64 (op1.toDouble.add round op2.toDouble)

/-- `OP_add_loc_loc` and `OP_add_loc`, which leave all but integers to the generic path. -/
def opAddLoc : NumberValue → NumberValue → NumberValue
  | .int v1, .int v2 =>
    let r := v1.toInt + v2.toInt
    if (BitVec.ofInt 32 r).toInt = r then .int (BitVec.ofInt 32 r)
    else .float64 (.ofInt64 round r)
  | op1, op2 => jsAddSlow round op1 op2

def opSub : NumberValue → NumberValue → NumberValue
  | .int v1, .int v2 =>
    let r := v1.toInt - v2.toInt
    if (BitVec.ofInt 32 r).toInt ≠ r then .float64 (.ofInt64 round r)
    else .int (BitVec.ofInt 32 r)
  | .float64 d1, .float64 d2 => .float64 (d1.sub round d2)
  | op1, op2 => .float64 (op1.toDouble.sub round op2.toDouble)

def opMul : NumberValue → NumberValue → NumberValue
  | .int v1, .int v2 =>
    let r := v1.toInt * v2.toInt
    if (BitVec.ofInt 32 r).toInt ≠ r then .float64 (.ofInt64 round r)
    else if r = 0 ∧ (v1 ||| v2).toInt < 0 then .float64 (.zero true)
    else .int (BitVec.ofInt 32 r)
  | .float64 d1, .float64 d2 => .float64 (d1.mul round d2)
  | op1, op2 => .float64 (op1.toDouble.mul round op2.toDouble)

def opDiv : NumberValue → NumberValue → NumberValue
  | .int v1, .int v2 => jsNumber ((Double.ofInt v1.toInt).div round (.ofInt v2.toInt))
  | .float64 d1, .float64 d2 => jsNumber (d1.div round d2)
  | op1, op2 => jsNumber (op1.toDouble.div round op2.toDouble)

/-- The double is a `uint32_t`: what `OP_mod` asks of a dividend. -/
def uint32Of (d : Double) : Option (BitVec 32) :=
  match d.value? with
  | none => none
  | some q =>
    if q < 0 ∨ 4294967295 < q ∨ q ≠ ⌊q⌋ then none
    else some (BitVec.ofInt 32 (Double.truncate q))

def opMod : NumberValue → NumberValue → NumberValue
  | .int v1, .int v2 =>
    if v1.toInt < 0 ∨ v2.toInt ≤ 0 then jsBinaryArithSlow round .mod (.int v1) (.int v2)
    else .int (BitVec.ofInt 32 (v1.toInt.tmod v2.toInt))
  | .float64 d1, .int v2 =>
    if 0 < v2.toInt then
      match uint32Of d1 with
      | none => jsBinaryArithSlow round .mod (.float64 d1) (.int v2)
      | some u1 => .int (u1 % v2)
    else jsBinaryArithSlow round .mod (.float64 d1) (.int v2)
  | op1, op2 => jsBinaryArithSlow round .mod op1 op2

def opNeg : NumberValue → NumberValue
  | .int v =>
    if v.toInt = 0 then .float64 (.zero true)
    else if v.toInt = int32Min then .float64 (Double.ofInt v.toInt).neg
    else .int (-v)
  | .float64 d => .float64 d.neg

/-- `OP_inc` and `OP_inc_loc`. -/
def opInc : NumberValue → NumberValue
  | .int v =>
    if v.toInt = int32Max then jsUnaryArithSlow round .inc (.int v) else .int (v + 1)
  | .float64 d => jsUnaryArithSlow round .inc (.float64 d)

/-- `OP_dec` and `OP_dec_loc`. -/
def opDec : NumberValue → NumberValue
  | .int v =>
    if v.toInt = int32Min then jsUnaryArithSlow round .dec (.int v) else .int (v - 1)
  | .float64 d => jsUnaryArithSlow round .dec (.float64 d)

/-- `OP_post_inc`: the old value and the new one. -/
def opPostInc : NumberValue → NumberValue × NumberValue
  | .int v =>
    if v.toInt = int32Max then jsPostIncSlow round .inc (.int v) else (.int v, .int (v + 1))
  | .float64 d => jsPostIncSlow round .inc (.float64 d)

def opPostDec : NumberValue → NumberValue × NumberValue
  | .int v =>
    if v.toInt = int32Min then jsPostIncSlow round .dec (.int v) else (.int v, .int (v - 1))
  | .float64 d => jsPostIncSlow round .dec (.float64 d)

inductive Opcode where
  | add | sub | mul | div | mod | neg | inc | dec | postInc | postDec
  | addLoc (idx : Nat)
  | addLocLoc (dst src : Nat)
  | incLoc (idx : Nat)
  | decLoc (idx : Nat)
  deriving DecidableEq, Repr

structure Frame where
  stack : List NumberValue
  locals : List NumberValue
  deriving DecidableEq

def Frame.binary (f : Frame) (op : NumberValue → NumberValue → NumberValue) : Option Frame :=
  match f.stack with
  | op2 :: op1 :: rest => some { f with stack := op op1 op2 :: rest }
  | _ => none

def Frame.unary (f : Frame) (op : NumberValue → NumberValue) : Option Frame :=
  match f.stack with
  | op1 :: rest => some { f with stack := op op1 :: rest }
  | _ => none

def Frame.post (f : Frame) (op : NumberValue → NumberValue × NumberValue) : Option Frame :=
  match f.stack with
  | op1 :: rest => some { f with stack := (op op1).2 :: (op op1).1 :: rest }
  | _ => none

def Frame.onLocal (f : Frame) (idx : Nat) (op : NumberValue → NumberValue) : Option Frame :=
  f.locals[idx]?.map fun v => { f with locals := f.locals.set idx (op v) }

/-- An instruction of the interpreter on numbers; `none` if an operand is missing. -/
def execute (op : Opcode) (f : Frame) : Option Frame :=
  match op with
  | .add => f.binary (opAdd round)
  | .sub => f.binary (opSub round)
  | .mul => f.binary (opMul round)
  | .div => f.binary (opDiv round)
  | .mod => f.binary (opMod round)
  | .neg => f.unary opNeg
  | .inc => f.unary (opInc round)
  | .dec => f.unary (opDec round)
  | .postInc => f.post (opPostInc round)
  | .postDec => f.post (opPostDec round)
  | .addLoc idx =>
    match f.stack with
    | op2 :: rest => ({ f with stack := rest } : Frame).onLocal idx (opAddLoc round · op2)
    | [] => none
  | .addLocLoc dst src => f.locals[src]?.bind fun v => f.onLocal dst (opAddLoc round · v)
  | .incLoc idx => f.onLocal idx (opInc round)
  | .decLoc idx => f.onLocal idx (opDec round)

def executeGeneric (op : Opcode) (f : Frame) : Option Frame :=
  match op with
  | .add => f.binary (jsAddSlow round)
  | .sub => f.binary (jsBinaryArithSlow round .sub)
  | .mul => f.binary (jsBinaryArithSlow round .mul)
  | .div => f.binary (jsBinaryArithSlow round .div)
  | .mod => f.binary (jsBinaryArithSlow round .mod)
  | .neg => f.unary (jsUnaryArithSlow round .neg)
  | .inc => f.unary (jsUnaryArithSlow round .inc)
  | .dec => f.unary (jsUnaryArithSlow round .dec)
  | .postInc => f.post (jsPostIncSlow round .inc)
  | .postDec => f.post (jsPostIncSlow round .dec)
  | .addLoc idx =>
    match f.stack with
    | op2 :: rest => ({ f with stack := rest } : Frame).onLocal idx (jsAddSlow round · op2)
    | [] => none
  | .addLocLoc dst src => f.locals[src]?.bind fun v => f.onLocal dst (jsAddSlow round · v)
  | .incLoc idx => f.onLocal idx (jsUnaryArithSlow round .inc)
  | .decLoc idx => f.onLocal idx (jsUnaryArithSlow round .dec)

end

def Frame.numbers (f : Frame) : List Double × List Double :=
  (f.stack.map NumberValue.toDouble, f.locals.map NumberValue.toDouble)

theorem toInt_range (v : BitVec 32) : int32Min ≤ v.toInt ∧ v.toInt ≤ int32Max := by
  have h1 := BitVec.two_mul_toInt_lt (x := v)
  have h2 := BitVec.le_two_mul_toInt (x := v)
  unfold int32Min int32Max
  omega

theorem toInt_ofInt_iff (r : ℤ) :
    (BitVec.ofInt 32 r).toInt = r ↔ int32Min ≤ r ∧ r ≤ int32Max := by
  constructor
  · intro h
    rw [← h]
    exact toInt_range _
  · rintro ⟨h1, h2⟩
    unfold int32Min at h1
    unfold int32Max at h2
    rw [BitVec.toInt_ofInt]
    exact Int.bmod_eq_of_le (by omega) (by omega)

section

variable {round : ℚ → Double}

theorem jsInt64_small {r : ℤ} (h : int32Min ≤ r ∧ r ≤ int32Max) :
    jsInt64 round r = .int (BitVec.ofInt 32 r) := if_pos h

theorem jsInt64_large {r : ℤ} (h : ¬ (int32Min ≤ r ∧ r ≤ int32Max)) :
    jsInt64 round r = .float64 (.ofInt64 round r) := if_neg h

theorem opAdd_eq (op1 op2 : NumberValue) : opAdd round op1 op2 = jsAddSlow round op1 op2 := by
  cases op1 with
  | float64 d1 => cases op2 <;> rfl
  | int v1 =>
    cases op2 with
    | float64 d2 => rfl
    | int v2 =>
      simp only [opAdd, jsAddSlow]
      by_cases hr : int32Min ≤ v1.toInt + v2.toInt ∧ v1.toInt + v2.toInt ≤ int32Max
      · rw [jsInt64_small hr]
        exact if_neg (by omega)
      · rw [jsInt64_large hr]
        exact if_pos (by omega)

theorem opAddLoc_eq (op1 op2 : NumberValue) :
    opAddLoc round op1 op2 = jsAddSlow round op1 op2 := by
  cases op1 with
  | float64 d1 => cases op2 <;> rfl
  | int v1 =>
    cases op2 with
    | float64 d2 => rfl
    | int v2 =>
      simp only [opAddLoc, jsAddSlow, toInt_ofInt_iff]
      rfl

theorem opSub_eq (op1 op2 : NumberValue) :
    opSub round op1 op2 = jsBinaryArithSlow round .sub op1 op2 := by
  cases op1 with
  | float64 d1 => cases op2 <;> rfl
  | int v1 =>
    cases op2 with
    | float64 d2 => rfl
    | int v2 =>
      simp only [opSub, jsBinaryArithSlow, jsInt64, ne_eq, toInt_ofInt_iff, ite_not]

theorem opMul_eq (op1 op2 : NumberValue) :
    opMul round op1 op2 = jsBinaryArithSlow round .mul op1 op2 := by
  cases op1 with
  | float64 d1 => cases op2 <;> rfl
  | int v1 =>
    cases op2 with
    | float64 d2 => rfl
    | int v2 =>
      simp only [opMul, jsBinaryArithSlow, jsInt64, ne_eq, toInt_ofInt_iff, ite_not]
      by_cases hz : v1.toInt * v2.toInt = 0 ∧ (v1 ||| v2).toInt < 0
      · -- a zero fits
        have hfit : int32Min ≤ v1.toInt * v2.toInt ∧ v1.toInt * v2.toInt ≤ int32Max := by
          rw [hz.1]
          decide
        rw [if_pos hfit, if_pos hz, if_pos hz]
      · rw [if_neg hz, if_neg hz]

theorem doubleIsInt32_spec {d : Double} (h : doubleIsInt32 d = true) :
    ∃ n : ℤ, d = .ofInt n ∧ int32Min ≤ n ∧ n ≤ int32Max ∧
      Double.truncate (d.value?.getD 0) = n := by
  cases d with
  | nan => cases h
  | infinity s => cases h
  | zero s =>
    cases s with
    | true => cases h
    | false => exact ⟨0, rfl, by decide, by decide, by simp [Double.value?, Double.truncate]⟩
  | finite q hq =>
    simp only [doubleIsInt32, Bool.and_eq_true, beq_iff_eq, decide_eq_true_eq] at h
    obtain ⟨hden, h1, h2⟩ := h
    have hqn : (q.num : ℚ) = q := Rat.den_eq_one_iff q |>.mp hden
    have hne : q.num ≠ 0 := Rat.num_ne_zero.mpr hq
    refine ⟨q.num, ?_, h1, h2, ?_⟩
    · rw [Double.ofInt_of_ne hne]
      simp only [hqn]
    · have htrunc := Double.truncate_intCast q.num
      rw [hqn] at htrunc
      exact htrunc

theorem jsNumber_toDouble (d : Double) : (jsNumber d).toDouble = d := by
  unfold jsNumber
  cases h : doubleIsInt32 d with
  | false => rfl
  | true =>
    obtain ⟨n, hd, h1, h2, ht⟩ := doubleIsInt32_spec h
    rw [ht, if_pos rfl, NumberValue.toDouble, (toInt_ofInt_iff n).mpr ⟨h1, h2⟩, hd]

theorem opDiv_toDouble (op1 op2 : NumberValue) :
    (opDiv round op1 op2).toDouble = (jsBinaryArithSlow round .div op1 op2).toDouble := by
  cases op1 with
  | float64 d1 => cases op2 <;> exact jsNumber_toDouble _
  | int v1 =>
    cases op2 with
    | float64 d2 => exact jsNumber_toDouble _
    | int v2 => rfl

theorem opNeg_toDouble (op1 : NumberValue) :
    (opNeg op1).toDouble = (jsUnaryArithSlow round .neg op1).toDouble := by
  cases op1 with
  | float64 d => rfl
  | int v =>
    simp only [opNeg, jsUnaryArithSlow]
    by_cases h0 : v.toInt = 0
    · simp only [if_pos h0]
    · simp only [if_neg h0]
      by_cases hmin : v.toInt = int32Min
      · rw [if_pos hmin, hmin, jsInt64_large (by decide)]
        simp only [NumberValue.toDouble]
        rw [Double.neg_ofInt (by decide), Double.ofInt64_exact _ (by decide)]
      · have hr := toInt_range v
        rw [if_neg hmin, jsInt64_small (by unfold int32Min int32Max at *; omega)]
        congr 2
        rw [BitVec.ofInt_neg, BitVec.ofInt_toInt]

theorem opInc_eq (op1 : NumberValue) : opInc round op1 = jsUnaryArithSlow round .inc op1 := by
  cases op1 with
  | float64 d => rfl
  | int v =>
    simp only [opInc]
    by_cases hmax : v.toInt = int32Max
    · rw [if_pos hmax]
    · have hr := toInt_range v
      rw [if_neg hmax]
      simp only [jsUnaryArithSlow, UnaryOp.delta]
      rw [jsInt64_small (by unfold int32Min int32Max at *; omega), BitVec.ofInt_add,
        BitVec.ofInt_toInt]
      rfl

theorem opDec_eq (op1 : NumberValue) : opDec round op1 = jsUnaryArithSlow round .dec op1 := by
  cases op1 with
  | float64 d => rfl
  | int v =>
    simp only [opDec]
    by_cases hmin : v.toInt = int32Min
    · rw [if_pos hmin]
    · have hr := toInt_range v
      rw [if_neg hmin]
      simp only [jsUnaryArithSlow, UnaryOp.delta]
      rw [jsInt64_small (by unfold int32Min int32Max at *; omega), BitVec.ofInt_add,
        BitVec.ofInt_toInt, BitVec.sub_eq_add_neg]
      rfl

theorem opPostInc_eq (op1 : NumberValue) :
    opPostInc round op1 = jsPostIncSlow round .inc op1 := by
  cases op1 with
  | float64 d => rfl
  | int v =>
    have h : opInc round (.int v) = jsUnaryArithSlow round .inc (.int v) := opInc_eq _
    simp only [opInc] at h
    simp only [opPostInc, jsPostIncSlow]
    split
    · rfl
    · rename_i hmax
      rw [← h, if_neg hmax]

theorem opPostDec_eq (op1 : NumberValue) :
    opPostDec round op1 = jsPostIncSlow round .dec op1 := by
  cases op1 with
  | float64 d => rfl
  | int v =>
    have h : opDec round (.int v) = jsUnaryArithSlow round .dec (.int v) := opDec_eq _
    simp only [opDec] at h
    simp only [opPostDec, jsPostIncSlow]
    split
    · rfl
    · rename_i hmin
      rw [← h, if_neg hmin]

theorem uint32Of_spec {d : Double} {u : BitVec 32} (h : uint32Of d = some u) :
    (d = .ofInt u.toNat ∨ d = .zero true ∧ u = 0) := by
  unfold uint32Of at h
  cases d with
  | nan => cases h
  | infinity s => cases h
  | zero s =>
    simp only [Double.value?, Int.floor_zero, Int.cast_zero, ne_eq, not_true_eq_false, or_false,
      lt_irrefl, false_or] at h
    rw [if_neg (by norm_num), Option.some.injEq] at h
    have hu : u = 0 := by rw [← h]; simp [Double.truncate]
    cases s with
    | true => exact .inr ⟨rfl, hu⟩
    | false =>
      rw [hu]
      exact .inl rfl
  | finite q hq =>
    simp only [Double.value?] at h
    split at h
    · cases h
    · rename_i hrange
      obtain ⟨hneg, hlarge, hint⟩ : ¬ q < 0 ∧ ¬ 4294967295 < q ∧ ¬ q ≠ ⌊q⌋ := by
        refine ⟨?_, ?_, ?_⟩
        · exact fun h => hrange (.inl h)
        · exact fun h => hrange (.inr (.inl h))
        · exact fun h => hrange (.inr (.inr h))
      have hq' : q = (⌊q⌋ : ℤ) := not_not.mp hint
      generalize ⌊q⌋ = n at hq'
      subst hq'
      have h0 : 0 ≤ n := by
        have := not_lt.mp hneg
        exact_mod_cast this
      have h1 : n ≤ 4294967295 := by
        have := not_lt.mp hlarge
        exact_mod_cast this
      rw [Option.some.injEq, Double.truncate_intCast] at h
      have hu : (u.toNat : ℤ) = n := by
        rw [← h, BitVec.toNat_ofInt]
        omega
      have hn : n ≠ 0 := fun hn => hq (by rw [hn]; rfl)
      left
      rw [hu, Double.ofInt_of_ne hn]

theorem toInt_umod {u v : BitVec 32} (hv : 0 < v.toInt) :
    (u % v).toInt = (u.toNat : ℤ) % v.toInt := by
  have hvn : v.toInt = v.toNat := by
    have hcond := BitVec.toInt_eq_toNat_cond v
    have hlt := v.isLt
    split at hcond <;> omega
  have hlt : (v.toNat : ℤ) ≤ int32Max := hvn ▸ (toInt_range v).2
  have hpos : 0 < v.toNat := by omega
  have hmod : (u % v).toNat = u.toNat % v.toNat := BitVec.toNat_umod
  have hsmall := Nat.mod_lt u.toNat hpos
  unfold int32Max at hlt
  rw [hvn, BitVec.toInt_eq_toNat_of_lt (by omega), hmod]
  exact_mod_cast rfl

def NegativeZeroDividend (op1 op2 : NumberValue) : Prop :=
  op1 = .float64 (.zero true) ∧ ∃ v, op2 = .int v ∧ 0 < v.toInt

theorem opMod_toDouble_iff (op1 op2 : NumberValue) :
    (opMod round op1 op2).toDouble = (jsBinaryArithSlow round .mod op1 op2).toDouble ↔
      ¬ NegativeZeroDividend op1 op2 := by
  cases op1 with
  | int v1 =>
    refine iff_of_true ?_ fun h => by cases h.1
    cases op2 with
    | float64 d2 => rfl
    | int v2 =>
      simp only [opMod, jsBinaryArithSlow]
      by_cases hs : v1.toInt < 0 ∨ v2.toInt ≤ 0
      · simp only [if_pos hs]
      · simp only [if_neg hs]
        have h1 := toInt_range v2
        have h2 := Int.tmod_lt_of_pos v1.toInt (b := v2.toInt) (by omega)
        have h3 := Int.tmod_nonneg v2.toInt (a := v1.toInt) (by omega)
        rw [jsInt64_small (by unfold int32Min int32Max at *; omega)]
  | float64 d1 =>
    cases op2 with
    | float64 d2 =>
      refine iff_of_true rfl ?_
      rintro ⟨-, v, h, -⟩
      cases h
    | int v2 =>
      simp only [opMod]
      by_cases hv : 0 < v2.toInt
      · rw [if_pos hv]
        cases hu : uint32Of d1 with
        | none =>
          refine iff_of_true rfl ?_
          rintro ⟨h, -⟩
          cases h
          revert hu
          decide
        | some u =>
          have hfast : (NumberValue.int (u % v2)).toDouble = .ofInt (u.toNat % v2.toInt) := by
            rw [NumberValue.toDouble, toInt_umod hv]
          simp only [hfast]
          rcases uint32Of_spec hu with rfl | ⟨rfl, rfl⟩
          · refine iff_of_true ?_ ?_
            · exact (Double.fmod_ofInt (Int.natCast_nonneg _) hv).symm
            · rintro ⟨h, -⟩
              unfold Double.ofInt at h
              split at h <;> cases h
          · refine iff_of_false ?_ (not_not_intro ⟨rfl, v2, rfl, hv⟩)
            have hne : v2.toInt ≠ 0 := by omega
            simp only [jsBinaryArithSlow, BinaryOp.onDoubles, NumberValue.toDouble,
              Double.ofInt_of_ne hne, Double.fmod]
            intro h
            cases h
      · rw [if_neg hv]
        refine iff_of_true rfl ?_
        rintro ⟨-, v, h, hpos⟩
        cases h
        exact hv hpos

theorem Frame.binary_numbers {f : Frame} {op op' : NumberValue → NumberValue → NumberValue} :
    (f.binary op).map Frame.numbers = (f.binary op').map Frame.numbers ↔
      ∀ op1 op2 rest, f.stack = op2 :: op1 :: rest →
        (op op1 op2).toDouble = (op' op1 op2).toDouble := by
  unfold binary
  split
  · rename_i op2 op1 rest hs
    simp [numbers, hs]
  · rename_i hno
    exact iff_of_true rfl fun op1 op2 rest hs => absurd hs (hno op2 op1 rest)

theorem Frame.unary_numbers {f : Frame} {op op' : NumberValue → NumberValue}
    (h : ∀ v, (op v).toDouble = (op' v).toDouble) :
    (f.unary op).map Frame.numbers = (f.unary op').map Frame.numbers := by
  unfold unary
  split
  · simp [numbers, h]
  · rfl

end

/-- An instruction leaves the numbers that the generic path leaves, except for a remainder whose
dividend is the negative zero and whose divisor is a positive integer by its tag. -/
theorem fast_paths_agree_iff (round : ℚ → Double) (op : Opcode) (f : Frame) :
    (execute round op f).map Frame.numbers = (executeGeneric round op f).map Frame.numbers ↔
      ¬ (op = .mod ∧ ∃ v rest, f.stack = .int v :: .float64 (.zero true) :: rest ∧
        0 < v.toInt) := by
  cases op with
  | mod =>
    simp only [execute, executeGeneric, Frame.binary_numbers, opMod_toDouble_iff, true_and]
    constructor
    · rintro h ⟨v, rest, hs, hv⟩
      exact h _ _ _ hs ⟨rfl, v, rfl, hv⟩
    · rintro h op1 op2 rest hs ⟨rfl, v, rfl, hv⟩
      exact h ⟨v, rest, hs, hv⟩
  | div =>
    refine iff_of_true ?_ (fun h => nomatch h.1)
    exact Frame.binary_numbers.mpr fun op1 op2 _ _ => opDiv_toDouble op1 op2
  | neg =>
    refine iff_of_true ?_ (fun h => nomatch h.1)
    exact Frame.unary_numbers opNeg_toDouble
  | add | sub | mul | inc | dec | postInc | postDec | addLoc | addLocLoc | incLoc | decLoc =>
    refine iff_of_true ?_ (fun h => nomatch h.1)
    simp only [execute, executeGeneric, funext₂ opAdd_eq, funext₂ opSub_eq, funext₂ opMul_eq,
      funext opInc_eq, funext opDec_eq, funext opPostInc_eq, funext opPostDec_eq, opAddLoc_eq]

/-- `-0 % 5` comes out as `+0`. -/
theorem negative_zero_modulo_five :
    ¬ ∀ (round : ℚ → Double) (op : Opcode) (f : Frame),
      (execute round op f).map Frame.numbers = (executeGeneric round op f).map Frame.numbers := by
  intro h
  have hbad := h (fun _ => .nan) .mod ⟨[.int 5, .float64 (.zero true)], []⟩
  revert hbad
  decide

end TurboJS.Interpreter
