import TurboJS.Foundation.Limbs

namespace TurboJS.BigInt

open Foundation

/-! BigInts as arrays of 32-bit limbs, the lowest first. -/

abbrev Limb := BitVec 32

/-- `JSBigInt`: `len` is the length of `tab`. -/
abbrev JSBigInt := List Limb

/-- `JS_BIGINT_MAX_SIZE`, in limbs. -/
def maxSize : Nat := 1024 * 1024 / 32

inductive BigIntError where
  /-- "BigInt is too large to allocate" -/
  | tooLargeToAllocate (len : Nat)
  /-- "BigInt is too large" -/
  | tooLarge
  /-- "BigInt negative exponent" -/
  | negativeExponent
  | outOfMemory
  deriving DecidableEq, Repr

abbrev BigIntM := StateT (Nat → Bool) (Except BigIntError)

def raise {α : Type} (e : BigIntError) : BigIntM α := fun _ => .error e

def reallocate : BigIntM Unit := fun s =>
  if s 0 then .ok ((), fun k => s (k + 1)) else .error .outOfMemory

def allocate (len : Nat) : BigIntM Unit :=
  if len > maxSize then raise (.tooLargeToAllocate len) else reallocate

def newSi (a : Limb) : BigIntM JSBigInt := do
  allocate 1
  return [a]

def carryLimb (carry : Bool) : Limb := if carry then 1 else 0

def addc (op1 op2 : Limb) (carry : Bool) : Limb × Bool :=
  let a := op1 + op2
  let k1 := decide (a < op1)
  let k := carryLimb carry
  (a + k, decide (a + k < k) || k1)

/-- A loop of `ADDC`, as `js_mp_add`. -/
def mpAdd : List Limb → List Limb → Bool → List Limb × Bool
  | x :: xs, y :: ys, carry =>
    let v := addc x y carry
    let r := mpAdd xs ys v.2
    (v.1 :: r.1, r.2)
  | _, _, carry => ([], carry)

def mpSub : List Limb → List Limb → Bool → List Limb × Bool
  | x :: xs, y :: ys, carry =>
    let a := x - y
    let k1 := decide (a > x)
    let v := a - carryLimb carry
    let r := mpSub xs ys (decide (a < v) || k1)
    (v :: r.1, r.2)
  | _, _, carry => ([], carry)

/-- The low and the high half of a `js_dlimb_t`. -/
def lowLimb (t : BitVec 64) : Limb := t.setWidth 32

def highLimb (t : BitVec 64) : Limb := (t >>> 32).setWidth 32

/-- `js_mp_mul1`: `taba * b + l` and its high limb. -/
def mpMul1 : List Limb → Limb → Limb → List Limb × Limb
  | [], _, l => ([], l)
  | x :: xs, b, l =>
    let t := x.setWidth 64 * b.setWidth 64 + l.setWidth 64
    let r := mpMul1 xs b (highLimb t)
    (lowLimb t :: r.1, r.2)

/-- `js_mp_add_mul1`: `tabr + taba * b` and its high limb. -/
def mpAddMul1 : List Limb → List Limb → Limb → Limb → List Limb × Limb
  | y :: ys, x :: xs, b, l =>
    let t := x.setWidth 64 * b.setWidth 64 + l.setWidth 64 + y.setWidth 64
    let r := mpAddMul1 ys xs b (highLimb t)
    (lowLimb t :: r.1, r.2)
  | _, _, _, l => ([], l)

/-- One round of `js_mp_mul_basecase`: `op1` times a limb, added at position `i`. -/
def mulStep (op1 : List Limb) (p : List Limb × Nat) (x : Limb) : List Limb × Nat :=
  let s := mpAddMul1 (p.1.drop p.2) op1 x 0
  (p.1.take p.2 ++ s.1 ++ [s.2], p.2 + 1)

def mulBasecase (op1 : List Limb) : List Limb → List Limb
  | [] => []
  | x :: op2 =>
    let first := mpMul1 op1 x 0
    (op2.foldl (mulStep op1) (first.1 ++ [first.2], 1)).1

/-- `js_mp_shl`: the limbs shifted by less than a limb, and what is shifted out. -/
def mpShl : List Limb → Nat → Limb → List Limb × Limb
  | [], _, l => ([], l)
  | v :: a, shift, l =>
    let r := mpShl a shift (v >>> (32 - shift))
    ((v <<< shift ||| l) :: r.1, r.2)

/-- `js_mp_shr`, from the top down; the second component is the limb above the next one. -/
def mpShr (tab : List Limb) (shift : Nat) (high : Limb) : List Limb × Limb :=
  tab.foldr (fun (a : Limb) r => ((a >>> shift ||| r.2 <<< (32 - shift)) :: r.1, a)) ([], high)

/-- The test of `js_bigint_normalize1` and `js_bigint_extend` for a limb `v` above a limb `u`. -/
def significant (v u : Limb) : Bool := (v ≠ 0 && v ≠ -1) || v &&& 1 ≠ u >>> 31

/-- The loop of `js_bigint_normalize1`. -/
def trimmedLength (tab : List Limb) : Nat → Nat
  | l + 2 => if significant (tab.getD (l + 1) 0) (tab.getD l 0) then l + 2
    else trimmedLength tab (l + 1)
  | l => l

/-- `js_bigint_normalize`; a failure to make the block smaller changes nothing. -/
def normalize (a : JSBigInt) : JSBigInt := a.take (trimmedLength a a.length)

def sign (a : JSBigInt) : Limb := a.getLastD 0 >>> 31

def extend (r : JSBigInt) (op1 : Limb) : BigIntM JSBigInt :=
  if significant op1 (r.getLastD 0) then do
    reallocate
    return r ++ [op1]
  else return normalize r

/-- The limbs of the second operand of an addition, or of a subtraction with `bNeg`. -/
def flip (bNeg : Bool) (x : Limb) : Limb := x ^^^ -carryLimb bNeg

/-- The loops of `js_bigint_add`: the common part, then the rest of the longer operand with the
sign of the other one. -/
def addLimbs (a b : JSBigInt) (bNeg : Bool) : List Limb × Bool :=
  let n2 := max a.length b.length
  let n1 := min a.length b.length
  let common := mpAdd (a.take n1) ((b.take n1).map (flip bNeg)) bNeg
  let high :=
    if a.length > b.length then
      mpAdd (a.drop n1) (List.replicate (n2 - n1) (flip bNeg (-sign b))) common.2
    else if a.length < b.length then
      mpAdd (List.replicate (n2 - n1) (-sign a)) ((b.drop n1).map (flip bNeg)) common.2
    else ([], common.2)
  (common.1 ++ high.1, high.2)

/-- `js_bigint_add`: `a + b`, or `a - b` with `bNeg`. -/
def add (a b : JSBigInt) (bNeg : Bool) : BigIntM JSBigInt := do
  allocate (max a.length b.length)
  let r := addLimbs a b bNeg
  extend r.1 (-sign a + flip bNeg (-sign b) + carryLimb r.2)

def neg (a : JSBigInt) : BigIntM JSBigInt := add [0] a true

/-- `js_bigint_mul`: the product of the unsigned limbs, corrected for negative operands. -/
def mul (a b : JSBigInt) : BigIntM JSBigInt := do
  allocate (a.length + b.length)
  let r := mulBasecase a b
  let r := if sign a ≠ 0 then r.take a.length ++ (mpSub (r.drop a.length) b false).1 else r
  let r := if sign b ≠ 0 then r.take b.length ++ (mpSub (r.drop b.length) a false).1 else r
  return normalize r

inductive LogicOp where
  | or | and | xor
  deriving DecidableEq, Repr

def LogicOp.limb : LogicOp → Limb → Limb → Limb
  | .or, x, y => x ||| y
  | .and, x, y => x &&& y
  | .xor, x, y => x ^^^ y

/-- `js_bigint_logic` on operands of which the first one is not the shorter. -/
def logicOrdered (a b : JSBigInt) (op : LogicOp) : BigIntM JSBigInt := do
  allocate a.length
  let bSign := -sign b
  return normalize (List.zipWith op.limb a b ++ (a.drop b.length).map fun x => op.limb x bSign)

def logic (a b : JSBigInt) (op : LogicOp) : BigIntM JSBigInt :=
  if a.length < b.length then logicOrdered b a op else logicOrdered a b op

def not (a : JSBigInt) : BigIntM JSBigInt := do
  allocate a.length
  return a.map fun x => ~~~x

def shl (a : JSBigInt) (shift1 : Nat) : BigIntM JSBigInt :=
  if a = [0] then newSi 0
  else do
    let d := shift1 / 32
    let shift := shift1 % 32
    allocate (a.length + d)
    if shift = 0 then return List.replicate d 0 ++ a
    else
      let r := mpShl a shift 0
      let l := if sign a ≠ 0 then r.2 ||| (-1 : Limb) <<< shift else r.2
      extend (List.replicate d 0 ++ r.1) l

def shr (a : JSBigInt) (shift1 : Nat) : BigIntM JSBigInt :=
  let d := shift1 / 32
  let shift := shift1 % 32
  if d ≥ a.length then newSi (-sign a)
  else do
    allocate (a.length - d)
    if shift = 0 then return a.drop d
    else return normalize (mpShr (a.drop d) shift (-sign a)).1

def limbClz (a : Limb) : Nat := if a = 0 then 32 else 31 - Nat.log2 a.toNat

def powStep (a r : JSBigInt) (bit : Bool) : BigIntM JSBigInt := do
  let r ← mul r r
  if bit then mul r a else return r

/-- The loop over the bits of `e` below the `i`-th one. -/
def powLoop (a : JSBigInt) (e : Limb) : Nat → JSBigInt → BigIntM JSBigInt
  | 0, r => return r
  | i + 1, r => do
    let r ← powStep a r (e.getLsbD i)
    powLoop a e i r

def exponentTooLarge (b : JSBigInt) : Bool := b.length > 1 || b.headD 0 > 0x7fffffff

/-- The power of a base that is a power of two, `v`, or its negation. -/
def powTwo (v : Limb) (isNeg : Bool) (b : JSBigInt) : BigIntM JSBigInt :=
  let n := 31 - limbClz v
  if exponentTooLarge b then raise .tooLarge
  else
    let e := (b.headD 0).toNat * n
    if e > maxSize * 32 then raise .tooLarge
    else do
      let isNeg := isNeg && (b.headD 0).getLsbD 0
      let len := (e + 32 + 1 - isNeg.toNat) / 32
      allocate len
      let limb := (if isNeg then -1 else 1 : Limb) <<< (e % 32)
      return (List.replicate len 0).set (e / 32) limb

def powGeneral (a b : JSBigInt) : BigIntM JSBigInt :=
  if exponentTooLarge b then raise .tooLarge
  else do
    let e := b.headD 0
    let nBits := 32 - limbClz e
    allocate a.length
    powLoop a e (nBits - 1) a

def pow (a b : JSBigInt) : BigIntM JSBigInt :=
  if sign b ≠ 0 then raise .negativeExponent
  else if b = [0] then newSi 1
  else if a.length = 1 then
    let v := a.headD 0
    if v ≤ 1 then newSi v
    else if v = -1 then newSi (1 - 2 * (b.headD 0 &&& 1))
    else
      let isNeg := v.slt 0
      let v := if isNeg then -v else v
      if v &&& (v - 1) = 0 then powTwo v isNeg b else powGeneral a b
  else powGeneral a b

/-- An error says the truth; `T` is what "BigInt is too large" says. -/
def BigIntError.Justified (T : Prop) (s : Nat → Bool) : BigIntError → Prop
  | .tooLargeToAllocate len => maxSize < len
  | .tooLarge => T
  | .negativeExponent => False
  | .outOfMemory => ∃ k, s k = false

/-- Whatever allocations fail, the result satisfies `P` or the error is justified. -/
def Outcome {α : Type} (x : BigIntM α) (P : α → Prop) (T : Prop) : Prop :=
  ∀ s, match x s with
    | .ok (a, s') => P a ∧ ∃ n, s' = fun k => s (k + n)
    | .error e => e.Justified T s

section

variable {α β : Type} {T : Prop}

theorem Outcome.pure {P : α → Prop} {a : α} (h : P a) : Outcome (pure a) P T :=
  fun _ => ⟨h, 0, rfl⟩

theorem Outcome.raise {P : α → Prop} {e : BigIntError} (h : ∀ s, e.Justified T s) :
    Outcome (raise e) P T := h

theorem BigIntError.Justified.shift {s : Nat → Bool} {n : Nat} {e : BigIntError}
    (h : e.Justified T fun k => s (k + n)) : e.Justified T s := by
  cases e with
  | outOfMemory =>
    obtain ⟨k, hk⟩ := h
    exact ⟨k + n, hk⟩
  | _ => exact h

theorem Outcome.bind {x : BigIntM α} {f : α → BigIntM β} {P : α → Prop} {Q : β → Prop}
    (hx : Outcome x P T) (hf : ∀ a, P a → Outcome (f a) Q T) : Outcome (x >>= f) Q T := by
  intro s
  have h := hx s
  cases hr : x s with
  | error e =>
    rw [hr] at h
    have he : (x >>= f) s = .error e := by
      simp [Bind.bind, StateT.bind, hr, Except.bind]
    rw [he]
    exact h
  | ok r =>
    obtain ⟨a, s'⟩ := r
    rw [hr] at h
    obtain ⟨ha, n, rfl⟩ := h
    have he : (x >>= f) s = f a fun k => s (k + n) := by
      simp [Bind.bind, StateT.bind, hr, Except.bind]
    have hfa := hf a ha fun k => s (k + n)
    rw [he]
    cases hr' : f a fun k => s (k + n) with
    | error e =>
      rw [hr'] at hfa
      exact BigIntError.Justified.shift hfa
    | ok r' =>
      rw [hr'] at hfa
      obtain ⟨hb, n', hn'⟩ := hfa
      exact ⟨hb, n' + n, by simp only [hn', Nat.add_assoc]⟩

theorem reallocate_outcome : Outcome reallocate (fun _ => True) T := by
  intro s
  cases h : s 0 with
  | true => simpa [reallocate, h] using ⟨1, rfl⟩
  | false =>
    simp only [reallocate, h, Bool.false_eq_true, if_false]
    exact ⟨0, h⟩

theorem allocate_outcome (len : Nat) : Outcome (allocate len) (fun _ => True) T := by
  rw [allocate]
  split
  · exact .raise fun _ => ‹_›
  · exact reallocate_outcome

end

/-- The result is the integer `v` in normal form. -/
def Yields (x : BigIntM JSBigInt) (v : Int) : Prop :=
  Outcome x (fun r => Minimal r ∧ signed r = v) False

theorem Yields.of_allocated {len : Nat} {x : BigIntM JSBigInt} {v : Int} (h : Yields x v) :
    Yields (do allocate len; x) v :=
  (allocate_outcome len).bind fun _ _ => h

theorem newSi_yields (a : Limb) : Yields (newSi a) a.toInt := by
  refine (allocate_outcome 1).bind fun _ _ => .pure ⟨minimal_singleton a, ?_⟩
  exact signed_concat [] a

theorem shiftRight_msb (x : Limb) : x >>> 31 = if x.msb then 1 else 0 := by
  apply BitVec.eq_of_toNat_eq
  have hx := x.isLt
  rw [BitVec.toNat_ushiftRight, Nat.shiftRight_eq_div_pow, BitVec.msb_eq_decide]
  simp only [decide_eq_true_eq]
  split
  · rw [show BitVec.toNat (1 : Limb) = 1 from rfl]
    omega
  · rw [show BitVec.toNat (0 : Limb) = 0 from rfl]
    omega

theorem sign_concat (l : List Limb) (x : Limb) : sign (l ++ [x]) = if x.msb then 1 else 0 := by
  rw [sign, List.getLastD_concat]
  exact shiftRight_msb x

theorem toInt_eq_zero_iff (v : Limb) : v.toInt = 0 ↔ v = 0 := by
  rw [← BitVec.toInt_inj]
  rfl

theorem toInt_eq_neg_one_iff (v : Limb) : v.toInt = -1 ↔ v = -1 := by
  rw [← BitVec.toInt_inj]
  rfl

theorem significant_eq_false (v u : Limb) : significant v u = false ↔ SignLimb v u := by
  have htest : significant v u = false ↔ (v = 0 ∨ v = -1) ∧ v &&& 1 = u >>> 31 := by
    rw [significant, Bool.or_eq_false_iff, Bool.and_eq_false_iff]
    simp only [ne_eq, decide_not, Bool.not_eq_false', decide_eq_true_eq]
  rw [htest, SignLimb, shiftRight_msb]
  cases u.msb with
  | true =>
    rw [if_pos rfl, if_pos rfl, toInt_eq_neg_one_iff]
    constructor
    · rintro ⟨rfl | rfl, h⟩
      · cases h
      · rfl
    · rintro rfl
      exact ⟨.inr rfl, rfl⟩
  | false =>
    rw [if_neg (by decide), if_neg (by decide), toInt_eq_zero_iff]
    constructor
    · rintro ⟨rfl | rfl, h⟩
      · rfl
      · cases h
    · rintro rfl
      exact ⟨.inl rfl, rfl⟩

theorem take_add_two {l : Nat} {tab : List Limb} (h : l + 2 ≤ tab.length) :
    tab.take (l + 2) = tab.take l ++ [tab.getD l 0, tab.getD (l + 1) 0] := by
  rw [List.getD_eq_getElem _ _ (show l < tab.length by omega),
    List.getD_eq_getElem _ _ (show l + 1 < tab.length by omega)]
  rw [← List.take_append_getElem (show l + 1 < tab.length by omega),
    ← List.take_append_getElem (show l < tab.length by omega), List.append_assoc]
  rfl

theorem trimmedLength_spec {tab : List Limb} (l : Nat) (h : l + 1 ≤ tab.length) :
    Minimal (tab.take (trimmedLength tab (l + 1))) ∧
      signed (tab.take (trimmedLength tab (l + 1))) = signed (tab.take (l + 1)) := by
  induction l with
  | zero =>
    obtain ⟨x, rest, rfl⟩ : ∃ x rest, tab = x :: rest := by
      cases tab with
      | nil => simp at h
      | cons x rest => exact ⟨x, rest, rfl⟩
    exact ⟨minimal_singleton x, rfl⟩
  | succ l ih =>
    rw [trimmedLength, take_add_two h]
    cases hs : significant (tab.getD (l + 1) 0) (tab.getD l 0) with
    | true =>
      rw [if_pos rfl, take_add_two h]
      refine ⟨(minimal_concat_iff (by decide)).mpr fun hsign => ?_, rfl⟩
      rw [(significant_eq_false _ _).mpr hsign] at hs
      cases hs
    | false =>
      obtain ⟨hmin, hval⟩ := ih (by omega)
      rw [if_neg (by decide)]
      refine ⟨hmin, hval.trans ?_⟩
      rw [signed_drop ((significant_eq_false _ _).mp hs),
        ← List.take_append_getElem (show l < tab.length by omega),
        List.getD_eq_getElem _ _ (show l < tab.length by omega)]

theorem normalize_spec {a : JSBigInt} (h : a ≠ []) :
    Minimal (normalize a) ∧ signed (normalize a) = signed a := by
  obtain ⟨l, hl⟩ := Nat.exists_eq_succ_of_ne_zero (List.length_pos_iff.mpr h).ne'
  obtain ⟨hmin, hval⟩ := @trimmedLength_spec a l (by omega)
  rw [normalize, hl]
  refine ⟨hmin, hval.trans ?_⟩
  rw [← Nat.succ_eq_add_one, ← hl, List.take_length]

theorem normalize_yields {a : JSBigInt} (h : a ≠ []) : Yields (return normalize a) (signed a) :=
  .pure (normalize_spec h)

theorem extend_yields {r : JSBigInt} (h : r ≠ []) (op1 : Limb) :
    Yields (extend r op1) (join r op1.toInt) := by
  obtain ⟨l, u, rfl⟩ := List.eq_nil_or_concat r |>.resolve_left h
  rw [List.concat_eq_append, extend, List.getLastD_concat]
  cases hs : significant op1 u with
  | true =>
    rw [if_pos rfl]
    refine reallocate_outcome.bind fun _ _ => .pure ⟨?_, signed_concat _ _⟩
    rw [List.append_assoc]
    refine (minimal_concat_iff (by decide)).mpr fun hsign => ?_
    rw [(significant_eq_false _ _).mpr hsign] at hs
    cases hs
  | false =>
    have hsign : op1.toInt = signPart (l ++ [u]) := by
      rw [signPart_concat]
      exact (significant_eq_false _ _).mp hs
    rw [if_neg (by decide), hsign]
    exact normalize_yields (by simp)

end TurboJS.BigInt
