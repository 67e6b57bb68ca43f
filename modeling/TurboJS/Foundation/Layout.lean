import Mathlib.Algebra.BigOperators.Group.List.Basic
import Mathlib.Algebra.Order.Ring.Int

namespace TurboJS.Foundation

/-! Items of different sizes that lie one behind the other. -/

variable {α : Type*} (size : α → Nat)

/-- The space that a list of items takes. -/
def extent (xs : List α) : Nat := (xs.map size).sum

/-- The item that starts at an offset; an offset inside an item names none. -/
def itemAt : List α → Nat → Option α
  | [], _ => none
  | x :: xs, off =>
    if off = 0 then some x else if off < size x then none else itemAt xs (off - size x)

@[simp] theorem extent_nil : extent size [] = 0 := rfl

@[simp] theorem extent_cons (x : α) (xs : List α) :
    extent size (x :: xs) = size x + extent size xs := by
  simp [extent]

@[simp] theorem extent_append (xs ys : List α) :
    extent size (xs ++ ys) = extent size xs + extent size ys := by
  simp [extent]

variable {size}

theorem itemAt_extent (hpos : ∀ x, 0 < size x) (xs : List α) (y : α) (ys : List α) :
    itemAt size (xs ++ y :: ys) (extent size xs) = some y := by
  induction xs with
  | nil => simp [itemAt]
  | cons x xs ih =>
    have hx := hpos x
    have hne : ¬ extent size (x :: xs) = 0 := by
      simp only [extent_cons]
      omega
    have hge : ¬ extent size (x :: xs) < size x := by
      simp only [extent_cons]
      omega
    rw [List.cons_append, itemAt, if_neg hne, if_neg hge, extent_cons, Nat.add_sub_cancel_left]
    exact ih

/-- The low `n` bytes of a number, least significant first. -/
def toLE : Nat → Nat → List UInt8
  | 0, _ => []
  | n + 1, v => UInt8.ofNat v :: toLE n (v / 256)

def ofLE : List UInt8 → Nat
  | [] => 0
  | b :: rest => b.toNat + 256 * ofLE rest

@[simp] theorem toLE_length (n v : Nat) : (toLE n v).length = n := by
  induction n generalizing v with
  | zero => rfl
  | succ n ih => simp [toLE, ih]

theorem ofLE_toLE (n v : Nat) : ofLE (toLE n v) = v % 256 ^ n := by
  induction n generalizing v with
  | zero => simp [toLE, ofLE, Nat.mod_one]
  | succ n ih =>
    have hlow : (UInt8.ofNat v).toNat = v % 256 := by simp
    rw [toLE, ofLE, ih, hlow, Nat.pow_succ', Nat.mod_mul]

/-- The `n` bytes from `offset` on; `none` if one of them lies outside of the data. -/
def bytesAt (data : List UInt8) (offset n : Nat) : Option (List UInt8) :=
  if offset + n ≤ data.length then some ((data.drop offset).take n) else none

/-- The number of `n` bytes at `offset`. -/
def getLE (n : Nat) (data : List UInt8) (offset : Nat) : Option Nat :=
  (bytesAt data offset n).map ofLE

theorem bytesAt_eq {data : List UInt8} {offset n : Nat} (h : offset + n ≤ data.length) :
    bytesAt data offset n = some ((data.drop offset).take n) :=
  if_pos h

theorem getLE_isSome (n : Nat) (data : List UInt8) (offset : Nat)
    (h : offset + n ≤ data.length) : ∃ v, getLE n data offset = some v :=
  ⟨_, by rw [getLE, bytesAt_eq h]; rfl⟩

theorem bytesAt_drop (data : List UInt8) {base : Nat} (hbase : base ≤ data.length)
    (offset n : Nat) : bytesAt (data.drop base) offset n = bytesAt data (base + offset) n := by
  unfold bytesAt
  rw [List.drop_drop, List.length_drop]
  have hiff : offset + n ≤ data.length - base ↔ base + offset + n ≤ data.length := by omega
  simp only [hiff]

theorem getLE_drop (n : Nat) (data : List UInt8) {base : Nat} (hbase : base ≤ data.length)
    (offset : Nat) : getLE n (data.drop base) offset = getLE n data (base + offset) := by
  rw [getLE, getLE, bytesAt_drop data hbase]

theorem bytesAt_append (bytes rest : List UInt8) :
    bytesAt (bytes ++ rest) 0 bytes.length = some bytes := by
  rw [bytesAt_eq (by simp)]
  simp

theorem ofLE_injective {l l' : List UInt8} (hlen : l.length = l'.length)
    (h : ofLE l = ofLE l') : l = l' := by
  induction l generalizing l' with
  | nil => exact (List.length_eq_zero_iff.mp hlen.symm).symm
  | cons b l ih =>
    cases l' with
    | nil => cases hlen
    | cons b' l' =>
      have hb := b.toNat_lt
      have hb' := b'.toNat_lt
      simp only [ofLE] at h
      have hhead : b.toNat = b'.toNat := by omega
      rw [UInt8.toNat_inj.mp hhead, ih (Nat.succ.inj hlen) (by omega)]

theorem ofLE_ge {l : List UInt8} {j : Nat} {c : UInt8} (h : l[j]? = some c) :
    256 ^ j * c.toNat ≤ ofLE l := by
  induction l generalizing j with
  | nil => cases h
  | cons b l ih =>
    cases j with
    | zero =>
      cases h
      rw [Nat.pow_zero, Nat.one_mul]
      exact Nat.le_add_right ..
    | succ j =>
      have hrest := Nat.mul_le_mul_left 256 (ih h)
      rw [ofLE, Nat.pow_succ', Nat.mul_assoc]
      omega

theorem bytesAt_set {data : List UInt8} {offset n k : Nat} (b : UInt8)
    (h : k < offset ∨ offset + n ≤ k) :
    bytesAt (data.set k b) offset n = bytesAt data offset n := by
  have hsame : ((data.set k b).drop offset).take n = (data.drop offset).take n := by
    rcases h with h | h
    · rw [List.drop_set_of_lt h]
    · rw [List.drop_set, if_neg (by omega), List.take_set_of_le (by omega)]
  rw [bytesAt, bytesAt, List.length_set, hsame]

theorem getLE_set {data : List UInt8} {offset n k : Nat} (b : UInt8)
    (h : k < offset ∨ offset + n ≤ k) :
    getLE n (data.set k b) offset = getLE n data offset := by
  rw [getLE, getLE, bytesAt_set b h]

theorem getLE_set_ne {data : List UInt8} {offset n k : Nat} {b : UInt8} (hk : offset ≤ k)
    (hkn : k < offset + n) (hle : offset + n ≤ data.length) (hb : data[k]? ≠ some b) :
    getLE n (data.set k b) offset ≠ getLE n data offset := by
  intro h
  rw [getLE, getLE, bytesAt_eq (by rwa [List.length_set]), bytesAt_eq hle, Option.map_some,
    Option.map_some, Option.some.injEq] at h
  have hsame := ofLE_injective (by simp) h
  have hat := congrArg (fun l => l[k - offset]?) hsame
  simp only [List.getElem?_take, List.getElem?_drop, if_pos (show k - offset < n by omega),
    Nat.add_sub_cancel' hk, List.getElem?_set_self (show k < data.length by omega)] at hat
  exact hb hat.symm

/-- A record as its fields in order, each a width and a value. -/
def encodeFields (fields : List (Nat × Nat)) : List UInt8 :=
  fields.flatMap fun f => toLE f.1 f.2

def fieldsSize (fields : List (Nat × Nat)) : Nat := (fields.map Prod.fst).sum

@[simp] theorem encodeFields_length (fields : List (Nat × Nat)) :
    (encodeFields fields).length = fieldsSize fields := by
  simp [encodeFields, fieldsSize, List.length_flatMap]

/-- The field that starts at an offset. -/
def fieldAt : List (Nat × Nat) → Nat → Option (Nat × Nat)
  | [], _ => none
  | f :: rest, offset =>
    if offset = 0 then some f else if f.1 ≤ offset then fieldAt rest (offset - f.1) else none

theorem getLE_encodeFields {fields : List (Nat × Nat)} {offset n v : Nat}
    (h : fieldAt fields offset = some (n, v)) (rest : List UInt8) :
    getLE n (encodeFields fields ++ rest) offset = some (v % 256 ^ n) := by
  induction fields generalizing offset with
  | nil => cases h
  | cons f fields ih =>
    obtain ⟨w, x⟩ := f
    have hsplit : encodeFields ((w, x) :: fields) ++ rest =
        toLE w x ++ (encodeFields fields ++ rest) := by
      simp [encodeFields]
    rw [hsplit]
    unfold fieldAt at h
    by_cases hzero : offset = 0
    · rw [if_pos hzero] at h
      cases h
      have hbytes := bytesAt_append (toLE n v) (encodeFields fields ++ rest)
      rw [toLE_length] at hbytes
      rw [hzero, getLE, hbytes, Option.map_some, ofLE_toLE]
    · rw [if_neg hzero] at h
      split at h
      · rename_i hle
        have hfield := ih h
        have hdrop : (toLE w x ++ (encodeFields fields ++ rest)).drop w =
            encodeFields fields ++ rest := List.drop_left' (toLE_length w x)
        have hbase : w ≤ (toLE w x ++ (encodeFields fields ++ rest)).length := by simp
        rw [← hdrop, getLE_drop n _ hbase] at hfield
        have hoff : w + (offset - w) = offset := by
          simp only at hle
          omega
        rwa [hoff] at hfield
      · cases h

end TurboJS.Foundation
