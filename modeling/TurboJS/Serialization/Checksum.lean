import TurboJS.Foundation.Leb128

namespace TurboJS.Serialization

open Foundation

/-! The checksum of serialized objects. -/

abbrev Byte := BitVec 8

def bcVersion : Byte := 27

/-- `get_u32` of a little-endian host. -/
def getU32 (b0 b1 b2 b3 : Byte) : BitVec 32 := b3 ++ b2 ++ b1 ++ b0

def putU32 (v : BitVec 32) : List Byte :=
  [v.extractLsb' 0 8, v.extractLsb' 8 8, v.extractLsb' 16 8, v.extractLsb' 24 8]

def putLeb (v : Nat) : List Byte := (putLeb128 v).map (BitVec.ofNat 8)

/-- The loop of `bc_csum`, which goes on while more than four bytes are left. -/
def csumLoop (h : BitVec 32) : List Byte → BitVec 32 × List Byte
  | b0 :: b1 :: b2 :: b3 :: b4 :: p => csumLoop ((h + getU32 b0 b1 b2 b3) * 0x9e370001) (b4 :: p)
  | p => (h, p)

/-- The `switch` on the bytes that are left. It has no case for four of them. -/
def csumTail (p : List Byte) : BitVec 32 :=
  let (a, b, c) : Byte × Byte × Byte :=
    match p with
    | [a, b, c] => (a, b, c)
    | [a, b] => (a, b, 0)
    | [a] => (a, 0, 0)
    | _ => (0, 0, 0)
  a.setWidth 32 ||| b.setWidth 32 <<< 8 ||| c.setWidth 32 <<< 16

def csumFrom (h : BitVec 32) (p : List Byte) : BitVec 32 :=
  ((csumLoop h p).1 + csumTail (csumLoop h p).2) * 0x9e370001

def bcCsum (p : List Byte) : BitVec 32 := csumFrom 0 p

inductive AtomEntry where
  | const (atom : BitVec 32)
  | named (type : Byte) (string : List Byte)
  deriving DecidableEq, Repr

def AtomEntry.bytes : AtomEntry → List Byte
  | .const atom => 0 :: putU32 atom
  | .named type string => type :: string

/-- What `JS_WriteObjectRec` leaves: the atoms that it has met, and the bytes of the object. -/
structure Record where
  atoms : List AtomEntry
  body : List Byte
  deriving DecidableEq, Repr

/-- `JS_WriteObjectAtoms`; the checksum is filled in after it. -/
def writeObjectAtoms (r : Record) : List Byte :=
  bcVersion :: putU32 0 ++ putLeb r.atoms.length ++ r.atoms.flatMap AtomEntry.bytes ++ r.body

/-- `JS_WriteObject2`. The object is given by what `JS_WriteObjectRec` makes of it, and `none` is
its failure. -/
def writeObject2 (written : Option Record) : Option (List Byte) := do
  let buf := writeObjectAtoms (← written)
  some (buf.take 1 ++ putU32 (bcCsum (buf.drop 5)) ++ buf.drop 5)

inductive Primitive where
  | null
  | undefined
  | bool (b : Bool)
  | int (v : BitVec 32)
  | float64 (u : BitVec 64)
  deriving DecidableEq, Repr

/-- `JS_WriteObjectRec` on a value without parts. -/
def Primitive.write (v : Primitive) : Record :=
  { atoms := []
    body := match v with
      | .null => [1]
      | .undefined => [2]
      | .bool b => [if b then 4 else 3]
      | .int v => 5 :: (putSleb128 v).map (BitVec.ofNat 8)
      | .float64 u => 6 :: (putU32 (u.setWidth 32) ++ putU32 ((u >>> 32).setWidth 32)) }

/-- The errors of the reader; `later` is one that is met behind the checksum. -/
inductive ReadError (ε : Type) where
  | endOfBuffer
  | version (v8 : Byte)
  | checksum
  | later (e : ε)
  deriving DecidableEq, Repr

/-- `JS_ReadObject2`, with the part of `JS_ReadObjectAtoms` in front of the atoms; `rest` reads
the atoms and the object. -/
def readObject2 {ε α : Type} (rest : List Byte → Except ε α) : List Byte → Except (ReadError ε) α
  | [] => .error .endOfBuffer
  | v8 :: s =>
    if v8 ≠ bcVersion then .error (.version v8)
    else
      match s with
      | b0 :: b1 :: b2 :: b3 :: s =>
        let h := getU32 b0 b1 b2 b3
        if h ≠ 0xffffffff ∧ h ≠ bcCsum s then .error .checksum
        else (rest s).mapError .later
      | _ => .error .endOfBuffer

section

variable {x y h h' : BitVec 32} {a b c d a' b' c' d' : Byte} {p : List Byte}

theorem multiplier_injective : x * 0x9e370001 = y * 0x9e370001 ↔ x = y := by
  refine ⟨fun h => ?_, fun h => by rw [h]⟩
  have hinverse (z : BitVec 32) : z * 0x9e370001 * 0x61c90001 = z := by
    rw [BitVec.mul_assoc]
    exact BitVec.mul_one z
  rw [← hinverse x, h, hinverse]

theorem append_toNat {n : Nat} (x : BitVec n) (y : Byte) :
    (x ++ y).toNat = x.toNat * 256 + y.toNat := by
  rw [BitVec.toNat_append, ← Nat.shiftLeft_add_eq_or_of_lt y.isLt, Nat.shiftLeft_eq]

theorem getU32_toNat : (getU32 a b c d).toNat =
    ((d.toNat * 256 + c.toNat) * 256 + b.toNat) * 256 + a.toNat := by
  simp only [getU32, append_toNat]

theorem getU32_injective :
    getU32 a b c d = getU32 a' b' c' d' ↔ a = a' ∧ b = b' ∧ c = c' ∧ d = d' := by
  simp only [← BitVec.toNat_inj, getU32_toNat]
  omega

theorem getU32_putU32 (v : BitVec 32) : ∃ b0 b1 b2 b3,
    putU32 v = [b0, b1, b2, b3] ∧ getU32 b0 b1 b2 b3 = v := by
  refine ⟨_, _, _, _, rfl, ?_⟩
  apply BitVec.eq_of_toNat_eq
  have := v.isLt
  simp only [getU32_toNat, BitVec.extractLsb'_toNat, Nat.shiftRight_eq_div_pow]
  omega

theorem csumTail_three : csumTail [a, b, c] = getU32 a b c 0 := by
  apply BitVec.eq_of_toNat_eq
  have ha := a.isLt
  have hb := b.isLt
  have hc := c.isLt
  have hbyte (b : Byte) : b.toNat % 2 ^ 32 = b.toNat := Nat.mod_eq_of_lt (by omega)
  have hor {x y : Nat} (i : Nat) (h : y < 2 ^ i) : y ||| x <<< i = x * 2 ^ i + y := by
    rw [Nat.or_comm, ← Nat.shiftLeft_add_eq_or_of_lt h, Nat.shiftLeft_eq]
  have hlow : (b.toNat <<< 8) % 2 ^ 32 = b.toNat <<< 8 := by
    rw [Nat.shiftLeft_eq]
    omega
  have hhigh : (c.toNat <<< 16) % 2 ^ 32 = c.toNat <<< 16 := by
    rw [Nat.shiftLeft_eq]
    omega
  simp only [csumTail, getU32_toNat, BitVec.toNat_or, BitVec.toNat_shiftLeft, hbyte,
    BitVec.toNat_setWidth, hlow, hhigh]
  rw [hor 8 ha, hor 16 (by omega), show (0 : Byte).toNat = 0 from rfl]
  omega

theorem csumFrom_loop (h : BitVec 32) (b0 b1 b2 b3 : Byte) {p : List Byte} (hp : p ≠ []) :
    csumFrom h (b0 :: b1 :: b2 :: b3 :: p) =
      csumFrom ((h + getU32 b0 b1 b2 b3) * 0x9e370001) p := by
  cases p with
  | nil => exact absurd rfl hp
  | cons b4 p => rfl

theorem csumFrom_short (hp : p.length ≤ 4) : csumFrom h p = (h + csumTail p) * 0x9e370001 := by
  match p with
  | [] | [_] | [_, _] | [_, _, _] | [_, _, _, _] => rfl

theorem csumFrom_injective : ∀ (p : List Byte) {h h' : BitVec 32},
    csumFrom h p = csumFrom h' p ↔ h = h'
  | b0 :: b1 :: b2 :: b3 :: b4 :: p, h, h' => by
    rw [csumFrom_loop _ _ _ _ _ (List.cons_ne_nil _ _), csumFrom_loop _ _ _ _ _
      (List.cons_ne_nil _ _), csumFrom_injective (b4 :: p), multiplier_injective,
      BitVec.add_left_inj]
  | [], h, h' | [_], h, h' | [_, _], h, h' | [_, _, _], h, h' | [_, _, _, _], h, h' => by
    rw [csumFrom_short (by simp), csumFrom_short (by simp), multiplier_injective,
      BitVec.add_left_inj]

theorem csumTail_eq (hp : p.length ≤ 3) :
    csumTail p = getU32 (p.getD 0 0) (p.getD 1 0) (p.getD 2 0) 0 :=
  match p, hp with
  | [], _ | [_], _ | [_, _], _ | [_, _, _], _ => csumTail_three

theorem csumFrom_set_short {q : Nat} {v : Byte} (hp : p.length ≤ 4) (hq : q < p.length)
    (hv : p[q]? ≠ some v) :
    csumFrom h (p.set q v) = csumFrom h p ↔ p.length % 4 = 0 ∧ p.length ≤ q + 4 := by
  rw [csumFrom_short (by simpa using hp), csumFrom_short hp, multiplier_injective,
    BitVec.add_right_inj, show p.length % 4 = 0 ∧ p.length ≤ q + 4 ↔ p.length = 4 by omega]
  by_cases h4 : p.length = 4
  · refine iff_of_true ?_ h4
    match p, h4, q with
    | [_, _, _, _], _, 0 | [_, _, _, _], _, 1 | [_, _, _, _], _, 2 | [_, _, _, _], _, 3 => rfl
  · refine iff_of_false (fun he => hv ?_) h4
    rw [csumTail_eq (by simp; omega), csumTail_eq (by omega), getU32_injective] at he
    obtain ⟨h0, h1, h2, -⟩ := he
    have hsame : (p.set q v).getD q 0 = p.getD q 0 := by
      have hlt : q < 3 := by omega
      match q, hlt with
      | 0, _ => exact h0
      | 1, _ => exact h1
      | 2, _ => exact h2
    simp only [List.getD_eq_getElem?_getD, List.getElem?_set_self hq, Option.getD_some,
      List.getElem?_eq_getElem hq] at hsame ⊢
    rw [hsame]

theorem csumFrom_set : ∀ (p : List Byte) {h : BitVec 32} {q : Nat} {v : Byte}, q < p.length →
    p[q]? ≠ some v → (csumFrom h (p.set q v) = csumFrom h p ↔
      p.length % 4 = 0 ∧ p.length ≤ q + 4)
  | b0 :: b1 :: b2 :: b3 :: b4 :: p, h, q, v => by
    intro hq hv
    have hloop (c0 c1 c2 c3 : Byte) := csumFrom_loop h c0 c1 c2 c3 (List.cons_ne_nil b4 p)
    have hword {c0 c1 c2 c3 : Byte} (hne : ¬ (c0 = b0 ∧ c1 = b1 ∧ c2 = b2 ∧ c3 = b3)) :
        csumFrom h (c0 :: c1 :: c2 :: c3 :: b4 :: p) ≠
          csumFrom h (b0 :: b1 :: b2 :: b3 :: b4 :: p) := by
      rw [hloop, hloop, ne_eq, csumFrom_injective, multiplier_injective, BitVec.add_right_inj,
        getU32_injective]
      exact hne
    match q with
    | 0 | 1 | 2 | 3 =>
      simp only [List.getElem?_cons_zero, List.getElem?_cons_succ, ne_eq, Option.some.injEq] at hv
      refine iff_of_false (hword (by simp [Ne.symm hv])) ?_
      simp only [List.length_cons]
      omega
    | q + 4 =>
      have hrest := csumFrom_set (b4 :: p) (h := (h + getU32 b0 b1 b2 b3) * 0x9e370001)
        (q := q) (v := v) (by simpa using hq) (by simpa using hv)
      rw [hloop, List.set_cons_succ, List.set_cons_succ, List.set_cons_succ, List.set_cons_succ,
        csumFrom_loop _ _ _ _ _ (by simp), hrest]
      simp only [List.length_cons]
      omega
  | [], _, _, _ | [_], _, _, _ | [_, _], _, _, _ | [_, _, _], _, _, _ | [_, _, _, _], _, _, _ =>
    csumFrom_set_short (by simp)

end

section

variable {ε α : Type} {rest : List Byte → Except ε α} {r : Record} {out : List Byte} {p : Nat}
  {v : Byte}

theorem writeObject2_some (h : writeObject2 (some r) = some out) :
    ∃ body, out = bcVersion :: putU32 (bcCsum body) ++ body := by
  refine ⟨(writeObjectAtoms r).drop 5, ?_⟩
  cases h
  rfl

/-- The places that the checksum does not protect: all of them where it is the number that switches
the check off, and the last four where what it is of has a multiple of four bytes. -/
def Unprotected (out : List Byte) (p : Nat) : Prop :=
  (out.drop 1).take 4 = [0xff, 0xff, 0xff, 0xff] ∨
    ((out.length - 5) % 4 = 0 ∧ out.length ≤ p + 4)

theorem readObject2_checksum (body s : List Byte) :
    readObject2 rest (bcVersion :: putU32 (bcCsum body) ++ s) = .error .checksum ↔
      bcCsum body ≠ 0xffffffff ∧ bcCsum body ≠ bcCsum s := by
  obtain ⟨b0, b1, b2, b3, hput, hget⟩ := getU32_putU32 (bcCsum body)
  rw [hput]
  simp only [List.cons_append, List.nil_append, readObject2, ne_eq, not_true_eq_false, if_false,
    hget]
  split
  · next h => exact iff_of_true rfl h
  · next h =>
    refine iff_of_false (fun he => ?_) h
    cases hr : rest s <;> rw [hr] at he <;> cases he

/-- A changed byte behind the checksum is an error of the checksum unless its place is
unprotected. -/
theorem changed_byte_fails_iff (written : Option Record) (h : writeObject2 written = some out)
    (hp : 5 ≤ p) (hlt : p < out.length) (hv : out[p]? ≠ some v) :
    readObject2 rest (out.set p v) = .error .checksum ↔ ¬ Unprotected out p := by
  obtain ⟨r, rfl⟩ : ∃ r, written = some r := by
    cases written with
    | none => cases h
    | some r => exact ⟨r, rfl⟩
  obtain ⟨body, rfl⟩ := writeObject2_some h
  obtain ⟨q, rfl⟩ := Nat.exists_eq_add_of_le' hp
  obtain ⟨b0, b1, b2, b3, hput, hget⟩ := getU32_putU32 (bcCsum body)
  have hset : (bcVersion :: putU32 (bcCsum body) ++ body).set (q + 5) v =
      bcVersion :: putU32 (bcCsum body) ++ body.set q v := by
    rw [hput]
    rfl
  have hescape : bcCsum body = 0xffffffff ↔ [b0, b1, b2, b3] = [0xff, 0xff, 0xff, 0xff] := by
    rw [← hget, show (0xffffffff : BitVec 32) = getU32 0xff 0xff 0xff 0xff from rfl,
      getU32_injective]
    simp
  have hsame := csumFrom_set body (h := 0) (q := q) (v := v)
    (by simpa [hput] using hlt) (by simpa [hput] using hv)
  rw [hset, readObject2_checksum, Unprotected, hput]
  simp only [List.cons_append, List.nil_append, List.drop_succ_cons, List.drop_zero,
    List.take_succ_cons, List.take_zero, List.length_cons, not_or, ne_eq, hescape]
  rw [eq_comm (a := bcCsum body), bcCsum, bcCsum, hsame]
  refine and_congr_right fun _ => not_congr ?_
  omega

theorem changed_byte_of_null_fails :
    readObject2 (fun s => (.ok s : Except Unit (List Byte)))
      ([27, 0, 1, 0, 55, 0, 1].set 6 2) = .error .checksum ↔
      ¬ Unprotected [27, 0, 1, 0, 55, 0, 1] 6 :=
  changed_byte_fails_iff (some Primitive.null.write) (by decide +kernel) (by decide) (by decide)
    (by decide)

/-- The last byte of the integer 100 is one of four that the checksum does not see. -/
theorem last_byte_changes_unnoticed :
    ¬ ∀ (rest : List Byte → Except Unit (List Byte)) (written : Option Record) (out : List Byte)
      (p : Nat) (v : Byte), writeObject2 written = some out → 5 ≤ p → p < out.length →
      out[p]? ≠ some v → readObject2 rest (out.set p v) = .error .checksum := by
  intro h
  have hfails := h .ok (some (Primitive.int 100).write) [27, 0, 0, 0, 0, 0, 5, 200, 1] 8 2
    (by decide +kernel) (by decide) (by decide) (by decide)
  exact absurd hfails (by decide)

/-- A double whose bytes have the checksum that switches the check off. -/
example : writeObject2 (some (Primitive.float64 0x4000b26db9ff0000).write) =
    some [27, 255, 255, 255, 255, 0, 6, 0, 0, 255, 185, 109, 178, 0, 64] := by
  decide +kernel

end

end TurboJS.Serialization
