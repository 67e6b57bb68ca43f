import TurboJS.Bytecode.Calls
import TurboJS.Leaf.Builder

namespace TurboJS.Leaf
open Bytecode Foundation

/-! Leaves that hash a string: the plans of kind 3, and the loop that they stand for. -/

/-! ## Strings -/

inductive StringValue where
  | flat8 (units : List UInt8)
  | flat16 (units : List (BitVec 16))
  | rope (left right : StringValue)
  deriving DecidableEq, Repr

def StringValue.units : StringValue → List (BitVec 16)
  | .flat8 units => units.map fun c => BitVec.ofNat 16 c.toNat
  | .flat16 units => units
  | .rope left right => left.units ++ right.units

/-- `is_wide_char`, of the flat string that `JS_ToString` makes of a rope. -/
def StringValue.wide : StringValue → Bool
  | .flat8 _ => false
  | .flat16 _ => true
  | .rope left right => left.wide || right.wide

def isHiSurrogate (c : BitVec 16) : Bool := c >>> 10 = 0xD800 >>> 10

def isLoSurrogate (c : BitVec 16) : Bool := c >>> 10 = 0xDC00 >>> 10

def fromSurrogate (hi lo : BitVec 16) : BitVec 32 :=
  65536 + 1024 * (hi.setWidth 32 &&& 1023) + (lo.setWidth 32 &&& 1023)

/-- What `string_getc` reads, called until the end of the string. -/
def readCharacters (wide : Bool) : List (BitVec 16) → List (BitVec 32)
  | [] => []
  | [c] => [c.setWidth 32]
  | c :: c1 :: rest =>
    if wide && isHiSurrogate c && isLoSurrogate c1 then
      fromSurrogate c c1 :: readCharacters wide rest
    else c.setWidth 32 :: readCharacters wide (c1 :: rest)

def hashStep (multiplier hash c : BitVec 32) : BitVec 32 := (hash ^^^ c) * multiplier

/-- The realm at a call, the functions that the engine has for `Math.imul` and `charCodeAt`, and
what the string values stand for. -/
structure StringWorld where
  realm : Realm
  imul : Nat
  charCodeAt : Nat
  text : Nat → StringValue

/-- The branch of `turbojs_try_inline_leaf_call_object` for the plans of kind 3. -/
def StringWorld.callHash (w : StringWorld) (plan : Plan) (arg : JSValue) : Option JSValue := do
  let guard ← plan.guard
  let hash ← plan.hash
  match arg with
  | .foreign s =>
    if w.realm.ownObject w.realm.globalObject guard.mathAtom = some guard.mathObject ∧
        w.realm.ownObject guard.mathObject guard.imulAtom = some guard.imulFunction ∧
        w.realm.ownObject hash.stringPrototype hash.charcodeAtom = some hash.charcodeFunction then
      some (ofBits ((readCharacters (w.text s).wide (w.text s).units).foldl
        (hashStep hash.multiplier) hash.seed))
    else none
  | _ => none

/-- What the bytecode asks from its surroundings. A call of `charCodeAt` behind the end of the
string is NaN. -/
def StringWorld.ops (w : StringWorld) : CallOps Unit where
  toHeapOps := { noHeap with
    getVar := fun _ atom => w.realm.ownValue w.realm.globalObject atom
    getField := fun _ v atom =>
      match v with
      | .object o => w.realm.ownValue o atom
      | .foreign _ => w.realm.ownValue w.realm.stringPrototype atom
      | _ => none
    getLength := fun _ v =>
      match v with
      | .foreign s => some (.number (w.text s).units.length)
      | _ => none }
  call := fun _ f this args =>
    match f, this, args with
    | .object o, _, [.number m, .number n] =>
      if o = w.imul then some (ofBits (toBits m * toBits n), ()) else none
    | .object o, .foreign s, [.number n] =>
      if o = w.charCodeAt ∧ 0 ≤ n then
        some (((w.text s).units[n.toNat]?).elim .nan fun c => .number c.toNat, ())
      else none
    | _, _, _ => none
  arrayFrom := fun _ _ => none
  thisFunction := .undefined

def StringWorld.Returns (w : StringWorld) (f : LeafFunction) (arg v : JSValue) : Prop :=
  ∃ s, Runs (stepFunction w.ops f.toFunctionBytecode) (fun _ => True)
    { pc := 0, stack := [], heap := (), slots := fun slot =>
        if slot = ⟨.argument, 0⟩ then arg else .undefined } s ∧
    returned f.toFunctionBytecode s = some v

def StringWorld.Standard (w : StringWorld) (plan : Plan) : Prop :=
  ∃ guard hash math, plan.guard = some guard ∧ plan.hash = some hash ∧
    w.realm.ownValue w.realm.globalObject guard.mathAtom = some math ∧
    w.ops.getField () math guard.imulAtom = some (.object w.imul) ∧
    w.realm.ownValue w.realm.stringPrototype hash.charcodeAtom = some (.object w.charCodeAt)

def HashJumps (f : LeafFunction) : Prop := f.code[20]? = some 50 ∧ f.code[69]? = some 200

section

variable {realm : Realm} {f : LeafFunction} {plan : Plan} {w : StringWorld}

structure HashCode (f : LeafFunction) (index math imul charcode multiplier : Nat) : Prop where
  op : ∀ x ∈ hashOpcodes, f.code[x.1]? = some (UInt8.ofNat x.2)
  operand : ∀ x ∈ hashOperands, readBytes f.code x.1 2 = some x.2
  index : readBytes f.code 4 1 = some index
  math : readBytes f.code 22 4 = some math
  imul : readBytes f.code 27 4 = some imul
  charcode : readBytes f.code 36 4 = some charcode
  multiplier : readBytes f.code 48 4 = some multiplier

theorem detect_accepts (h : detectStringHashLeaf realm f = some plan) :
    ∃ index math imul charcode multiplier seed guard function,
      HashCode f index math imul charcode multiplier ∧
      f.cpool[index]? = some (.number seed) ∧ plan.guard = some guard ∧
      realm.imulGuard math imul = some guard ∧ plan.hash = some ⟨realm.stringPrototype, function,
        charcode, toBits seed, BitVec.ofNat 32 multiplier⟩ ∧
      realm.ownObject realm.stringPrototype charcode = some function := by
  unfold detectStringHashLeaf at h
  split at h
  · rename_i hcode
    obtain ⟨-, -, -, -, hop, hoperand⟩ := hcode
    simp only [Option.bind_eq_bind, Option.bind_eq_some_iff] at h
    obtain ⟨math, hmath, imul, himul, charcode, hcharcode, h⟩ := h
    split at h
    · obtain ⟨index, hindex, h⟩ := Option.bind_eq_some_iff.mp h
      obtain ⟨multiplier, hmultiplier, h⟩ := Option.bind_eq_some_iff.mp h
      split at h
      · rename_i seed hseed
        obtain ⟨guard, hguard, h⟩ := Option.bind_eq_some_iff.mp h
        obtain ⟨function, hfunction, he⟩ := Option.bind_eq_some_iff.mp h
        cases he
        exact ⟨_, _, _, _, _, seed, guard, function, ⟨hop, hoperand, hindex, hmath, himul, hcharcode,
          hmultiplier⟩, hseed, rfl, hguard, rfl, hfunction⟩
      · cases h
    · cases h
  · cases h

theorem decode_of_byte {code : List UInt8} {p : Nat} {b : UInt8} {e : Encoding} {r : Insn × Nat}
    (hb : code[p]? = some b) (he : opcodeTable.lookup b.toNat = some e)
    (hr : e.read code (p + 1) = some r) : decode code p = some r := by
  simp [decode, hb, he, hr]

def hashPrologue (index : Nat) : List Insn :=
  [.setUninitialized 0, .pushConst index, .pushShort 0, .plain .or, .put ⟨.local, 0⟩ .short,
    .setUninitialized 1, .pushShort 0, .put ⟨.local, 1⟩ .short]

def hashTest : List Insn :=
  [.get ⟨.local, 1⟩ .check, .get ⟨.argument, 0⟩ .short, .plain .getLength, .plain .lt]

def hashBody (math imul charcode : Nat) (multiplier : ℤ) : List Insn :=
  [.getVar math, .getField2 imul, .get ⟨.local, 0⟩ .check, .get ⟨.argument, 0⟩ .short,
    .getField2 charcode, .get ⟨.local, 1⟩ .check, .callMethod 1, .plain .xor,
    .pushInt multiplier .w32, .callMethod 2, .plain .dup, .put ⟨.local, 0⟩ .check, .plain .drop,
    .get ⟨.local, 1⟩ .check, .plain .postInc, .put ⟨.local, 1⟩ .check, .plain .drop]

def hashEnd : List Insn := [.get ⟨.local, 0⟩ .check, .pushShort 0, .plain .or]

/-- The operand of `push_i32`. -/
def hashMultiplier (n : Nat) : ℤ := if n < 2 ^ 31 then (n : ℤ) else (n : ℤ) - 2 ^ 32

variable {index math imul charcode multiplier : Nat}

theorem HashCode.decode_u16 (h : HashCode f index math imul charcode multiplier)
    {p b n : Nat} {i : Nat → Insn} (hb : (p, b) ∈ hashOpcodes)
    (he : opcodeTable.lookup (UInt8.ofNat b).toNat = some (.u16 i))
    (hn : (p + 1, n) ∈ hashOperands) : decode f.code p = some (i n, p + 3) :=
  decode_of_byte (h.op _ hb) he (by rw [Encoding.read, h.operand _ hn]; rfl)

theorem HashCode.decode_plain (h : HashCode f index math imul charcode multiplier)
    {p b : Nat} {i : Insn} (hb : (p, b) ∈ hashOpcodes)
    (he : opcodeTable.lookup (UInt8.ofNat b).toNat = some (.none i)) :
    decode f.code p = some (i, p + 1) :=
  decode_of_byte (h.op _ hb) he rfl

theorem HashCode.spells_prologue (h : HashCode f index math imul charcode multiplier) :
    Spells f.code 0 (hashPrologue index) 13 :=
  have hindex : decode f.code 3 = some (.pushConst index, 5) :=
    decode_of_byte (h.op (3, 197) (by decide)) rfl (by rw [Encoding.read, h.index]; rfl)
  ⟨3, h.decode_u16 (b := 96) (by decide) rfl (by decide), 5, hindex,
    6, h.decode_plain (b := 187) (by decide) rfl, 7, h.decode_plain (b := 164) (by decide) rfl,
    8, h.decode_plain (b := 208) (by decide) rfl,
    11, h.decode_u16 (b := 96) (by decide) rfl (by decide),
    12, h.decode_plain (b := 187) (by decide) rfl, 13, h.decode_plain (b := 209) (by decide) rfl,
    rfl⟩

theorem HashCode.spells_test (h : HashCode f index math imul charcode multiplier) :
    Spells f.code 13 hashTest 19 :=
  ⟨16, h.decode_u16 (b := 97) (by decide) rfl (by decide),
    17, h.decode_plain (b := 216) (by decide) rfl, 18, h.decode_plain (b := 240) (by decide) rfl,
    19, h.decode_plain (b := 166) (by decide) rfl, rfl⟩

theorem HashCode.spells_body (h : HashCode f index math imul charcode multiplier) :
    Spells f.code 21 (hashBody math imul charcode (hashMultiplier multiplier)) 68 :=
  have hmath : decode f.code 21 = some (.getVar math, 26) :=
    decode_of_byte (h.op (21, 56) (by decide)) rfl (by rw [Encoding.read, h.math]; rfl)
  have himul : decode f.code 26 = some (.getField2 imul, 31) :=
    decode_of_byte (h.op (26, 65) (by decide)) rfl (by rw [Encoding.read, h.imul]; rfl)
  have hcharcode : decode f.code 35 = some (.getField2 charcode, 40) :=
    decode_of_byte (h.op (35, 65) (by decide)) rfl (by rw [Encoding.read, h.charcode]; rfl)
  have hmultiplier : decode f.code 47 = some (.pushInt (hashMultiplier multiplier) .w32, 52) :=
    decode_of_byte (h.op (47, 1) (by decide)) rfl
      (by simp [Encoding.read, readSigned, h.multiplier, hashMultiplier])
  ⟨26, hmath, 31, himul, 34, h.decode_u16 (b := 97) (by decide) rfl (by decide),
    35, h.decode_plain (b := 216) (by decide) rfl, 40, hcharcode,
    43, h.decode_u16 (b := 97) (by decide) rfl (by decide),
    46, h.decode_u16 (b := 36) (by decide) rfl (by decide),
    47, h.decode_plain (b := 163) (by decide) rfl, 52, hmultiplier,
    55, h.decode_u16 (b := 36) (by decide) rfl (by decide),
    56, h.decode_plain (b := 17) (by decide) rfl,
    59, h.decode_u16 (b := 98) (by decide) rfl (by decide),
    60, h.decode_plain (b := 14) (by decide) rfl,
    63, h.decode_u16 (b := 97) (by decide) rfl (by decide),
    64, h.decode_plain (b := 144) (by decide) rfl,
    67, h.decode_u16 (b := 98) (by decide) rfl (by decide),
    68, h.decode_plain (b := 14) (by decide) rfl, rfl⟩

theorem HashCode.spells_end (h : HashCode f index math imul charcode multiplier) :
    Spells f.code 70 hashEnd 75 :=
  ⟨73, h.decode_u16 (b := 97) (by decide) rfl (by decide),
    74, h.decode_plain (b := 187) (by decide) rfl, 75, h.decode_plain (b := 164) (by decide) rfl,
    rfl⟩

theorem StringWorld.piece_runs {is : List Insn} {p q : Nat} {st st' : List JSValue}
    {slots slots' : Slot → JSValue} (hcode : Spells f.code p is q)
    (hs : is.all Insn.straight = true)
    (he : execFunctionAll w.ops f.cpool (is.map .base) ⟨p, st, slots, ()⟩ =
      some ⟨p, st', slots', ()⟩) :
    Runs (stepFunction w.ops f.toFunctionBytecode) (fun _ => True) ⟨p, st, slots, ()⟩
      ⟨q, st', slots', ()⟩ := by
  refine (execFunctionAll_runs (fun i hi => ?_) hcode.function he).mono fun _ _ => trivial
  obtain ⟨j, hj, rfl⟩ := List.mem_map.mp hi
  exact List.all_eq_true.mp hs j hj

structure HashLocals (s : Nat) (hash : BitVec 32) (i : Nat) (slots : Slot → JSValue) : Prop where
  hash : slots ⟨.local, 0⟩ = ofBits hash
  index : slots ⟨.local, 1⟩ = .number i
  arg : slots ⟨.argument, 0⟩ = .foreign s

theorem toBits_toInt (b : BitVec 32) : toBits b.toInt = b := BitVec.ofInt_toInt

theorem numeric_or_bits (n : ℤ) : numeric .or n 0 = some (ofBits (toBits n)) := by
  rw [numeric, show toBits 0 = 0#32 from rfl, BitVec.or_zero]

theorem toBits_unit (c : BitVec 16) : toBits (c.toNat : ℤ) = c.setWidth 32 := by
  rw [toBits, BitVec.ofInt_natCast]
  exact BitVec.eq_of_toNat_eq (by simp)

theorem toBits_multiplier (n : Nat) : toBits (hashMultiplier n) = BitVec.ofNat 32 n := by
  unfold hashMultiplier toBits
  split
  · exact BitVec.ofInt_natCast 32 n
  · refine BitVec.eq_of_toNat_eq ?_
    rw [BitVec.toNat_ofInt, BitVec.toNat_ofNat]
    omega

variable {s : Nat} {hash : BitVec 32} {i : Nat} {slots : Slot → JSValue} {c : BitVec 16}
  {object : JSValue}

theorem exec_hashBody (hmath : w.realm.ownValue w.realm.globalObject math = some object)
    (himul : w.ops.getField () object imul = some (.object w.imul))
    (hcharcode : w.realm.ownValue w.realm.stringPrototype charcode = some (.object w.charCodeAt))
    (hc : (w.text s).units[i]? = some c) (hl : HashLocals s hash i slots) : ∃ slots',
    execFunctionAll w.ops f.cpool
      ((hashBody math imul charcode (hashMultiplier multiplier)).map .base) ⟨21, [], slots, ()⟩ =
      some ⟨21, [], slots', ()⟩ ∧
    HashLocals s (hashStep (BitVec.ofNat 32 multiplier) hash (c.setWidth 32)) (i + 1) slots' := by
  have hcall : w.ops.call () (.object w.charCodeAt) (.foreign s) [.number i] =
      some (.number c.toNat, ()) := by
    simp [StringWorld.ops, hc]
  have himulcall (m n : ℤ) : w.ops.call () (.object w.imul) object [.number m, .number n] =
      some (ofBits (toBits m * toBits n), ()) := by
    simp [StringWorld.ops]
  have hvar : w.ops.getVar () math = some object := hmath
  have hfield : w.ops.getField () (.foreign s) charcode = some (.object w.charCodeAt) := hcharcode
  have hread : execFunctionAll w.ops f.cpool
      (((hashBody math imul charcode (hashMultiplier multiplier)).map .base).take 8)
      ⟨21, [], slots, ()⟩ = some ⟨21, [ofBits (toBits hash.toInt ^^^ toBits c.toNat),
        .object w.imul, object], slots, ()⟩ := by
    simp [hashBody, execFunctionAll, execInvoke, State.push, hvar, himul, hfield, hl.hash, hl.index,
      hl.arg, hcall, ofBits, numeric]
  refine ⟨Function.update (Function.update slots ⟨.local, 0⟩ (ofBits (toBits
    (toBits hash.toInt ^^^ toBits c.toNat).toInt * toBits (hashMultiplier multiplier))))
    ⟨.local, 1⟩ (.number ((i : ℤ) + 1)), ?_, ?_, ?_, ?_⟩
  · rw [← List.take_append_drop 8 (List.map _ _), execFunctionAll_append hread]
    simp [hashBody, execFunctionAll, execInvoke, State.push, hl.hash, hl.index, himulcall, ofBits]
  · rw [Function.update_of_ne (by decide), Function.update_self]
    simp only [toBits_toInt, toBits_unit, toBits_multiplier, hashStep]
  · simp
  · simp [hl.arg]

theorem hashTest_exec (hl : HashLocals s hash i slots) {p : Nat} :
    execFunctionAll w.ops f.cpool (hashTest.map .base) ⟨p, [], slots, ()⟩ =
      some ⟨p, [.bool (i < (w.text s).units.length)], slots, ()⟩ := by
  simp [hashTest, execFunctionAll, State.push, hl.index, hl.arg, StringWorld.ops, numeric]

section

variable (h : HashCode f index math imul charcode multiplier) (hjumps : HashJumps f)
  (hmath : w.realm.ownValue w.realm.globalObject math = some object)
  (himul : w.ops.getField () object imul = some (.object w.imul))
  (hcharcode : w.realm.ownValue w.realm.stringPrototype charcode = some (.object w.charCodeAt))

include h hjumps

theorem head_runs (hl : HashLocals s hash i slots) :
    Runs (stepFunction w.ops f.toFunctionBytecode) (fun _ => True) ⟨13, [], slots, ()⟩
      ⟨if i < (w.text s).units.length then 21 else 70, [], slots, ()⟩ := by
  have hbranch : decode f.code 19 = some (.ifFalse 70 .w8, 21) :=
    decode_of_byte (h.op (19, 241) (by decide)) rfl
      (by simp [Encoding.read, readSigned, readBytes, hjumps.1])
  refine (StringWorld.piece_runs h.spells_test rfl (hashTest_exec (f := f) (w := w) hl)).trans
    (.one trivial ?_)
  rw [stepFunction_of_decode (decodeFunction_base hbranch)]
  by_cases hlt : i < (w.text s).units.length <;> simp [hlt, execFunction, exec, truthy, jump]

include hmath himul hcharcode

theorem hashRound_runs (hc : (w.text s).units[i]? = some c) (hl : HashLocals s hash i slots) :
    ∃ slots',
    Runs (stepFunction w.ops f.toFunctionBytecode) (fun _ => True) ⟨13, [], slots, ()⟩
      ⟨13, [], slots', ()⟩ ∧
    HashLocals s (hashStep (BitVec.ofNat 32 multiplier) hash (c.setWidth 32)) (i + 1) slots' := by
  obtain ⟨slots', hbody, hl'⟩ := exec_hashBody (f := f) hmath himul hcharcode hc hl
  refine ⟨slots', ?_, hl'⟩
  have hback : decode f.code 68 = some (.goto 13 .w8, 70) :=
    decode_of_byte (h.op (68, 243) (by decide)) rfl
      (by simp [Encoding.read, readSigned, readBytes, hjumps.2])
  have hagain : Runs (stepFunction w.ops f.toFunctionBytecode) (fun _ => True)
      ⟨68, [], slots', ()⟩ ⟨13, [], slots', ()⟩ := by
    refine .one trivial ?_
    rw [stepFunction_of_decode (decodeFunction_base hback)]
    rfl
  have hhead := head_runs (w := w) h hjumps hl
  rw [if_pos (List.getElem?_eq_some_iff.mp hc).1] at hhead
  exact (hhead.trans (StringWorld.piece_runs h.spells_body rfl hbody)).trans hagain

theorem hashRounds_run (rest : List (BitVec 16)) (hrest : (w.text s).units.drop i = rest)
    (hl : HashLocals s hash i slots) : ∃ slots',
    Runs (stepFunction w.ops f.toFunctionBytecode) (fun _ => True) ⟨13, [], slots, ()⟩
      ⟨70, [], slots', ()⟩ ∧
    slots' ⟨.local, 0⟩ = ofBits ((rest.map (BitVec.setWidth 32)).foldl
      (hashStep (BitVec.ofNat 32 multiplier)) hash) := by
  induction rest generalizing i hash slots with
  | nil =>
    have hend := head_runs (w := w) h hjumps hl
    rw [if_neg (Nat.not_lt.mpr (List.drop_eq_nil_iff.mp hrest))] at hend
    exact ⟨slots, hend, hl.hash⟩
  | cons c rest ih =>
    have hc : (w.text s).units[i]? = some c := by
      rw [← List.head?_drop, hrest]
      rfl
    obtain ⟨slots', hround, hl'⟩ := hashRound_runs h hjumps hmath himul hcharcode hc hl
    have htail : (w.text s).units.drop (i + 1) = rest := by
      rw [← List.tail_drop, hrest]
      rfl
    obtain ⟨last, hruns, hlast⟩ := ih htail hl'
    exact ⟨last, hround.trans hruns, hlast⟩

/-- The bytecode returns the hash of the code units. -/
theorem returns_units {seed : ℤ} (hseed : f.cpool[index]? = some (.number seed)) :
    w.Returns f (.foreign s) (ofBits (((w.text s).units.map (BitVec.setWidth 32)).foldl
      (hashStep (BitVec.ofNat 32 multiplier)) (toBits seed))) := by
  have hprologue := StringWorld.piece_runs (w := w) h.spells_prologue rfl
    (show execFunctionAll w.ops f.cpool _ ⟨0, [], fun slot =>
        if slot = ⟨.argument, 0⟩ then .foreign s else .undefined, ()⟩ = some ⟨0, [],
        Function.update (Function.update (fun slot =>
          if slot = ⟨.argument, 0⟩ then .foreign s else .undefined) ⟨.local, 0⟩
          (ofBits (toBits seed))) ⟨.local, 1⟩ (.number 0), ()⟩ from by
      simp [hashPrologue, execFunctionAll, execFunction, exec, execPlain, State.push, State.setSlot,
        hseed, numeric_or_bits])
  have hlocals : HashLocals s (toBits seed) 0 (Function.update (Function.update (fun slot =>
      if slot = ⟨.argument, 0⟩ then .foreign s else .undefined) ⟨.local, 0⟩
      (ofBits (toBits seed))) ⟨.local, 1⟩ (.number 0)) :=
    ⟨by simp, by simp, by simp⟩
  obtain ⟨slots, hloop, hlast⟩ := hashRounds_run h hjumps hmath himul hcharcode
    (w.text s).units rfl hlocals
  have hend := StringWorld.piece_runs (w := w) h.spells_end rfl
    (show execFunctionAll w.ops f.cpool _ ⟨70, [], slots, ()⟩ = some ⟨70,
      [slots ⟨.local, 0⟩], slots, ()⟩ from by
      simp [hashEnd, execFunctionAll, execFunction, exec, execPlain, State.push, hlast, ofBits,
        numeric_or_bits, toBits_toInt])
  refine ⟨_, (hprologue.trans hloop).trans hend, ?_⟩
  have hreturn : decode f.code 75 = some (.plain .return, 76) :=
    h.decode_plain (b := 40) (by decide) rfl
  simp only [returned, hreturn, hlast]

end

theorem step_of_returned {b : FunctionBytecode} {ops : CallOps Unit} {t : State Unit}
    {v : JSValue} (h : returned b t = some v) : stepFunction ops b t = none := by
  unfold returned at h
  split at h
  · rename_i hd _
    rw [stepFunction_of_decode (decodeFunction_base hd)]
    rfl
  · cases h

theorem StringWorld.Returns.unique {arg v v' : JSValue} (h : w.Returns f arg v)
    (h' : w.Returns f arg v') : v = v' := by
  obtain ⟨t, hruns, ht⟩ := h
  obtain ⟨t', hruns', ht'⟩ := h'
  cases hruns.moving.exit_unique hruns'.moving (fun hn => hn (step_of_returned ht))
    (fun hn => hn (step_of_returned ht'))
  rw [ht] at ht'
  exact Option.some.inj ht'

def StringValue.Unpaired (text : StringValue) : Prop :=
  text.wide → text.units.IsChain fun c c1 => ¬ (isHiSurrogate c ∧ isLoSurrogate c1)

theorem readCharacters_of_unpaired {wide : Bool} {units : List (BitVec 16)}
    (h : wide → units.IsChain fun c c1 => ¬ (isHiSurrogate c ∧ isLoSurrogate c1)) :
    readCharacters wide units = units.map (BitVec.setWidth 32) := by
  induction units with
  | nil => rfl
  | cons c rest ih =>
    have htail := ih fun hw => (h hw).of_cons
    cases rest with
    | nil => rfl
    | cons c1 rest =>
      have hpair : ¬ (wide && isHiSurrogate c && isLoSurrogate c1) = true := by
        rw [Bool.and_eq_true, Bool.and_eq_true]
        intro hp
        exact (List.isChain_cons_cons.mp (h hp.1.1)).1 ⟨hp.1.2, hp.2⟩
      rw [readCharacters, if_neg hpair, htail]
      rfl

theorem callHash_foreign {plan : Plan} {v : JSValue}
    (h : w.callHash plan (.foreign s) = some v) :
    ∃ hash, plan.hash = some hash ∧
      v = ofBits ((readCharacters (w.text s).wide (w.text s).units).foldl
        (hashStep hash.multiplier) hash.seed) := by
  simp only [StringWorld.callHash, Option.bind_eq_bind, Option.bind_eq_some_iff] at h
  obtain ⟨guard, -, hash, hhash, h⟩ := h
  split at h
  · cases h
    exact ⟨hash, hhash, rfl⟩
  · cases h

theorem callHash_eq_none {plan : Plan} {arg : JSValue} (h : ∀ s, arg ≠ .foreign s) :
    w.callHash plan arg = none := by
  simp [StringWorld.callHash]

/-- The fast path and the bytecode agree on a string exactly when its characters hash as its
units do. -/
theorem returns_iff (hd : detectStringHashLeaf realm f = some plan) (hj : HashJumps f)
    {hash : StringHash} (hhash : plan.hash = some hash) (hw : w.Standard plan)
    (units : List (BitVec 32)) :
    w.Returns f (.foreign s) (ofBits (units.foldl (hashStep hash.multiplier) hash.seed)) ↔
      units.foldl (hashStep hash.multiplier) hash.seed =
        ((w.text s).units.map (BitVec.setWidth 32)).foldl (hashStep hash.multiplier) hash.seed := by
  obtain ⟨index, math, imul, charcode, multiplier, seed, guard, function, hcode, hseed, hguard,
    hfound, hplan, -⟩ := detect_accepts hd
  obtain ⟨guard', hash', object, hguard', hhash', hmath, himul, hcharcode⟩ := hw
  rw [hguard] at hguard'
  cases hguard'
  rw [hhash] at hplan hhash'
  cases hhash'
  cases hplan
  simp only [Realm.imulGuard, Option.bind_eq_bind, Option.bind_eq_some_iff] at hfound
  obtain ⟨mathObject, -, imulFunction, -, hfound⟩ := hfound
  cases hfound
  have hreturns := returns_units (s := s) hcode hj hmath himul hcharcode hseed
  constructor
  · intro h
    have hinj := h.unique hreturns
    exact BitVec.toInt_inj.mp (JSValue.number.inj hinj)
  · intro h
    rw [h]
    exact hreturns

def fnv : LeafFunction :=
  { code := [96, 0, 0, 197, 0, 187, 164, 208, 96, 1, 0, 187, 209, 97, 1, 0, 216, 240, 166, 241, 50,
      56, 1, 0, 0, 0, 65, 2, 0, 0, 0, 97, 0, 0, 216, 65, 3, 0, 0, 0, 97, 1, 0, 36, 1, 0, 163,
      1, 0x93, 1, 0, 1, 36, 2, 0, 17, 98, 0, 0, 14, 97, 1, 0, 144, 98, 1, 0, 14, 243, 200,
      97, 0, 0, 187, 164, 40]
    cpool := [.number 2166136261], argCount := 1, varCount := 2, normal := true, varRefCount := 0,
    closureVarCount := 0, stackSize := 5 }

/-- The global object 0 has `Math`, the object 5, and that has `imul`, the function 6. The
prototype of the strings, 8, has `charCodeAt`, the function 7. -/
def hashRealm : Realm :=
  ⟨fun atom name => decide ((atom, name) ∈ [(1, "Math"), (2, "imul"), (3, "charCodeAt")]), 0, 8,
    fun o atom => [((0, 1), JSValue.object 5), ((5, 2), .object 6), ((8, 3), .object 7)].lookup
      (o, atom)⟩

def fnvPlan : Plan :=
  { Plan.empty with
    kind := .stringHash, returnsInt32 := true, guard := some ⟨1, 2, 5, 6⟩
    hash := some ⟨8, 7, 3, 2166136261, 16777619⟩ }

def hashWorld (text : StringValue) : StringWorld := ⟨hashRealm, 6, 7, fun _ => text⟩

theorem fnv_detected : detectStringHashLeaf hashRealm fnv = some fnvPlan := by
  decide +kernel

theorem hashWorld_standard (text : StringValue) : (hashWorld text).Standard fnvPlan :=
  ⟨_, _, .object 5, rfl, rfl, rfl, rfl, rfl⟩

end

end TurboJS.Leaf
