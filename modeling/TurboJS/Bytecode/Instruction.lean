import Mathlib.Algebra.Order.Ring.Int

namespace TurboJS.Bytecode

/-- The kinds of `TurboJSObjectSlot`. -/
inductive SlotKind where
  | local | argument | varRef
  deriving DecidableEq, Repr

structure Slot where
  kind : SlotKind
  index : Nat
  deriving DecidableEq, Repr

/-- How an access to a slot is encoded: with a 16-bit index, with the index in the opcode,
with an 8-bit index, or with a 16-bit index and a check for the uninitialized value. -/
inductive Form where
  | long | short | byte | check
  deriving DecidableEq, Repr

inductive Width where
  | w8 | w16 | w32
  deriving DecidableEq, Repr

inductive Plain where
  | drop | dup | swap
  | add | sub | mul | div | mod | and | or | xor | shl | sar | shr
  | lt | lte | gt | gte | eq | neq | strictEq | strictNeq
  | neg | postInc | nop | toPropkey | getArrayEl | putArrayEl | getLength
  | isUndefinedOrNull | object | return
  deriving DecidableEq, Repr

inductive Insn where
  | get (slot : Slot) (form : Form)
  | put (slot : Slot) (form : Form)
  | set (slot : Slot) (form : Form)
  | setUninitialized (index : Nat)
  | pushShort (n : Int)
  | pushInt (n : Int) (width : Width)
  | pushConst (index : Nat)
  | plain (op : Plain)
  | getField (atom : Nat)
  | getField2 (atom : Nat)
  | putField (atom : Nat)
  | defineField (atom : Nat)
  | getVar (atom : Nat)
  | call (count : Nat)
  | callMethod (count : Nat)
  | ifFalse (target : Int) (width : Width)
  | ifTrue (target : Int) (width : Width)
  | goto (target : Int) (width : Width)
  deriving DecidableEq, Repr

/-- The operand formats of `bytecode_opcodes.h`. A label is relative to its own offset. -/
inductive Encoding where
  | none (insn : Insn)
  | u8 (insn : Nat → Insn)
  | u16 (insn : Nat → Insn)
  | u32 (insn : Nat → Insn)
  | i8 (insn : Int → Insn)
  | i16 (insn : Int → Insn)
  | i32 (insn : Int → Insn)
  | label8 (insn : Int → Insn)
  | label16 (insn : Int → Insn)
  | label32 (insn : Int → Insn)

/-- `count` opcodes in a row that carry an index in the opcode. -/
def shortForms (first count : Nat) (insn : Nat → Insn) : List (Nat × Encoding) :=
  (List.range count).map fun k => (first + k, .none (insn k))

/-- The opcode numbers, in the order of `bytecode_opcodes.h`. -/
def opcodeTable : List (Nat × Encoding) :=
  ([(1, .i32 fun n => .pushInt n .w32), (2, .u32 .pushConst), (11, .none (.plain .object)),
   (14, .none (.plain .drop)), (17, .none (.plain .dup)), (27, .none (.plain .swap)),
   (34, .u16 .call), (36, .u16 .callMethod), (40, .none (.plain .return)),
   (56, .u32 .getVar), (64, .u32 .getField), (65, .u32 .getField2), (66, .u32 .putField),
   (70, .none (.plain .getArrayEl)), (72, .none (.plain .putArrayEl)), (75, .u32 .defineField),
   (87, .u16 fun i => .get ⟨.local, i⟩ .long), (88, .u16 fun i => .put ⟨.local, i⟩ .long),
   (89, .u16 fun i => .set ⟨.local, i⟩ .long), (90, .u16 fun i => .get ⟨.argument, i⟩ .long),
   (91, .u16 fun i => .put ⟨.argument, i⟩ .long), (92, .u16 fun i => .set ⟨.argument, i⟩ .long),
   (93, .u16 fun i => .get ⟨.varRef, i⟩ .long), (94, .u16 fun i => .put ⟨.varRef, i⟩ .long),
   (95, .u16 fun i => .set ⟨.varRef, i⟩ .long), (96, .u16 .setUninitialized),
   (97, .u16 fun i => .get ⟨.local, i⟩ .check), (98, .u16 fun i => .put ⟨.local, i⟩ .check),
   (100, .u16 fun i => .get ⟨.varRef, i⟩ .check), (101, .u16 fun i => .put ⟨.varRef, i⟩ .check),
   (104, .label32 fun t => .ifFalse t .w32), (105, .label32 fun t => .ifTrue t .w32),
   (106, .label32 fun t => .goto t .w32), (113, .none (.plain .toPropkey)),
   (139, .none (.plain .neg)), (144, .none (.plain .postInc)),
   (154, .none (.plain .mul)), (155, .none (.plain .div)), (156, .none (.plain .mod)),
   (157, .none (.plain .add)), (158, .none (.plain .sub)), (159, .none (.plain .shl)),
   (160, .none (.plain .sar)), (161, .none (.plain .shr)), (162, .none (.plain .and)),
   (163, .none (.plain .xor)), (164, .none (.plain .or)), (166, .none (.plain .lt)),
   (167, .none (.plain .lte)), (168, .none (.plain .gt)), (169, .none (.plain .gte)),
   (172, .none (.plain .eq)), (173, .none (.plain .neq)), (174, .none (.plain .strictEq)),
   (175, .none (.plain .strictNeq)), (176, .none (.plain .isUndefinedOrNull)),
   (185, .none (.plain .nop)), (186, .none (.pushShort (-1)))] : List (Nat × Encoding)) ++
  shortForms 187 8 (fun k => .pushShort k) ++
  ([(195, .i8 fun n => .pushInt n .w8), (196, .i16 fun n => .pushInt n .w16), (197, .u8 .pushConst),
   (200, .u8 fun i => .get ⟨.local, i⟩ .byte), (201, .u8 fun i => .put ⟨.local, i⟩ .byte),
   (202, .u8 fun i => .set ⟨.local, i⟩ .byte)] : List (Nat × Encoding)) ++
  shortForms 204 4 (fun k => .get ⟨.local, k⟩ .short) ++
  shortForms 208 4 (fun k => .put ⟨.local, k⟩ .short) ++
  shortForms 212 4 (fun k => .set ⟨.local, k⟩ .short) ++
  shortForms 216 4 (fun k => .get ⟨.argument, k⟩ .short) ++
  shortForms 220 4 (fun k => .put ⟨.argument, k⟩ .short) ++
  shortForms 224 4 (fun k => .set ⟨.argument, k⟩ .short) ++
  shortForms 228 4 (fun k => .get ⟨.varRef, k⟩ .short) ++
  shortForms 232 4 (fun k => .put ⟨.varRef, k⟩ .short) ++
  shortForms 236 4 (fun k => .set ⟨.varRef, k⟩ .short) ++
  ([(240, .none (.plain .getLength)),
   (241, .label8 fun t => .ifFalse t .w8), (242, .label8 fun t => .ifTrue t .w8),
   (243, .label8 fun t => .goto t .w8),
   (244, .label16 fun t => .goto t .w16)] : List (Nat × Encoding)) ++
  shortForms 245 4 .call

/-- The little-endian number in the `width` bytes at `p`. -/
def readBytes (code : List UInt8) (p : Nat) : Nat → Option Nat
  | 0 => some 0
  | width + 1 => do
    let low ← code[p]?
    let high ← readBytes code (p + 1) width
    some (low.toNat + 256 * high)

def readSigned (code : List UInt8) (p width : Nat) : Option Int :=
  (readBytes code p width).map fun n =>
    if n < 2 ^ (8 * width - 1) then (n : Int) else (n : Int) - 2 ^ (8 * width)

/-- The instruction with its operand at `p`, and the offset behind it. -/
def Encoding.read (e : Encoding) (code : List UInt8) (p : Nat) : Option (Insn × Nat) :=
  match e with
  | .none insn => some (insn, p)
  | .u8 insn => (readBytes code p 1).map fun n => (insn n, p + 1)
  | .u16 insn => (readBytes code p 2).map fun n => (insn n, p + 2)
  | .u32 insn => (readBytes code p 4).map fun n => (insn n, p + 4)
  | .i8 insn => (readSigned code p 1).map fun n => (insn n, p + 1)
  | .i16 insn => (readSigned code p 2).map fun n => (insn n, p + 2)
  | .i32 insn => (readSigned code p 4).map fun n => (insn n, p + 4)
  | .label8 insn => (readSigned code p 1).map fun n => (insn (p + n), p + 1)
  | .label16 insn => (readSigned code p 2).map fun n => (insn (p + n), p + 2)
  | .label32 insn => (readSigned code p 4).map fun n => (insn (p + n), p + 4)

/-- The instruction at offset `p`, with the offset of the next one. -/
def decode (code : List UInt8) (p : Nat) : Option (Insn × Nat) := do
  let byte ← code[p]?
  let e ← opcodeTable.lookup byte.toNat
  e.read code (p + 1)

theorem readBytes_lt {code : List UInt8} {p width n : Nat}
    (h : readBytes code p width = some n) : n < 256 ^ width := by
  induction width generalizing p n with
  | zero =>
    cases h
    decide
  | succ width ih =>
    simp only [readBytes, Option.bind_eq_bind, Option.bind_eq_some_iff, Option.some.injEq] at h
    obtain ⟨low, -, high, hhigh, rfl⟩ := h
    have hl := low.toNat_lt
    have hh := ih hhigh
    rw [Nat.pow_succ]
    omega

theorem Encoding.read_lt {e : Encoding} {code : List UInt8} {p q : Nat} {i : Insn}
    (h : e.read code p = some (i, q)) : p ≤ q := by
  cases e <;> simp only [Encoding.read, Option.map_eq_some_iff, Option.some.injEq,
    Prod.mk.injEq] at h
  case none => omega
  all_goals
    obtain ⟨n, -, -, hq⟩ := h
    omega

theorem decode_lt {code : List UInt8} {p q : Nat} {i : Insn} (h : decode code p = some (i, q)) :
    p < q := by
  simp only [decode, Option.bind_eq_bind, Option.bind_eq_some_iff] at h
  obtain ⟨byte, -, e, -, he⟩ := h
  have hq := Encoding.read_lt he
  omega

end TurboJS.Bytecode
