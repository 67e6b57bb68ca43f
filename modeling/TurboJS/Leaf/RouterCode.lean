import TurboJS.Leaf.CallbackRouter

namespace TurboJS.Leaf
open Bytecode Foundation

/-! The code of a router: its bytes, and the pieces between its branches. -/

/-! ## The code -/

structure Displacements where
  outer : UInt8
  inner : UInt8
  innerBack : UInt8
  outerBack : UInt8
  nullish : UInt8
  last : UInt8
  lastBack : UInt8

def routerCode (d : Displacements) : List UInt8 :=
  [96, 1, 0, 96, 0, 0, 228, 229, 38, 2, 0, 208, 187, 209, 96, 2, 0, 187, 210, 97, 2, 0, 216, 166,
   241, d.outer, 96, 3, 0, 187, 211, 97, 3, 0, 196, 32, 78, 166, 241, d.inner, 97, 1, 0, 97, 0, 0,
   97, 3, 0, 188, 162, 71, 97, 3, 0, 97, 2, 0, 157, 36, 1, 0, 157, 187, 164, 17, 98, 1, 0, 14, 97,
   3, 0, 144, 98, 3, 0, 14, 243, d.innerBack, 97, 2, 0, 144, 98, 2, 0, 14, 243, d.outerBack, 97, 0,
   0, 188, 27, 17, 176, 242, d.nullish, 27, 113, 27, 27, 230, 27, 113, 27, 72, 96, 4, 0, 187, 201,
   4, 97, 4, 0, 196, 136, 19, 166, 241, d.last, 97, 1, 0, 97, 0, 0, 97, 4, 0, 188, 162, 71, 97, 4,
   0, 36, 1, 0, 157, 187, 164, 17, 98, 1, 0, 14, 97, 4, 0, 144, 98, 4, 0, 14, 243, d.lastBack, 97,
   1, 0, 187, 164, 40]

def displacements (code : List UInt8) : Displacements :=
  ⟨code.getD 25 0, code.getD 39 0, code.getD 79 0, code.getD 89 0, code.getD 98 0, code.getD 122 0,
    code.getD 158 0⟩

theorem readBytes_two {code : List UInt8} {p n : Nat} (h : readBytes code p 2 = some n) :
    code[p]? = some (UInt8.ofNat (n % 256)) ∧ code[p + 1]? = some (UInt8.ofNat (n / 256)) := by
  simp only [readBytes, Option.bind_eq_bind, Option.bind_eq_some_iff] at h
  obtain ⟨low, hlow, high, ⟨byte, hbyte, z, hz, hhigh⟩, he⟩ := h
  cases hz
  cases hhigh
  cases he
  have hl := low.toNat_lt
  have hb := byte.toNat_lt
  have hmod : (low.toNat + 256 * (byte.toNat + 256 * 0)) % 256 = low.toNat := by omega
  have hdiv : (low.toNat + 256 * (byte.toNat + 256 * 0)) / 256 = byte.toNat := by omega
  rw [hlow, hbyte, hmod, hdiv, UInt8.ofNat_toNat, UInt8.ofNat_toNat]
  exact ⟨rfl, rfl⟩

theorem routerCode_matches (d : Displacements) :
    (∀ x ∈ routerOpcodes, (routerCode d)[x.1]? = some (UInt8.ofNat x.2)) ∧
      (∀ x ∈ routerOperands, (routerCode d)[x.1]? = some (UInt8.ofNat (x.2 % 256)) ∧
        (routerCode d)[x.1 + 1]? = some (UInt8.ofNat (x.2 / 256))) := by
  refine ⟨?_, ?_⟩
  · simp only [routerOpcodes, List.forall_mem_cons]
    repeat' constructor
    all_goals nofun
  · simp only [routerOperands, List.forall_mem_cons]
    repeat' constructor
    all_goals nofun

theorem router_offset {p : Nat} (hp : p < 165) :
    p ∈ routerOpcodes.map Prod.fst ∨ p ∈ routerOperands.map Prod.fst ∨
      p ∈ routerOperands.map (fun x => x.1 + 1) ∨ p = 113 ∨
      p ∈ [25, 39, 79, 89, 98, 122, 158] := by
  revert p
  decide +kernel

theorem router_code {f : LeafFunction} (h : isCallbackRouterBytecode f) :
    f.code = routerCode (displacements f.code) := by
  obtain ⟨-, -, -, -, hlen, hopcodes, hoperands, hlast⟩ := h
  obtain ⟨hopcodes', hoperands'⟩ := routerCode_matches (displacements f.code)
  apply List.ext_getElem?
  intro p
  by_cases hp : p < 165
  · rcases router_offset hp with hm | hm | hm | rfl | hm
    · obtain ⟨x, hx, rfl⟩ := List.mem_map.mp hm
      rw [hopcodes x hx, hopcodes' x hx]
    · obtain ⟨x, hx, rfl⟩ := List.mem_map.mp hm
      rw [(readBytes_two (hoperands x hx)).1, (hoperands' x hx).1]
    · obtain ⟨x, hx, rfl⟩ := List.mem_map.mp hm
      rw [(readBytes_two (hoperands x hx)).2, (hoperands' x hx).2]
    · rw [hlast]
      rfl
    · have hget : f.code[p]? = some (f.code.getD p 0) := by
        rw [List.getD_eq_getElem?_getD, List.getElem?_eq_getElem (by omega), Option.getD_some]
      rw [hget]
      simp only [List.mem_cons, List.not_mem_nil, or_false] at hm
      rcases hm with rfl | rfl | rfl | rfl | rfl | rfl | rfl <;> rfl
  · rw [List.getElem?_eq_none (by omega),
      List.getElem?_eq_none (show (routerCode (displacements f.code)).length ≤ p from by
        have hl : (routerCode (displacements f.code)).length = 165 := rfl
        omega)]

structure Displacements.Ends (d : Displacements) : Prop where
  outer : d.outer = 65
  last : d.last = 37
  lastBack : d.lastBack = 212

structure Displacements.Loops (d : Displacements) : Prop where
  inner : d.inner = 41
  innerBack : d.innerBack = 208
  outerBack : d.outerBack = 186

section

variable (d : Displacements)

def prologue : List FunctionInsn :=
  [.base (.setUninitialized 1), .base (.setUninitialized 0), .base (.get ⟨.varRef, 0⟩ .short),
    .base (.get ⟨.varRef, 1⟩ .short), .arrayFrom 2, .base (.put ⟨.local, 0⟩ .short),
    .base (.pushShort 0), .base (.put ⟨.local, 1⟩ .short), .base (.setUninitialized 2),
    .base (.pushShort 0), .base (.put ⟨.local, 2⟩ .short)]

theorem spells_prologue : SpellsFunction (routerCode d) 0 prologue 19 :=
  ⟨3, rfl, 6, rfl, 7, rfl, 8, rfl, 11, rfl, 12, rfl, 13, rfl, 14, rfl, 17, rfl, 18, rfl, 19, rfl,
    rfl⟩

def outerTest : List FunctionInsn :=
  [.base (.get ⟨.local, 2⟩ .check), .base (.get ⟨.argument, 0⟩ .short), .base (.plain .lt)]

theorem spells_outerTest : SpellsFunction (routerCode d) 19 outerTest 24 :=
  ⟨22, rfl, 23, rfl, 24, rfl, rfl⟩

def innerStart : List FunctionInsn :=
  [.base (.setUninitialized 3), .base (.pushShort 0), .base (.put ⟨.local, 3⟩ .short)]

theorem spells_innerStart : SpellsFunction (routerCode d) 26 innerStart 31 :=
  ⟨29, rfl, 30, rfl, 31, rfl, rfl⟩

theorem decodeFunction_pushI16 {code : List UInt8} {p n : Nat} (low high : UInt8)
    (hop : code[p]? = some 196) (hlow : code[p + 1]? = some low) (hhigh : code[p + 2]? = some high)
    (hn : low.toNat + 256 * high.toNat = n) (hpos : n < 2 ^ 15) :
    decodeFunction code p = some (.base (.pushInt n .w16), p + 3) := by
  have hencoding : opcodeTable.lookup 196 = some (.i16 fun n => .pushInt n .w16) := by rfl
  have hread : readSigned code (p + 1) 2 = some (n : Int) := by
    have hbytes : readBytes code (p + 1) 2 = some n := by
      simp [readBytes, hlow, hhigh, hn]
    have hsmall : (n : Int) < 2 ^ (8 * 2 - 1) := by
      norm_num
      omega
    simp only [readSigned, hbytes, Option.bind_eq_bind, Option.bind_some, Option.pure_def,
      Option.map_some, if_pos hsmall]
  refine decodeFunction_base ?_
  simp [decode, hop, hencoding, Encoding.read, hread]

def innerTest : List FunctionInsn :=
  [.base (.get ⟨.local, 3⟩ .check), .base (.pushInt 20000 .w16), .base (.plain .lt)]

theorem spells_innerTest : SpellsFunction (routerCode d) 31 innerTest 38 :=
  ⟨34, rfl, 37, decodeFunction_pushI16 32 78 rfl rfl rfl rfl (by decide), 38, rfl, rfl⟩

/-- The end of a statement `sum = (sum + callback(…)) | 0`, then the increment of a local. -/
def addResult (index : Nat) : List FunctionInsn :=
  [.base (.callMethod 1), .base (.plain .add), .base (.pushShort 0), .base (.plain .or),
    .base (.plain .dup), .base (.put ⟨.local, 1⟩ .check), .base (.plain .drop),
    .base (.get ⟨.local, index⟩ .check), .base (.plain .postInc),
    .base (.put ⟨.local, index⟩ .check), .base (.plain .drop)]

def selectCallback (index : Nat) : List FunctionInsn :=
  [.base (.get ⟨.local, 1⟩ .check), .base (.get ⟨.local, 0⟩ .check),
    .base (.get ⟨.local, index⟩ .check), .base (.pushShort 1), .base (.plain .and), .getArrayEl2,
    .base (.get ⟨.local, index⟩ .check)]

def innerBody : List FunctionInsn :=
  selectCallback 3 ++
    ([.base (.get ⟨.local, 2⟩ .check), .base (.plain .add)] : List FunctionInsn) ++ addResult 3

theorem spells_innerBody : SpellsFunction (routerCode d) 40 innerBody 78 := by
  have hselect : SpellsFunction (routerCode d) 40
      (selectCallback 3 ++
        ([.base (.get ⟨.local, 2⟩ .check), .base (.plain .add)] : List FunctionInsn)) 59 :=
    ⟨43, rfl, 46, rfl, 49, rfl, 50, rfl, 51, rfl, 52, rfl, 55, rfl, 58, rfl, 59, rfl, rfl⟩
  have hadd : SpellsFunction (routerCode d) 59 (addResult 3) 78 :=
    ⟨62, rfl, 63, rfl, 64, rfl, 65, rfl, 66, rfl, 69, rfl, 70, rfl, 73, rfl, 74, rfl, 77, rfl, 78,
      rfl, rfl⟩
  exact hselect.append hadd

def nextRound : List FunctionInsn :=
  [.base (.get ⟨.local, 2⟩ .check), .base (.plain .postInc), .base (.put ⟨.local, 2⟩ .check),
    .base (.plain .drop)]

theorem spells_nextRound : SpellsFunction (routerCode d) 80 nextRound 88 :=
  ⟨83, rfl, 84, rfl, 87, rfl, 88, rfl, rfl⟩

def checkArray : List FunctionInsn :=
  [.base (.get ⟨.local, 0⟩ .check), .base (.pushShort 1), .base (.plain .swap),
    .base (.plain .dup), .base (.plain .isUndefinedOrNull)]

theorem spells_checkArray : SpellsFunction (routerCode d) 90 checkArray 97 :=
  ⟨93, rfl, 94, rfl, 95, rfl, 96, rfl, 97, rfl, rfl⟩

def replaceCallback : List FunctionInsn :=
  [.base (.plain .swap), .base (.plain .toPropkey), .base (.plain .swap), .base (.plain .swap),
    .base (.get ⟨.varRef, 2⟩ .short), .base (.plain .swap), .base (.plain .toPropkey),
    .base (.plain .swap), .base (.plain .putArrayEl), .base (.setUninitialized 4),
    .base (.pushShort 0), .base (.put ⟨.local, 4⟩ .byte)]

theorem spells_replaceCallback : SpellsFunction (routerCode d) 99 replaceCallback 114 :=
  ⟨100, rfl, 101, rfl, 102, rfl, 103, rfl, 104, rfl, 105, rfl, 106, rfl, 107, rfl, 108, rfl, 111,
    rfl, 112, rfl, 114, rfl, rfl⟩

def lastTest : List FunctionInsn :=
  [.base (.get ⟨.local, 4⟩ .check), .base (.pushInt 5000 .w16), .base (.plain .lt)]

theorem spells_lastTest : SpellsFunction (routerCode d) 114 lastTest 121 :=
  ⟨117, rfl, 120, decodeFunction_pushI16 136 19 rfl rfl rfl rfl (by decide), 121, rfl,
    rfl⟩

def lastBody : List FunctionInsn := selectCallback 4 ++ addResult 4

theorem spells_lastBody : SpellsFunction (routerCode d) 123 lastBody 157 := by
  have hselect : SpellsFunction (routerCode d) 123 (selectCallback 4) 138 :=
    ⟨126, rfl, 129, rfl, 132, rfl, 133, rfl, 134, rfl, 135, rfl, 138, rfl, rfl⟩
  have hadd : SpellsFunction (routerCode d) 138 (addResult 4) 157 :=
    ⟨141, rfl, 142, rfl, 143, rfl, 144, rfl, 145, rfl, 148, rfl, 149, rfl, 152, rfl, 153, rfl, 156,
      rfl, 157, rfl, rfl⟩
  exact hselect.append hadd

def returnSum : List FunctionInsn :=
  [.base (.get ⟨.local, 1⟩ .check), .base (.pushShort 0), .base (.plain .or)]

theorem spells_returnSum : SpellsFunction (routerCode d) 159 returnSum 164 :=
  ⟨162, rfl, 163, rfl, 164, rfl, rfl⟩

end

end TurboJS.Leaf
