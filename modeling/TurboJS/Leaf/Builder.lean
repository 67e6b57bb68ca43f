import TurboJS.Leaf.Plan

namespace TurboJS.Leaf
open Bytecode

/-! `turbojs_build_tiny_leaf_plan`. -/

structure LeafFunction extends FunctionBytecode where
  normal : Bool
  varRefCount : Nat
  closureVarCount : Nat
  stackSize : Nat

/-- What the builder reads of a realm: the names of atoms, and the values of the own data
properties of objects. -/
structure Realm where
  named : Nat → String → Bool
  globalObject : Nat
  stringPrototype : Nat
  ownValue : Nat → Nat → Option JSValue

def bareRealm : Realm := ⟨fun _ _ => false, 0, 0, fun _ _ => none⟩

def Realm.ownObject (realm : Realm) (o atom : Nat) : Option Nat :=
  match realm.ownValue o atom with
  | some (.object v) => some v
  | _ => none

/-- The objects now found as `Math` and `Math.imul`. -/
def Realm.imulGuard (realm : Realm) (mathAtom imulAtom : Nat) : Option ImulGuard := do
  let mathObject ← realm.ownObject realm.globalObject mathAtom
  let imulFunction ← realm.ownObject mathObject imulAtom
  some ⟨mathAtom, imulAtom, mathObject, imulFunction⟩

def hashOpcodes : List (Nat × Nat) :=
  [(0, 96), (3, 197), (5, 187), (6, 164), (7, 208), (8, 96), (11, 187), (12, 209), (13, 97),
   (16, 216), (17, 240), (18, 166), (19, 241), (21, 56), (26, 65), (31, 97), (34, 216), (35, 65),
   (40, 97), (43, 36), (46, 163), (47, 1), (52, 36), (55, 17), (56, 98), (59, 14), (60, 97),
   (63, 144), (64, 98), (67, 14), (68, 243), (70, 97), (73, 187), (74, 164), (75, 40)]

def hashOperands : List (Nat × Nat) :=
  [(1, 0), (9, 1), (14, 1), (32, 0), (41, 1), (44, 1), (53, 2), (57, 0), (61, 1), (65, 1), (71, 0)]

def detectStringHashLeaf (realm : Realm) (f : LeafFunction) : Option Plan :=
  if f.argCount = 1 ∧ f.varCount = 2 ∧ f.closureVarCount = 0 ∧ f.code.length = 76 ∧
      (∀ x ∈ hashOpcodes, f.code[x.1]? = some (UInt8.ofNat x.2)) ∧
      (∀ x ∈ hashOperands, readBytes f.code x.1 2 = some x.2) then do
    let mathAtom ← readBytes f.code 22 4
    let imulAtom ← readBytes f.code 27 4
    let charcodeAtom ← readBytes f.code 36 4
    if realm.named mathAtom "Math" ∧ realm.named imulAtom "imul" ∧
        realm.named charcodeAtom "charCodeAt" then
      let seedIndex ← readBytes f.code 4 1
      let multiplier ← readBytes f.code 48 4
      match f.cpool[seedIndex]? with
      | some (.number seed) =>
        let guard ← realm.imulGuard mathAtom imulAtom
        let charcode ← realm.ownObject realm.stringPrototype charcodeAtom
        some { Plan.empty with
          kind := .stringHash, returnsInt32 := true, guard := some guard,
          hash := some ⟨realm.stringPrototype, charcode, charcodeAtom, toBits seed,
            BitVec.ofNat 32 multiplier⟩ }
      | _ => none
    else none
  else none

structure Building where
  plan : Plan
  depth : Nat
  pendingMathImul : Bool

def Building.append (s : Building) (i : Instruction) : Option Building :=
  if s.plan.instructions.length ≥ 64 then none
  else some { s with plan := { s.plan with instructions := s.plan.instructions ++ [i] } }

def Instruction.at (offset : Nat) (opcode : Opcode) (argument : Nat) (constant : ℤ) : Instruction :=
  ⟨opcode, argument, 0, constant, offset % 65536, none⟩

/-- Append an instruction that pops `pops` and pushes `pushes` values. -/
def Building.emit (s : Building) (i : Instruction) (pops pushes : Nat) : Option Building :=
  if s.depth < pops then none
  else (s.append i).map fun s => { s with depth := s.depth - pops + pushes }

def Building.extended (s : Building) : Building :=
  { s with plan := { s.plan with usesExtendedControlPlan := true } }

def Building.int32 (s : Building) : Building :=
  { s with plan := { s.plan with returnsInt32 := true } }

/-- The opcode of a binary operator, whether it needs the extended plan, and whether it marks the
result as an int32. -/
def binaryOpcode : Plain → Option (Opcode × Bool × Bool)
  | .add => some (.add, false, false)
  | .sub => some (.sub, false, false)
  | .mul => some (.mul, false, false)
  | .div => some (.div, true, false)
  | .mod => some (.mod, true, false)
  | .lt => some (.lt, true, false)
  | .lte => some (.lte, true, false)
  | .gt => some (.gt, true, false)
  | .gte => some (.gte, true, false)
  | .eq | .strictEq => some (.eq, true, false)
  | .neq | .strictNeq => some (.neq, true, false)
  | .xor => some (.xor, false, true)
  | .or => some (.or, false, true)
  | .and => some (.and, false, true)
  | .shl => some (.shl, false, true)
  | .shr => some (.shr, false, false)
  | .sar => some (.sar, false, true)
  | _ => none

/-- A read of a slot, as the builder takes it. Arguments beyond the evaluator's sixteen are left
to the evaluator. -/
def slotRead (f : LeafFunction) (slot : Slot) (form : Form) : Option Opcode :=
  match slot.kind, form with
  | .argument, .short => some .arg
  | .argument, .long => if slot.index ≤ 255 then some .arg else none
  | .varRef, .short | .varRef, .long | .varRef, .check =>
    if slot.index < f.closureVarCount then some .closure else none
  | .local, _ => if slot.index < 16 then some .local else none
  | _, _ => none

def slotWrite (f : LeafFunction) (slot : Slot) (form : Form) (keep : Bool) : Option Opcode :=
  match slot.kind, form with
  | .argument, .short | .argument, .long =>
    if slot.index < 16 then some (if keep then .argSet else .argPut) else none
  | .varRef, .short | .varRef, .long | .varRef, .check =>
    if slot.index < f.closureVarCount then some (if keep then .closureSet else .closurePut)
    else none
  | .local, .short | .local, .long | .local, .byte =>
    if slot.index < 16 then some (if keep then .localSet else .localPut) else none
  | _, _ => none

def Building.forSlot (s : Building) (slot : Slot) : Building :=
  if slot.kind = .local then s.extended else s

def Building.emitJump (f : LeafFunction) (s : Building) (offset : Nat) (opcode : Opcode)
    (target : ℤ) (pops : Nat) : Option Building :=
  if target ≤ (offset % 65536 : Nat) ∨ target > f.code.length then none
  else (s.emit (.at offset opcode 0 target) pops 0).map fun s =>
    { s with plan := { s.plan with hasControlFlow := true } }

/-- `obj.atom`: of an argument that has just been pushed, or of a virtual object. -/
def Building.emitGetField (s : Building) (offset atom : Nat) : Option Building :=
  if s.depth < 1 then none
  else
    match s.plan.instructions.getLast? with
    | none => none
    | some last =>
      if last.opcode = .arg then
        some { s with plan := { s.plan with instructions :=
          s.plan.instructions.dropLast ++ [{ last with opcode := .argProperty, atom := atom }] } }
      else s.append { Instruction.at offset .virtualGetField 0 0 with atom := atom }

/-- One instruction of the code other than a return, at `offset`, and the offset behind it. -/
def Building.insn (realm : Realm) (f : LeafFunction) (offset : Nat) (i : Insn) (next : Nat)
    (s : Building) : Option (Building × Nat) :=
  match i with
  | .plain .nop => some (s, next)
  | .plain .dup => if s.depth ≥ 32 then none else (s.emit (.at offset .dup 0 0) 1 2).map (·, next)
  | .plain .drop => (s.emit (.at offset .drop 0 0) 1 0).map (·, next)
  | .get slot form => do
    let opcode ← slotRead f slot form
    ((s.forSlot slot).emit (.at offset opcode slot.index 0) 0 1).map (·, next)
  | .put slot form => do
    let opcode ← slotWrite f slot form false
    ((s.forSlot slot).emit (.at offset opcode slot.index 0) 1 0).map (·, next)
  | .set slot form => do
    let opcode ← slotWrite f slot form true
    ((s.forSlot slot).emit (.at offset opcode slot.index 0) 1 1).map (·, next)
  | .setUninitialized index => if index ≥ 16 then none else some (s.extended, next)
  | .getVar mathAtom =>
    -- `Math.imul(a, b)`: the two lookups stand together, the call comes later.
    match realm.named mathAtom "Math", decode f.code next with
    | true, some (.getField2 imulAtom, next) =>
      if realm.named imulAtom "imul" then
        (realm.imulGuard mathAtom imulAtom).map fun guard =>
          ({ s with plan := { s.plan with guard := some guard }, pendingMathImul := true }, next)
      else none
    | _, _ => none
  | .callMethod count =>
    if ¬ s.pendingMathImul ∨ count ≠ 2 then none
    else ({ s with pendingMathImul := false }.int32.emit (.at offset .imul 0 0) 2 1).map (·, next)
  | .plain .object =>
    if s.plan.virtualObjectCount ≥ 4 ∨ s.depth ≥ 32 then none
    else
      ({ s with plan := { s.plan with
          virtualObjectCount := s.plan.virtualObjectCount + 1 } }.emit
        (.at offset .virtualObject s.plan.virtualObjectCount 0) 0 1).map (·, next)
  | .defineField atom =>
    (s.emit { Instruction.at offset .virtualDefine 0 0 with atom := atom } 2 1).map (·, next)
  | .getField atom => (s.emitGetField offset atom).map (·, next)
  | .putField atom =>
    (s.extended.emit { Instruction.at offset .virtualPutField 0 0 with atom := atom } 2 0).map
      (·, next)
  | .pushShort n | .pushInt n _ => (s.emit (.at offset .constant 0 n) 0 1).map (·, next)
  | .plain .neg => (s.emit (.at offset .neg 0 0) 1 1).map (·, next)
  | .ifTrue target _ => (s.emitJump f offset .jumpIfTrue target 1).map (·, next)
  | .ifFalse target _ => (s.emitJump f offset .jumpIfFalse target 1).map (·, next)
  | .goto target _ => (s.emitJump f offset .jump target 0).map (·, next)
  | .plain op =>
    match binaryOpcode op with
    | some (opcode, extended, int32) =>
      let s := if extended then s.extended else s
      let s := if int32 then s.int32 else s
      (s.emit (.at offset opcode 0 0) 2 1).map (·, next)
    | none => none
  | _ => none

def resolveJump (is : List Instruction) (i : Instruction) : Option Instruction :=
  if i.opcode = .jump ∨ i.opcode = .jumpIfTrue ∨ i.opcode = .jumpIfFalse then
    (is.findIdx? fun j => j.sourceOffset = (i.constant % 65536).toNat).map fun k =>
      { i with targetIndex := some k }
  else some i

inductive Returned where
  | finished (plan : Plan)
  | goOn (s : Building)

def Building.return (f : LeafFunction) (offset next : Nat) (s : Building) : Option Returned :=
  if s.depth ≠ 1 then none
  else if s.plan.usesExtendedControlPlan ∧ ¬ s.plan.hasControlFlow ∧
      s.plan.virtualObjectCount = 0 then none
  else if s.plan.hasControlFlow then do
    let s ← s.emit (.at offset .return 0 0) 1 0
    if next < f.code.length then some (.goOn s)
    else
      let resolved ← s.plan.instructions.mapM (resolveJump s.plan.instructions)
      some (.finished { s.plan with instructions := resolved })
  else some (.finished (s.plan.summarise.recognise f.closureVarCount))

/-- The code from `offset` on. -/
def buildFrom (realm : Realm) (f : LeafFunction) : Nat → Nat → Building → Option Plan
  | 0, _, _ => none
  | fuel + 1, offset, s => do
    let (i, next) ← decode f.code offset
    match i with
    | .plain .return =>
      match ← s.return f offset next with
      | .finished plan => some plan
      | .goOn s => buildFrom realm f fuel next s
    | i =>
      let (s, next) ← s.insn realm f offset i next
      if s.depth > 32 then none else buildFrom realm f fuel next s

def buildTinyLeafPlan (realm : Realm) (f : LeafFunction) : Option Plan :=
  if ¬ f.normal ∨ f.varRefCount ≠ 0 ∨ f.closureVarCount > 4 ∨ f.varCount > 16 ∨ f.stackSize > 32 ∨
      f.argCount > 16 then none
  else
    match detectStringHashLeaf realm f with
    | some plan => some plan
    | none => buildFrom realm f f.code.length 0 ⟨.empty, 0, false⟩

end TurboJS.Leaf
