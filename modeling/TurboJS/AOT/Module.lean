import TurboJS.IR.Function
import TurboJS.Foundation.Layout

namespace TurboJS.AOT
open IR Foundation

/-! The portable image of one IR function. -/

/-- The opcodes in the order of `TurboJSIROpcode`. -/
def opcodes : List Opcode :=
  [.nop, .argument, .constantI64, .constantF64, .addI64, .subI64, .mulI64, .addF64, .subF64,
    .mulF64, .divF64, .lessThanF64, .lessEqualF64, .equalF64, .i64ToF64, .f64ToI64Trunc,
    .addI32Checked, .subI32Checked, .mulI32Checked, .divI32Checked, .remI32Checked,
    .runtimeHelper, .valueArgument, .valueUndefined, .valueConstantI32, .valueMove,
    .valueLocalGet, .valueLocalSet, .valueToBoolean, .valueCallableConstant, .valueCallI64,
    .valueCallF64, .valueReturn, .lessThanI64, .localGet, .localSet, .jump, .branchTrue,
    .branchFalse, .callNativeI64, .callNativeF64, .returnI64, .returnF64]

def opcodeNumber (op : Opcode) : Nat := opcodes.idxOf op

theorem opcodes_number (op : Opcode) : opcodes[opcodeNumber op]? = some op := by
  cases op <;> rfl

theorem opcodeNumber_lt (op : Opcode) : opcodeNumber op < 256 ^ 2 := by
  cases op <;> decide

def sizeMax : Nat := 2 ^ 64 - 1
def headerSize : Nat := 32
def instructionSize : Nat := 32
def formatVersion : Nat := 2

def tjirMagic : Nat := ofLE [0x54, 0x4a, 0x49, 0x52]

def checksum (data : List UInt8) : BitVec 32 :=
  data.foldl (fun h b => (h ^^^ BitVec.ofNat 32 b.toNat) * 16777619) 2166136261

def instructionFields (i : Instruction) : List (Nat × Nat) :=
  [(2, opcodeNumber i.opcode), (2, i.destination), (2, i.left), (2, i.right),
    (8, i.immediate.toNat), (4, i.target), (4, i.bytecodeOffset), (8, 0)]

def irHeaderFields (f : Function) (sum total : Nat) : List (Nat × Nat) :=
  [(4, tjirMagic), (2, formatVersion), (2, headerSize), (4, f.instructions.length),
    (2, f.registerCount), (2, f.argumentCount), (2, f.localCount), (2, instructionSize),
    (4, sum), (8, total)]

def irBody (f : Function) : List UInt8 :=
  f.instructions.flatMap fun i => encodeFields (instructionFields i)

def serializeIR (f : Function) : Except Diagnostic (List UInt8) :=
  if (irVerify f).status ≠ .ok then .error (irVerify f)
  else if f.instructions.length > (sizeMax - headerSize) / instructionSize then
    .error ⟨.outOfMemory, 0, "AOT image too large"⟩
  else
    let total := headerSize + f.instructions.length * instructionSize
    .ok (encodeFields (irHeaderFields f (checksum (irBody f)).toNat total) ++ irBody f)

/-- The memory of the process, as far as native calls refer to it: the call site at an address,
`none` for a null pointer. -/
abbrev HostMemory := Word → Option ClutchCallSite

def siteOf (host : HostMemory) (op : Opcode) (immediate : Word) : Option ClutchCallSite :=
  if op = .callNativeI64 ∨ op = .callNativeF64 then host immediate else none

/-- The instruction whose record starts at `q`, with the number of its opcode. A number that is
no opcode leaves a place holder. -/
def readInstruction (host : HostMemory) (data : List UInt8) (q : Nat) :
    Option (Nat × Instruction) := do
  let number ← getLE 2 data q
  let destination ← getLE 2 data (q + 2)
  let left ← getLE 2 data (q + 4)
  let right ← getLE 2 data (q + 6)
  let immediate ← getLE 8 data (q + 8)
  let target ← getLE 4 data (q + 16)
  let bytecodeOffset ← getLE 4 data (q + 20)
  let opcode := (opcodes[number]?).getD .nop
  return (number, ⟨opcode, destination, left, right, BitVec.ofNat 64 immediate, target,
    bytecodeOffset, siteOf host opcode (BitVec.ofNat 64 immediate)⟩)

/-- The loop over the instruction table, from instruction `i` on; `emits` says which of the
instructions can be stored. -/
def readInstructions (host : HostMemory) (emits : Nat → Bool) (data : List UInt8) :
    Nat → Nat → Option (Except Diagnostic (List (Nat × Instruction)))
  | 0, _ => some (.ok [])
  | count + 1, i => do
    let record ← readInstruction host data (headerSize + i * instructionSize)
    if !emits i then return .error ⟨.outOfMemory, i, "AOT instruction allocation failed"⟩
    match ← readInstructions host emits data count (i + 1) with
    | .ok records => return .ok (record :: records)
    | .error d => return .error d

/-- `TurboJS_IRVerify` on a function that may hold numbers which are no opcodes: the scan comes to
the first of them only if it accepts the instructions before it. -/
def verifyNumbers (f : Function) (numbers : List Nat) : Diagnostic :=
  match numbers.findIdx? (fun n => (opcodes[n]?).isNone) with
  | none => irVerify f
  | some unknown =>
    if maxRegisters < f.registerCount then ⟨.invalidRegister, 0, "register limit exceeded"⟩
    else
      let d := verifyFrom f (f.instructions.take unknown) 0 true
      if d.status = .ok then ⟨.invalidOpcode, unknown, "unknown IR opcode"⟩ else d

/-- `TurboJS_AOTDeserializeIR` on an image that starts where the data does; `none` if a byte
outside of the data is read. -/
def deserializeIR (host : HostMemory) (emits : Nat → Bool) (data : List UInt8) (size : Nat) :
    Option (Except Diagnostic Function) := do
  if size < headerSize then return .error ⟨.invalidArgument, 0, "invalid AOT magic"⟩
  if (← getLE 4 data 0) ≠ tjirMagic then
    return .error ⟨.invalidArgument, 0, "invalid AOT magic"⟩
  if (← getLE 2 data 4) ≠ formatVersion then
    return .error ⟨.unsupported, 0, "unsupported AOT version"⟩
  let hs ← getLE 2 data 6
  let count ← getLE 4 data 8
  let is ← getLE 2 data 18
  let declared ← getLE 8 data 24
  if hs ≠ headerSize ∨ is ≠ instructionSize ∨ declared ≠ size then
    return .error ⟨.invalidArgument, 0, "invalid AOT layout"⟩
  if headerSize + count * instructionSize ≠ size then
    return .error ⟨.invalidArgument, 0, "truncated AOT image"⟩
  let stored ← getLE 4 data 20
  let body ← bytesAt data headerSize (size - headerSize)
  if stored ≠ (checksum body).toNat then
    return .error ⟨.invalidArgument, 0, "AOT checksum mismatch"⟩
  let argumentCount ← getLE 2 data 14
  let registerCount ← getLE 2 data 12
  let localCount ← getLE 2 data 16
  if registerCount > maxRegisters ∨ localCount > maxRegisters then
    return .error ⟨.invalidRegister, 0, "AOT register/local limit exceeded"⟩
  match ← readInstructions host emits data count 0 with
  | .error d => return .error d
  | .ok records =>
    let f : Function := ⟨records.map (·.2), registerCount, argumentCount, localCount⟩
    let d := verifyNumbers f (records.map (·.1))
    return if d.status ≠ .ok then .error d else .ok f

end TurboJS.AOT

namespace TurboJS.AOT
open IR Foundation

/-! The module container: named functions, each with its portable image. -/

def moduleHeader : Nat := 32
def moduleEntry : Nat := 24
def moduleVersion : Nat := 1
def maxFunctions : Nat := 1024
def uint32Max : Nat := 2 ^ 32 - 1

def tjmMagic : Nat := ofLE [0x54, 0x4a, 0x4d, 0x31]

/-- `TurboJSAOTModuleFunction`, and a loaded one; before it is loaded it has no name. -/
structure ModuleFunction where
  name : List UInt8 := []
  ir : Function := ⟨[], 0, 0, 0⟩
  deriving DecidableEq, Repr

def cString (name : List UInt8) : List UInt8 := name.takeWhile (· ≠ 0)

/-- The first loop of `TurboJS_AOTSerializeModule`, from function `i` on: the names, the images
and the size of the module. -/
def imagesFrom : List ModuleFunction → Nat → Nat →
    Except Diagnostic (List (List UInt8 × List UInt8) × Nat)
  | [], _, total => .ok ([], total)
  | f :: rest, i, total =>
    let name := cString f.name
    if name = [] ∨ name.length > uint32Max then
      .error ⟨.invalidArgument, i, "invalid module function name"⟩
    else
      match serializeIR f.ir with
      | .error d => .error d
      | .ok image =>
        if name.length > sizeMax - image.length ∨ total > sizeMax - name.length - image.length then
          .error ⟨.outOfMemory, i, "module too large"⟩
        else
          match imagesFrom rest (i + 1) (total + (name.length + image.length)) with
          | .error d => .error d
          | .ok (parts, total) => .ok ((name, image) :: parts, total)

def entryFields (offset : Nat) (name image : List UInt8) : List (Nat × Nat) :=
  [(4, offset), (4, name.length), (8, offset + name.length), (8, image.length)]

/-- The entries that the second loop writes, when the name of function `i` starts at `offset`. -/
def tableFrom : List (List UInt8 × List UInt8) → Nat → Nat → Except Diagnostic (List UInt8)
  | [], _, _ => .ok []
  | (name, image) :: rest, i, offset =>
    if offset > uint32Max then
      .error ⟨.outOfMemory, i, "module name offset exceeds format limit"⟩
    else
      match tableFrom rest (i + 1) (offset + name.length + image.length) with
      | .error d => .error d
      | .ok table => .ok (encodeFields (entryFields offset name image) ++ table)

def payload (parts : List (List UInt8 × List UInt8)) : List UInt8 :=
  parts.flatMap fun part => part.1 ++ part.2

def moduleHeaderFields (n sum total : Nat) : List (Nat × Nat) :=
  [(4, tjmMagic), (2, moduleVersion), (2, moduleHeader), (4, n), (4, sum), (8, total), (8, 0)]

/-- `TurboJS_AOTSerializeModule`, when the allocations succeed. -/
def serializeModule (fs : List ModuleFunction) : Except Diagnostic (List UInt8) :=
  let n := fs.length
  if n = 0 ∨ n > maxFunctions then
    .error ⟨.invalidArgument, 0, "invalid AOT module arguments"⟩
  else if n > (sizeMax - moduleHeader) / moduleEntry then
    .error ⟨.outOfMemory, 0, "module table too large"⟩
  else
    match imagesFrom fs 0 (moduleHeader + n * moduleEntry) with
    | .error d => .error d
    | .ok (parts, total) =>
      match tableFrom parts 0 (moduleHeader + n * moduleEntry) with
      | .error d => .error d
      | .ok table =>
        let body := table ++ payload parts
        .ok (encodeFields (moduleHeaderFields n (checksum body).toNat total) ++ body)

structure LoadLimits where
  maxImageBytes : Nat
  maxFunctionCount : Nat
  maxNameBytes : Nat
  maxTotalInstructions : Nat
  maxInstructionsPerFunction : Nat
  deriving DecidableEq, Repr

def LoadLimits.default : LoadLimits :=
  ⟨64 * 1024 * 1024, maxFunctions, 4096, 4 * 1024 * 1024, 1024 * 1024⟩

/-- Which allocations of a load succeed: the function table, the name of a function and the
storage for an instruction of a function. -/
structure Allocator where
  table : Bool
  name : Nat → Bool
  emit : Nat → Nat → Bool

def Allocator.unlimited : Allocator := ⟨true, fun _ => true, fun _ _ => true⟩

/-- `TurboJSAOTModule`: the functions in order. -/
abbrev Module := List ModuleFunction

def Module.destroy (_ : Module) : Module := []

/-- One round of the loop over the function table. The module is as the round leaves it; a round
that succeeds also gives the number of instructions so far. -/
def loadFunction (host : HostMemory) (alloc : Allocator) (limits : LoadLimits)
    (data : List UInt8) (i : Nat) (m : Module) (totalInstructions : Nat) :
    Option (Module × Except Diagnostic Nat) := do
  let size := data.length
  let e := moduleHeader + i * moduleEntry
  let no ← getLE 4 data e
  let nl ← getLE 4 data (e + 4)
  let io ← getLE 8 data (e + 8)
  let is ← getLE 8 data (e + 16)
  if nl = 0 ∨ nl > limits.maxNameBytes ∨ no > size ∨ nl > size - no ∨ io > size ∨
      is > size - io then
    return (m, .error ⟨.invalidArgument, i, "invalid TJM function entry"⟩)
  let name ← bytesAt data no nl
  if 0 ∈ name then
    return (m, .error ⟨.invalidArgument, i, "embedded NUL in TJM export name"⟩)
  if !alloc.name i then
    return (m, .error ⟨.outOfMemory, i, "module name allocation failed"⟩)
  let m := m.set i { name := name }
  if name ∈ (m.take i).map (·.name) then
    return (m, .error ⟨.invalidArgument, i, "duplicate TJM export name"⟩)
  match ← deserializeIR host (alloc.emit i) (data.drop io) is with
  | .error d => return (m, .error d)
  | .ok ir =>
    let m := m.set i { name := name, ir := ir }
    let count := ir.instructions.length
    if count > limits.maxInstructionsPerFunction ∨
        count > limits.maxTotalInstructions - totalInstructions then
      return (m, .error ⟨.invalidArgument, i, "TJM instruction budget exceeded"⟩)
    return (m, .ok (totalInstructions + count))

/-- The loop over the function table, from function `i` on. -/
def loadFrom (host : HostMemory) (alloc : Allocator) (limits : LoadLimits) (data : List UInt8) :
    Nat → Nat → Module → Nat → Option (Module × Option Diagnostic)
  | 0, _, m, _ => some (m, none)
  | left + 1, i, m, total => do
    match ← loadFunction host alloc limits data i m total with
    | (m, .error d) => return (m, some d)
    | (m, .ok total) => loadFrom host alloc limits data left (i + 1) m total

/-- `TurboJS_AOTDeserializeModuleWithLimits`: the module that it leaves and, if it fails, why;
`none` if a byte outside of the data is read. -/
def deserializeModuleWithLimits (host : HostMemory) (alloc : Allocator) (limits : LoadLimits)
    (data : List UInt8) : Option (Module × Option Diagnostic) := do
  let size := data.length
  let invalid (message : String) : Module × Option Diagnostic :=
    ([], some ⟨.invalidArgument, 0, message⟩)
  if limits.maxImageBytes = 0 ∨ limits.maxFunctionCount = 0 ∨ limits.maxNameBytes = 0 ∨
      limits.maxTotalInstructions = 0 ∨ limits.maxInstructionsPerFunction = 0 then
    return invalid "invalid AOT load limits"
  if size > limits.maxImageBytes then return invalid "TJM image exceeds configured byte limit"
  if size < moduleHeader then return invalid "invalid TJM header"
  if (← getLE 4 data 0) ≠ tjmMagic then return invalid "invalid TJM header"
  if (← getLE 2 data 4) ≠ moduleVersion then return invalid "invalid TJM header"
  if (← getLE 2 data 6) ≠ moduleHeader then return invalid "invalid TJM header"
  if (← getLE 8 data 16) ≠ size then return invalid "invalid TJM header"
  let n ← getLE 4 data 8
  if n = 0 ∨ n > maxFunctions ∨ n > limits.maxFunctionCount ∨
      n > (size - moduleHeader) / moduleEntry then
    return invalid "invalid TJM function table"
  let stored ← getLE 4 data 12
  let body ← bytesAt data moduleHeader (size - moduleHeader)
  if stored ≠ (checksum body).toNat then return invalid "TJM checksum mismatch"
  if !alloc.table then
    return ([], some ⟨.outOfMemory, 0, "module function allocation failed"⟩)
  match ← loadFrom host alloc limits data n 0 (List.replicate n {}) 0 with
  | (m, some d) => return (m.destroy, some d)
  | (m, none) => return (m, none)

def deserializeModule (host : HostMemory) (alloc : Allocator) (data : List UInt8) :
    Option (Module × Option Diagnostic) :=
  deserializeModuleWithLimits host alloc .default data

end TurboJS.AOT
