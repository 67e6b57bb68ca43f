import Mathlib.Data.List.Basic
import Mathlib.Algebra.Order.Ring.Int

namespace TurboJS.Memory

/-! The arena allocator over the allocator of the host. -/

/-! Arithmetic of `size_t`. -/

def sizeMod : Nat := 2 ^ 64

def add64 (a b : Nat) : Nat := (a + b) % sizeMod

def sub64 (a b : Nat) : Nat := (a + sizeMod - b) % sizeMod

section

variable {a b c : Nat}

theorem sub64_of_le (hle : b ≤ a) (h : a < sizeMod) : sub64 a b = a - b := by
  have hsplit : a + sizeMod - b = a - b + sizeMod := by omega
  rw [sub64, hsplit, Nat.add_mod_right]
  exact Nat.mod_eq_of_lt (by omega)

theorem add64_sub64 (hle : b ≤ a) (hb : b < sizeMod) (h : a - b + c < sizeMod) :
    add64 a (sub64 c b) = a - b + c := by
  have hsplit : a + (c + sizeMod - b) = a - b + c + sizeMod := by omega
  rw [add64, sub64, Nat.add_mod_mod, hsplit, Nat.add_mod_right]
  exact Nat.mod_eq_of_lt h

end

def arenaFreeNil : Nat := 0xffff

def arenaSize : Nat := 4096

def arenaBlockSizeCount : Nat := 31

def arenaMaxSmallSize : Nat := 512

/-- `sizeof(JSMallocBlockHeader)`. -/
def headerSize : Nat := 8

/-- `sizeof(JSArena)`. -/
def arenaHeaderSize : Nat := 40

def mallocOverhead : Nat := 8

def arenaBlockSizes : List Nat :=
  [16, 24, 32, 40, 48, 56, 64, 72, 80, 88, 96, 104, 112, 120, 128,
    144, 160, 176, 192, 208, 224, 240, 256,
    288, 320, 352, 384, 416, 448, 480, 512]

def blockSize (i : Nat) : Nat := arenaBlockSizes.getD i 0

def arenaGetSizeIndex (size : Nat) : Nat :=
  if size ≤ 16 then 0
  else if size ≤ 128 then (size + 7) / 8 - 2
  else if size ≤ 256 then (size + 15) / 16 + 6
  else if size ≤ 512 then (size + 31) / 32 + 14
  else arenaBlockSizeCount

/-- The size rounded up to `JS_ARENA_ALIGN`, and a header. -/
def totalSize (size : Nat) : Nat := add64 (add64 size 7 / 8 * 8) headerSize

/-- `n_blocks` of an arena of a size class. -/
def blocksPerArena (i : Nat) : Nat := (arenaSize - arenaHeaderSize) / blockSize i

/-- `JSMallocBlockHeader`. The field `u` is the index of a block in use, the next free block of a
free one, and `JS_ARENA_FREE_NIL` for a large block. -/
structure BlockHeader where
  u : Nat
  blockSizeIdx : Nat
  gcObjType : Nat
  mark : Bool
  refCount : Int
  deriving DecidableEq, Repr

/-- `JSArena`, without its links. -/
structure Arena where
  blockSizeIdx : Nat
  nUsedBlocks : Nat
  nBlocks : Nat
  firstFreeBlock : Nat
  deriving DecidableEq, Repr

structure Region where
  addr : Nat
  size : Nat
  usable : Nat
  deriving DecidableEq, Repr

def Region.Disjoint (r r' : Region) : Prop :=
  r.addr + r.size ≤ r'.addr ∨ r'.addr + r'.size ≤ r.addr

instance (r r' : Region) : Decidable (r.Disjoint r') :=
  inferInstanceAs (Decidable (_ ∨ _))

structure Allocation where
  region : Region
  contents : Nat → UInt8

/-- `JSMallocState`, `JSArenaState`, the memory with its headers, and the host's regions. -/
structure Heap where
  mallocCount : Nat
  mallocSize : Nat
  mallocLimit : Nat
  arenaList : Nat → List Nat
  freeArenaList : Nat → List Nat
  /-- The address of `zero_size_block`, inside the region of the runtime. -/
  zeroSizeBlock : Nat
  runtime : Region
  header : Nat → BlockHeader
  arena : Nat → Arena
  bytes : Nat → UInt8
  regions : List Region

/-- What the host promises of an answer: a region that is as large as asked for, apart from the
others and inside the address space, with a usable size if it knows one. As a region is aligned to
16 bytes and is not at address 0, it starts at 16 or above. -/
structure Region.Fresh (r : Region) (n : Nat) (regions : List Region) : Prop where
  size : n ≤ r.size
  usable : r.usable = 0 ∨ n ≤ r.usable ∧ r.usable ≤ r.size
  start : 16 ≤ r.addr
  bound : r.addr + r.size ≤ sizeMod
  disjoint : ∀ r' ∈ regions, r'.Disjoint r

instance (r : Region) (n : Nat) (regions : List Region) : Decidable (r.Fresh n regions) :=
  decidable_of_iff (n ≤ r.size ∧ (r.usable = 0 ∨ n ≤ r.usable ∧ r.usable ≤ r.size) ∧ 16 ≤ r.addr ∧
    r.addr + r.size ≤ sizeMod ∧ ∀ r' ∈ regions, r'.Disjoint r)
    ⟨fun ⟨a, b, c, d, e⟩ => ⟨a, b, c, d, e⟩, fun ⟨a, b, c, d, e⟩ => ⟨a, b, c, d, e⟩⟩

namespace Heap

variable (h : Heap)

def fill (a n : Nat) (contents : Nat → UInt8) : Heap :=
  { h with bytes := fun x => if a ≤ x ∧ x < a + n then contents (x - a) else h.bytes x }

def setHeader (b : Nat) (f : BlockHeader → BlockHeader) : Heap :=
  { h with header := Function.update h.header b (f (h.header b)) }

def setArena (a : Nat) (f : Arena → Arena) : Heap :=
  { h with arena := Function.update h.arena a (f (h.arena a)) }

/-- The host's `js_malloc`. An answer that breaks its promise is no event. -/
def mfMalloc (n : Nat) (answer : Option Allocation) : Option (Heap × Option Nat) :=
  match answer with
  | none => some (h, none)
  | some a =>
    if a.region.Fresh n h.regions then
      some (({ h with regions := a.region :: h.regions }).fill a.region.addr a.region.size
        a.contents, some a.region.addr)
    else none

/-- The host's `js_free`. -/
def mfFree (a : Nat) : Heap :=
  { h with regions := h.regions.filter fun r => !decide (r.addr = a) }

/-- The host's `js_malloc_usable_size`. -/
def mfUsableSize (a : Nat) : Nat := ((h.regions.find? fun r => r.addr = a).map (·.usable)).getD 0

/-- The host's `js_realloc`: what fits of the old region is kept, a header if it does. -/
def mfRealloc (a n : Nat) (answer : Option Allocation) : Option (Heap × Option Nat) :=
  match answer with
  | none => some (h, none)
  | some a' =>
    let old := ((h.regions.find? fun r => r.addr = a).map (·.size)).getD 0
    let freed := h.mfFree a
    if a'.region.Fresh n freed.regions then
      let moved := ({ freed with regions := a'.region :: freed.regions }).fill a'.region.addr
        a'.region.size fun k => if k < min old n then h.bytes (a + k) else a'.contents k
      some (if headerSize ≤ n then moved.setHeader a'.region.addr fun _ => h.header a else moved,
        some a'.region.addr)
    else none

def blockAddr (a i k : Nat) : Nat := a + arenaHeaderSize + k * blockSize i

/-- `arena_new`, after the host's answer: the blocks are linked in their order. -/
def arenaInit (a i : Nat) : Heap :=
  let n := blocksPerArena i
  { h with
    header := fun b =>
      match (List.range n).find? fun k => blockAddr a i k = b with
      | none => h.header b
      | some k =>
        { h.header b with u := if k = n - 1 then arenaFreeNil else k + 1, blockSizeIdx := i }
    arena := Function.update h.arena a ⟨i, 0, n, 0⟩
    arenaList := Function.update h.arenaList i (a :: h.arenaList i)
    freeArenaList := Function.update h.freeArenaList i (a :: h.freeArenaList i) }

def arenaNew (i : Nat) (answer : Option Allocation) : Option (Heap × Option Nat) :=
  match h.mfMalloc (arenaHeaderSize + blocksPerArena i * blockSize i) answer with
  | none => none
  | some (h, none) => some (h, none)
  | some (h, some a) => some (h.arenaInit a i, some a)

def takeBlock (i a : Nat) : Heap × Nat :=
  let k := (h.arena a).firstFreeBlock
  let b := blockAddr a i k
  let ar : Arena :=
    { h.arena a with
      firstFreeBlock := (h.header b).u
      nUsedBlocks := (h.arena a).nUsedBlocks + 1 }
  let taken := (h.setHeader b fun hd => { hd with u := k }).setArena a fun _ => ar
  (if ar.nUsedBlocks = ar.nBlocks then
    { taken with
      freeArenaList := Function.update h.freeArenaList i ((h.freeArenaList i).erase a) }
  else taken, b + headerSize)

def markLarge (b : Nat) : Heap :=
  h.setHeader b fun hd => { hd with u := arenaFreeNil, blockSizeIdx := 0xff }

def arenaMallocLarge (size : Nat) (answer : Option Allocation) : Option (Heap × Option Nat) :=
  match h.mfMalloc (add64 headerSize size) answer with
  | none => none
  | some (h, none) => some (h, none)
  | some (h, some b) => some (h.markLarge b, some (b + headerSize))

def arenaMalloc (size : Nat) (answer : Option Allocation) : Option (Heap × Option Nat) :=
  if size = 0 then some (h, some (h.zeroSizeBlock + headerSize))
  else if totalSize size ≤ arenaMaxSmallSize then
    let i := arenaGetSizeIndex (totalSize size)
    match h.freeArenaList i with
    | a :: _ => some ((h.takeBlock i a).1, some (h.takeBlock i a).2)
    | [] =>
      match h.arenaNew i answer with
      | none => none
      | some (h, none) => some (h, none)
      | some (h, some a) => some ((h.takeBlock i a).1, some (h.takeBlock i a).2)
  else h.arenaMallocLarge size answer

def arenaFree (ptr : Nat) : Heap :=
  if ptr = 0 then h
  else
    let b := ptr - headerSize
    if (h.header b).u = arenaFreeNil then
      if b = h.zeroSizeBlock then h else h.mfFree b
    else
      let k := (h.header b).u
      let i := (h.header b).blockSizeIdx
      let a := b - blockSize i * k - arenaHeaderSize
      let ar := h.arena a
      let freed := (h.setHeader b fun hd => { hd with u := ar.firstFreeBlock }).setArena a fun _ =>
        { ar with firstFreeBlock := k, nUsedBlocks := ar.nUsedBlocks - 1 }
      let list := if ar.nUsedBlocks = ar.nBlocks then a :: h.freeArenaList i else h.freeArenaList i
      if ar.nUsedBlocks - 1 = 0 then
        { freed with
          arenaList := Function.update h.arenaList i ((h.arenaList i).erase a)
          freeArenaList := Function.update h.freeArenaList i (list.erase a) }.mfFree a
      else { freed with freeArenaList := Function.update h.freeArenaList i list }

def arenaUsableSize (ptr : Nat) : Nat :=
  if ptr = 0 then 0
  else
    let b := ptr - headerSize
    if (h.header b).u = arenaFreeNil then
      if b = h.zeroSizeBlock then 0
      else if h.mfUsableSize b ≠ 0 then sub64 (h.mfUsableSize b) headerSize
      else 0
    else blockSize (h.header b).blockSizeIdx - headerSize

/-- `js_arena_calloc`, for a product `n` that does not overflow. -/
def arenaCalloc (n : Nat) (answer : Option Allocation) : Option (Heap × Option Nat) :=
  if totalSize n ≤ arenaMaxSmallSize then
    match h.arenaMalloc n answer with
    | none => none
    | some (h, none) => some (h, none)
    | some (h, some ptr) => some (h.fill ptr n fun _ => 0, some ptr)
  else h.arenaMallocLarge n (answer.map fun a => { a with contents := fun _ => 0 })

def arenaRealloc (ptr size : Nat) (answer : Option Allocation) : Option (Heap × Option Nat) :=
  let b := ptr - headerSize
  if (h.header b).u = arenaFreeNil then
    if b = h.zeroSizeBlock then h.arenaMalloc size answer
    else
      match h.mfRealloc b (add64 headerSize size) answer with
      | none => none
      | some (h, none) => some (h, none)
      | some (h, some nb) => some (h.markLarge nb, some (nb + headerSize))
  else
    let block := blockSize (h.header b).blockSizeIdx
    if totalSize size ≤ block then some (h, some ptr)
    else
      match h.arenaMalloc size answer with
      | none => none
      | some (h, none) => some (h, none)
      | some (h', some newPtr) =>
        let carried := h'.setHeader (newPtr - headerSize) fun nb =>
          { nb with
            gcObjType := (h'.header b).gcObjType
            mark := (h'.header b).mark
            refCount := (h'.header b).refCount }
        let copied := carried.fill newPtr (min size (block - headerSize)) fun k => h'.bytes (ptr + k)
        some (copied.arenaFree ptr, some newPtr)

/-- The check of `malloc_limit`, where 0 is no limit. -/
def overLimit (n : Nat) : Bool := sub64 h.mallocLimit 1 < n

def account (ptr : Nat) : Heap :=
  { h with
    mallocCount := add64 h.mallocCount 1
    mallocSize := add64 h.mallocSize (add64 (h.arenaUsableSize ptr) mallocOverhead) }

def mallocRt (size : Nat) (answer : Option Allocation) : Option (Heap × Option Nat) :=
  if size = 0 then some (h, none)
  else if h.overLimit (add64 h.mallocSize size) then some (h, none)
  else
    match h.arenaMalloc size answer with
    | none => none
    | some (h, none) => some (h, none)
    | some (h, some ptr) => some (h.account ptr, some ptr)

/-- `js_calloc_rt`. Its assertion asks for a size that is not 0. -/
def callocRt (count size : Nat) (answer : Option Allocation) : Option (Heap × Option Nat) :=
  let n := count * size % sizeMod
  if count = 0 ∨ size = 0 then none
  else if count ≠ n / size then some (h, none)
  else if h.overLimit (add64 h.mallocSize n) then some (h, none)
  else
    match h.arenaCalloc n answer with
    | none => none
    | some (h, none) => some (h, none)
    | some (h, some ptr) => some (h.account ptr, some ptr)

/-- `js_free_rt`; none is the call of `abort`. -/
def freeRt (ptr : Nat) : Option Heap :=
  if ptr = 0 then some h
  else
    let freeSize := add64 (h.arenaUsableSize ptr) mallocOverhead
    if h.mallocSize < freeSize then none
    else
      some (({ h with
        mallocCount := sub64 h.mallocCount 1
        mallocSize := sub64 h.mallocSize freeSize }).arenaFree ptr)

/-- `js_realloc_rt` for a block and a size that is not 0. -/
def reallocBlockRt (ptr size : Nat) (answer : Option Allocation) : Option (Heap × Option Nat) :=
  let oldSize := h.arenaUsableSize ptr
  if h.overLimit (sub64 (add64 h.mallocSize size) oldSize) then some (h, none)
  else
    match h.arenaRealloc ptr size answer with
    | none => none
    | some (h, none) => some (h, none)
    | some (h, some ptr) =>
      some ({ h with
        mallocSize := add64 h.mallocSize (sub64 (h.arenaUsableSize ptr) oldSize) }, some ptr)

end Heap

end TurboJS.Memory
