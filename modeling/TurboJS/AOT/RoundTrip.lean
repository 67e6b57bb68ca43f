import TurboJS.AOT.Module
import Mathlib.Data.List.TakeWhile

namespace TurboJS.AOT
open IR Foundation

/-! What the serializer writes the loader reads back. -/

structure InstructionFits (i : Instruction) : Prop where
  destination : i.destination < 2 ^ 16
  left : i.left < 2 ^ 16
  right : i.right < 2 ^ 16
  target : i.target < 2 ^ 32
  bytecodeOffset : i.bytecodeOffset < 2 ^ 32

/-- A function as it stands in memory: its numbers lie in the ranges of their types, and the call
sites are those that the immediates point to. -/
structure InMemory (host : HostMemory) (f : Function) : Prop where
  registerCount : f.registerCount < 2 ^ 16
  argumentCount : f.argumentCount < 2 ^ 16
  localCount : f.localCount < 2 ^ 16
  fits : ∀ i ∈ f.instructions, InstructionFits i
  sites : ∀ i ∈ f.instructions, i.site = siteOf host i.opcode i.immediate

section

variable {host : HostMemory} {data rest : List UInt8}

theorem getLE_record_mod {fields : List (Nat × Nat)} {q v : Nat} (offset n : Nat)
    (hq : q ≤ data.length) (hdata : data.drop q = encodeFields fields ++ rest)
    (hfield : fieldAt fields offset = some (n, v)) :
    getLE n data (q + offset) = some (v % 256 ^ n) := by
  rw [← getLE_drop n data hq, hdata, getLE_encodeFields hfield]

theorem getLE_record {fields : List (Nat × Nat)} {q v : Nat} (offset n : Nat)
    (hq : q ≤ data.length) (hdata : data.drop q = encodeFields fields ++ rest)
    (hfield : fieldAt fields offset = some (n, v)) (hv : v < 256 ^ n) :
    getLE n data (q + offset) = some v := by
  rw [getLE_record_mod offset n hq hdata hfield, Nat.mod_eq_of_lt hv]

theorem readInstruction_record {i : Instruction} {q : Nat} (hfits : InstructionFits i)
    (hsite : i.site = siteOf host i.opcode i.immediate) (hq : q ≤ data.length)
    (hdata : data.drop q = encodeFields (instructionFields i) ++ rest) :
    readInstruction host data q = some (opcodeNumber i.opcode, i) := by
  have hnumber := getLE_record 0 2 hq hdata rfl (opcodeNumber_lt i.opcode)
  have hdestination := getLE_record 2 2 hq hdata rfl hfits.destination
  have hleft := getLE_record 4 2 hq hdata rfl hfits.left
  have hright := getLE_record 6 2 hq hdata rfl hfits.right
  have himmediate := getLE_record 8 8 hq hdata rfl i.immediate.isLt
  have htarget := getLE_record 16 4 hq hdata rfl hfits.target
  have hoffset := getLE_record 20 4 hq hdata rfl hfits.bytecodeOffset
  rw [Nat.add_zero] at hnumber
  obtain ⟨opcode, destination, left, right, immediate, target, bytecodeOffset, site⟩ := i
  simp only at *
  simp [readInstruction, hnumber, hdestination, hleft, hright, himmediate, htarget, hoffset,
    opcodes_number, hsite]

theorem irBody_cons (i : Instruction) (is : List Instruction) :
    (i :: is).flatMap (fun i => encodeFields (instructionFields i)) =
      encodeFields (instructionFields i) ++
        is.flatMap fun i => encodeFields (instructionFields i) :=
  List.flatMap_cons

@[simp] theorem instructionFields_size (i : Instruction) :
    fieldsSize (instructionFields i) = instructionSize := rfl

theorem irBody_length (is : List Instruction) :
    (is.flatMap fun i => encodeFields (instructionFields i)).length =
      is.length * instructionSize := by
  induction is with
  | nil => simp
  | cons i is ih =>
    rw [irBody_cons, List.length_append, ih, encodeFields_length, instructionFields_size,
      List.length_cons, Nat.succ_mul, Nat.add_comm]

/-- The table of instructions is read back, as far as there is storage for them. -/
theorem readInstructions_table (emits : Nat → Bool) {is : List Instruction} {k : Nat}
    (hfits : ∀ i ∈ is, InstructionFits i)
    (hsites : ∀ i ∈ is, i.site = siteOf host i.opcode i.immediate)
    (hk : headerSize + k * instructionSize ≤ data.length)
    (hdata : data.drop (headerSize + k * instructionSize) =
      (is.flatMap fun i => encodeFields (instructionFields i)) ++ rest) :
    ∃ r, readInstructions host emits data is.length k = some r ∧
      (∀ records, r = .ok records → records = is.map fun i => (opcodeNumber i.opcode, i)) ∧
      ((∀ j, emits j = true) → r = .ok (is.map fun i => (opcodeNumber i.opcode, i))) := by
  induction is generalizing k with
  | nil =>
    refine ⟨.ok [], rfl, ?_, fun _ => rfl⟩
    intro records h
    cases h
    rfl
  | cons i is ih =>
    rw [irBody_cons, List.append_assoc] at hdata
    have hrecord := readInstruction_record (hfits i List.mem_cons_self)
      (hsites i List.mem_cons_self) hk hdata
    have hlen : (data.drop (headerSize + k * instructionSize)).length =
        instructionSize + ((is.flatMap fun i => encodeFields (instructionFields i)) ++
          rest).length := by
      rw [hdata, List.length_append, encodeFields_length, instructionFields_size]
    rw [List.length_drop] at hlen
    have hnext : data.drop (headerSize + (k + 1) * instructionSize) =
        (is.flatMap fun i => encodeFields (instructionFields i)) ++ rest := by
      have hsum : headerSize + (k + 1) * instructionSize =
          headerSize + k * instructionSize + instructionSize := by
        rw [Nat.succ_mul, Nat.add_assoc]
      rw [hsum, ← List.drop_drop, hdata]
      exact List.drop_left' (encodeFields_length _)
    obtain ⟨r, hr, honly, hall⟩ := ih (k := k + 1)
      (fun j hj => hfits j (List.mem_cons_of_mem i hj))
      (fun j hj => hsites j (List.mem_cons_of_mem i hj)) (by rw [Nat.succ_mul]; omega) hnext
    rw [List.length_cons, readInstructions]
    simp only [hrecord, hr, Option.bind_eq_bind, Option.bind_some, Option.pure_def]
    cases hemit : emits k with
    | false =>
      refine ⟨_, rfl, ?_, ?_⟩
      · intro records h
        cases h
      · intro h
        rw [h k] at hemit
        cases hemit
    | true =>
      simp only [Bool.not_true, Bool.false_eq_true, if_false]
      cases r with
      | error d =>
        refine ⟨_, rfl, ?_, ?_⟩
        · intro records h
          cases h
        · intro h
          cases hall h
      | ok records =>
        have hrecords := honly records rfl
        subst hrecords
        refine ⟨_, rfl, ?_, fun _ => rfl⟩
        intro records h
        cases h
        rfl

theorem verifyNumbers_known (f : Function) :
    verifyNumbers f (f.instructions.map fun i => opcodeNumber i.opcode) = irVerify f := by
  have hnone : (f.instructions.map fun i => opcodeNumber i.opcode).findIdx?
      (fun n => (opcodes[n]?).isNone) = none := by
    rw [List.findIdx?_eq_none_iff]
    intro n hn
    obtain ⟨i, -, rfl⟩ := List.mem_map.mp hn
    rw [opcodes_number]
    rfl
  rw [verifyNumbers, hnone]

def irImage (f : Function) : List UInt8 :=
  encodeFields (irHeaderFields f (checksum (irBody f)).toNat
    (headerSize + f.instructions.length * instructionSize)) ++ irBody f

theorem serializeIR_ok {f : Function} {image : List UInt8} (h : serializeIR f = .ok image) :
    image = irImage f ∧ (irVerify f).status = .ok ∧
      f.instructions.length ≤ (sizeMax - headerSize) / instructionSize := by
  unfold serializeIR at h
  split at h
  · cases h
  · rename_i hverify
    split at h
    · cases h
    · rename_i hlen
      cases h
      exact ⟨rfl, by simpa using hverify, by omega⟩

theorem irImage_length (f : Function) :
    (irImage f).length = headerSize + f.instructions.length * instructionSize := by
  rw [irImage, List.length_append, encodeFields_length, irBody, irBody_length]
  rfl

/-- The loader accepts the image of a function, unless it has too many locals. -/
theorem deserializeIR_image (rest : List UInt8) (emits : Nat → Bool) {f : Function}
    (hmem : InMemory host f)
    (hverify : (irVerify f).status = .ok)
    (hlen : f.instructions.length ≤ (sizeMax - headerSize) / instructionSize) :
    ∃ r, deserializeIR host emits (irImage f ++ rest) (irImage f).length = some r ∧
      (∀ g, r = .ok g → g = f ∧ f.localCount ≤ maxRegisters ∧ f.instructions.length < 2 ^ 32) ∧
      ((∀ j, emits j = true) → f.instructions.length < 2 ^ 32 →
        (r = .ok f ↔ f.localCount ≤ maxRegisters)) := by
  have hsum : (checksum (irBody f)).toNat < 256 ^ 4 := (checksum (irBody f)).isLt
  have htotal : headerSize + f.instructions.length * instructionSize < 256 ^ 8 := by
    simp only [sizeMax, headerSize, instructionSize] at hlen ⊢
    omega
  have hdata : (irImage f ++ rest).drop 0 = encodeFields (irHeaderFields f
      (checksum (irBody f)).toNat (headerSize + f.instructions.length * instructionSize)) ++
        (irBody f ++ rest) := by
    rw [List.drop_zero, irImage, List.append_assoc]
  have hzero : 0 ≤ (irImage f ++ rest).length := Nat.zero_le _
  have hmagic := getLE_record 0 4 hzero hdata rfl (by decide)
  have hversion := getLE_record 4 2 hzero hdata rfl (by decide)
  have hhs := getLE_record 6 2 hzero hdata rfl (by decide)
  have his := getLE_record 18 2 hzero hdata rfl (by decide)
  have hdeclared := getLE_record 24 8 hzero hdata rfl htotal
  have hstored := getLE_record 20 4 hzero hdata rfl hsum
  have hargs := getLE_record 14 2 hzero hdata rfl hmem.argumentCount
  have hregs := getLE_record 12 2 hzero hdata rfl hmem.registerCount
  have hlocals := getLE_record 16 2 hzero hdata rfl hmem.localCount
  have hcount := getLE_record_mod 8 4 hzero hdata rfl
  have hsize : (irImage f).length = headerSize + f.instructions.length * instructionSize :=
    irImage_length f
  have hdrop : (irImage f ++ rest).drop headerSize = irBody f ++ rest := by
    rw [irImage, List.append_assoc]
    exact List.drop_left' (encodeFields_length _)
  have hbodyLength : (irBody f).length = f.instructions.length * instructionSize :=
    irBody_length f.instructions
  have hbody : bytesAt (irImage f ++ rest) headerSize
      (headerSize + f.instructions.length * instructionSize - headerSize) = some (irBody f) := by
    rw [bytesAt_eq (by rw [List.length_append, hsize]; omega), hdrop, Nat.add_sub_cancel_left,
      ← hbodyLength, List.take_left]
  rw [hsize]
  unfold deserializeIR
  simp only [Nat.zero_add] at hmagic hversion hhs his hdeclared hstored hargs hregs hlocals hcount
  simp only [hmagic, hversion, hhs, his, hdeclared, hstored, hargs, hregs, hlocals, hcount, hbody,
    Option.bind_eq_bind, Option.bind_some, Option.pure_def, ne_eq, not_true_eq_false, if_false,
    or_self, Nat.not_lt.mpr (Nat.le_add_right headerSize _)]
  by_cases hsmall : f.instructions.length < 2 ^ 32
  · have hmod : f.instructions.length % 256 ^ 4 = f.instructions.length := Nat.mod_eq_of_lt hsmall
    have hregisters : f.registerCount ≤ maxRegisters := (irVerify_ok.mp hverify).1
    have hat : headerSize + 0 * instructionSize ≤ (irImage f ++ rest).length := by
      rw [List.length_append, hsize]
      omega
    have htable : (irImage f ++ rest).drop (headerSize + 0 * instructionSize) =
        (f.instructions.flatMap fun i => encodeFields (instructionFields i)) ++ rest := by
      rw [Nat.zero_mul, Nat.add_zero, hdrop]
      rfl
    obtain ⟨r, hr, honly, hall⟩ :=
      readInstructions_table emits hmem.fits hmem.sites hat htable
    simp only [hmod, not_true_eq_false, if_false, Nat.not_lt.mpr hregisters, false_or, hr,
      Option.bind_some, gt_iff_lt]
    by_cases hlocal : f.localCount ≤ maxRegisters
    · rw [if_neg (Nat.not_lt.mpr hlocal)]
      cases r with
      | error d =>
        refine ⟨_, rfl, ?_, ?_⟩
        · intro g h
          cases h
        · intro h
          cases hall h
      | ok records =>
        have hrecords := honly records rfl
        subst hrecords
        have hnumbers : (f.instructions.map fun i => (opcodeNumber i.opcode, i)).map (·.1) =
            f.instructions.map fun i => opcodeNumber i.opcode := by
          rw [List.map_map]
          rfl
        have hinstructions : (f.instructions.map fun i => (opcodeNumber i.opcode, i)).map (·.2) =
            f.instructions := by
          rw [List.map_map]
          exact List.map_id' f.instructions
        have hsame : (⟨f.instructions, f.registerCount, f.argumentCount, f.localCount⟩ : Function)
            = f := rfl
        simp only [hnumbers, hinstructions, hsame, verifyNumbers_known, hverify,
          not_true_eq_false, if_false]
        refine ⟨_, rfl, ?_, fun _ _ => iff_of_true rfl hlocal⟩
        intro g h
        cases h
        exact ⟨rfl, hlocal, hsmall⟩
    · rw [if_pos (Nat.not_le.mp hlocal)]
      refine ⟨_, rfl, ?_, fun _ _ => iff_of_false (by simp) hlocal⟩
      intro g h
      cases h
  · have hmod : ¬ headerSize + f.instructions.length % 256 ^ 4 * instructionSize =
        headerSize + f.instructions.length * instructionSize := by
      simp only [headerSize, instructionSize]
      omega
    simp only [hmod, not_false_eq_true, if_true]
    refine ⟨_, rfl, ?_, ?_⟩
    · intro g h
      cases h
    · intro _ h
      exact absurd h hsmall

theorem zero_notMem_cString (name : List UInt8) : 0 ∉ cString name := by
  intro h
  have := List.mem_takeWhile_imp h
  simp at this

theorem cString_of_notMem {name : List UInt8} (h : 0 ∉ name) : cString name = name := by
  rw [cString, List.takeWhile_eq_self_iff]
  intro b hb
  simp only [decide_eq_true_eq]
  rintro rfl
  exact h hb

def loaded (f : ModuleFunction) : ModuleFunction := ⟨cString f.name, f.ir⟩

structure Serializable (f : ModuleFunction) : Prop where
  name : cString f.name ≠ []
  name_le : (cString f.name).length ≤ uint32Max
  verified : (irVerify f.ir).status = .ok
  instructions : f.ir.instructions.length ≤ (sizeMax - headerSize) / instructionSize

def part (f : ModuleFunction) : List UInt8 × List UInt8 := (cString f.name, irImage f.ir)

theorem payload_cons (f : ModuleFunction) (fs : List ModuleFunction) :
    payload ((f :: fs).map part) =
      cString f.name ++ (irImage f.ir ++ payload (fs.map part)) := by
  simp [payload, part]

theorem imagesFrom_ok {fs : List ModuleFunction} {i total total' : Nat}
    {parts : List (List UInt8 × List UInt8)} (h : imagesFrom fs i total = .ok (parts, total')) :
    parts = fs.map part ∧ total' = total + (payload parts).length ∧
      (∀ f ∈ fs, Serializable f) ∧ (total ≤ sizeMax → total' ≤ sizeMax) := by
  induction fs generalizing i total parts total' with
  | nil =>
    cases h
    exact ⟨rfl, rfl, by simp, id⟩
  | cons f fs ih =>
    unfold imagesFrom at h
    simp only at h
    split at h
    · cases h
    rename_i hname
    cases hs : serializeIR f.ir with
    | error d =>
      rw [hs] at h
      cases h
    | ok image =>
      obtain ⟨rfl, hverify, hlen⟩ := serializeIR_ok hs
      simp only [hs] at h
      split at h
      · cases h
      rename_i hroom
      cases hrest : imagesFrom fs (i + 1)
          (total + ((cString f.name).length + (irImage f.ir).length)) with
      | error d =>
        rw [hrest] at h
        cases h
      | ok r =>
        obtain ⟨parts', total''⟩ := r
        rw [hrest] at h
        cases h
        obtain ⟨rfl, htotal, hall, hmax⟩ := ih hrest
        refine ⟨rfl, ?_, ?_, ?_⟩
        · rw [htotal]
          have := payload_cons f fs
          rw [List.map_cons] at this
          rw [show (cString f.name, irImage f.ir) = part f from rfl, this, List.length_append,
            List.length_append]
          omega
        · intro g hg
          rcases List.mem_cons.mp hg with rfl | hg
          · refine ⟨fun h => hname (.inl h), ?_, hverify, hlen⟩
            omega
          · exact hall g hg
        · intro _
          apply hmax
          have hpos : 0 < (cString f.name).length :=
            List.length_pos_iff.mpr fun h => hname (.inl h)
          omega

theorem tableFrom_length {parts : List (List UInt8 × List UInt8)} {i offset : Nat}
    {table : List UInt8} (h : tableFrom parts i offset = .ok table) :
    table.length = parts.length * moduleEntry := by
  induction parts generalizing i offset table with
  | nil =>
    cases h
    rfl
  | cons p parts ih =>
    obtain ⟨name, image⟩ := p
    unfold tableFrom at h
    split at h
    · cases h
    cases hrest : tableFrom parts (i + 1) (offset + name.length + image.length) with
    | error d =>
      rw [hrest] at h
      cases h
    | ok table' =>
      rw [hrest] at h
      cases h
      rw [List.length_append, ih hrest, encodeFields_length, List.length_cons, Nat.succ_mul,
        Nat.add_comm]
      rfl

structure Loadable (limits : LoadLimits) (f : ModuleFunction) : Prop where
  name_le : (cString f.name).length ≤ limits.maxNameBytes
  instructions_le : f.ir.instructions.length ≤ limits.maxInstructionsPerFunction
  instructions_lt : f.ir.instructions.length < 2 ^ 32

/-- A function that follows `done` and passes all checks of the loader. -/
structure Passes (limits : LoadLimits) (names : List (List UInt8)) (total : Nat)
    (f : ModuleFunction) : Prop extends Loadable limits f where
  locals_le : f.ir.localCount ≤ maxRegisters
  fresh : cString f.name ∉ names
  budget : f.ir.instructions.length ≤ limits.maxTotalInstructions - total

/-- A round of the loop loads the function whose entry and data it finds. -/
theorem loadFunction_entry (alloc : Allocator) (limits : LoadLimits) (m : Module) (total : Nat)
    {f : ModuleFunction} {i offset : Nat} {r₁ r₂ : List UInt8} (hmem : InMemory host f.ir)
    (hs : Serializable f) (hmax : data.length ≤ sizeMax)
    (hi : moduleHeader + i * moduleEntry ≤ data.length)
    (hentry : data.drop (moduleHeader + i * moduleEntry) =
      encodeFields (entryFields offset (cString f.name) (irImage f.ir)) ++ r₁)
    (hoffset : offset ≤ uint32Max)
    (hdata : data.drop offset = cString f.name ++ (irImage f.ir ++ r₂)) :
    ∃ m' r, loadFunction host alloc limits data i m total = some (m', r) ∧
      (∀ t, r = .ok t → m' = m.set i (loaded f) ∧ t = total + f.ir.instructions.length ∧
        Passes limits ((m.take i).map (·.name)) total f) ∧
      (alloc = .unlimited → Passes limits ((m.take i).map (·.name)) total f →
        r = .ok (total + f.ir.instructions.length)) := by
  have hpos : 0 < (cString f.name).length := List.length_pos_iff.mpr hs.name
  have hlength : data.length - offset =
      (cString f.name).length + ((irImage f.ir).length + r₂.length) := by
    rw [← List.length_drop, hdata, List.length_append, List.length_append]
  have hname : bytesAt data offset (cString f.name).length = some (cString f.name) := by
    rw [bytesAt_eq (by omega), hdata, List.take_left]
  have himage : data.drop (offset + (cString f.name).length) = irImage f.ir ++ r₂ := by
    rw [← List.drop_drop, hdata, List.drop_left]
  have hno := getLE_record 0 4 hi hentry rfl (by simp only [uint32Max] at hoffset; omega)
  have hnl := getLE_record 4 4 hi hentry rfl
    (by have := hs.name_le; simp only [uint32Max] at this; omega)
  have hio := getLE_record 8 8 hi hentry rfl (by simp only [sizeMax] at hmax; omega)
  have his := getLE_record 16 8 hi hentry rfl (by simp only [sizeMax] at hmax; omega)
  obtain ⟨r, hr, honly, hiff⟩ := deserializeIR_image r₂ (alloc.emit i) hmem hs.verified
    hs.instructions
  have hfresh : (m.set i { name := cString f.name }).take i = m.take i :=
    List.take_set_of_le (Nat.le_refl i)
  have hagain : (m.set i { name := cString f.name }).set i ⟨cString f.name, f.ir⟩ =
      m.set i (loaded f) := List.set_set ..
  rw [Nat.add_zero] at hno
  unfold loadFunction
  simp only [hno, hnl, hio, his, hname, himage, hr, hfresh, Option.bind_eq_bind, Option.bind_some,
    Option.pure_def, zero_notMem_cString, if_false]
  -- only the limit on names can reject an entry of the serializer
  by_cases hlimit : (cString f.name).length ≤ limits.maxNameBytes
  · rw [if_neg (by omega)]
    cases halloc : alloc.name i with
    | false =>
      refine ⟨_, _, rfl, nofun, ?_⟩
      rintro rfl
      cases halloc
    | true =>
      simp only [Bool.not_true, Bool.false_eq_true, if_false]
      by_cases hdup : cString f.name ∈ (m.take i).map (·.name)
      · rw [if_pos hdup]
        exact ⟨_, _, rfl, nofun, fun _ h => absurd hdup h.fresh⟩
      rw [if_neg hdup]
      cases r with
      | error d =>
        refine ⟨_, _, rfl, nofun, ?_⟩
        rintro rfl hpass
        cases (hiff (fun _ => rfl) hpass.instructions_lt).mpr hpass.locals_le
      | ok g =>
        obtain ⟨rfl, hlocals, hsmall⟩ := honly g rfl
        simp only [hagain]
        split
        · rename_i hbudget
          refine ⟨_, _, rfl, nofun, ?_⟩
          intro _ hpass
          have := hpass.instructions_le
          have := hpass.budget
          omega
        · rename_i hbudget
          refine ⟨_, _, rfl, ?_, fun _ _ => rfl⟩
          intro t ht
          cases ht
          exact ⟨rfl, rfl, ⟨⟨hlimit, by omega, hsmall⟩, hlocals, hdup, by omega⟩⟩
  · rw [if_pos (by omega)]
    exact ⟨_, _, rfl, nofun, fun _ hpass => absurd hpass.name_le hlimit⟩

def instructionCount (fs : List ModuleFunction) : Nat :=
  (fs.map fun f => f.ir.instructions.length).sum

/-- The functions that follow `done` pass all checks of the loader. -/
structure Fits (limits : LoadLimits) (done : Module) (total : Nat) (fs : List ModuleFunction) :
    Prop where
  loadable : ∀ f ∈ fs, Loadable limits f ∧ f.ir.localCount ≤ maxRegisters
  distinct : ((done ++ fs.map loaded).map (·.name)).Nodup
  budget : total + instructionCount fs ≤ limits.maxTotalInstructions

theorem instructionCount_cons (f : ModuleFunction) (fs : List ModuleFunction) :
    instructionCount (f :: fs) = f.ir.instructions.length + instructionCount fs := by
  simp [instructionCount]

theorem Fits.head {limits : LoadLimits} {done : Module} {total : Nat} {f : ModuleFunction}
    {fs : List ModuleFunction} (h : Fits limits done total (f :: fs)) :
    Passes limits (done.map (·.name)) total f ∧
      Fits limits (done ++ [loaded f]) (total + f.ir.instructions.length) fs := by
  have hbudget := h.budget
  rw [instructionCount_cons] at hbudget
  obtain ⟨hload, hlocals⟩ := h.loadable f List.mem_cons_self
  refine ⟨⟨hload, hlocals, ?_, by omega⟩, ⟨fun g hg => h.loadable g (List.mem_cons_of_mem f hg),
    by simpa using h.distinct, by omega⟩⟩
  intro hmem
  have hdistinct := h.distinct
  rw [List.map_append, List.nodup_append] at hdistinct
  exact hdistinct.2.2 _ hmem _ (by simp [loaded]) rfl

theorem Passes.cons {limits : LoadLimits} {done : Module} {total : Nat} {f : ModuleFunction}
    {fs : List ModuleFunction} (h : Passes limits (done.map (·.name)) total f)
    (hrest : Fits limits (done ++ [loaded f]) (total + f.ir.instructions.length) fs) :
    Fits limits done total (f :: fs) := by
  have hbudget := hrest.budget
  refine ⟨?_, by simpa using hrest.distinct, ?_⟩
  · rintro g (_ | ⟨_, hg⟩)
    · exact ⟨h.toLoadable, h.locals_le⟩
    · exact hrest.loadable g hg
  · rw [instructionCount_cons]
    omega

theorem loadFrom_prefix (alloc : Allocator) (limits : LoadLimits) (done : Module) (total : Nat)
    (more : Nat) {fs : List ModuleFunction} {i offset : Nat} {table r₁ r₂ : List UInt8}
    (hmem : ∀ f ∈ fs, InMemory host f.ir) (hs : ∀ f ∈ fs, Serializable f)
    (hmax : data.length ≤ sizeMax) (hdone : done.length = i)
    (htable : tableFrom (fs.map part) i offset = .ok table)
    (hi : moduleHeader + i * moduleEntry ≤ data.length)
    (hentries : data.drop (moduleHeader + i * moduleEntry) = table ++ r₁)
    (hdata : data.drop offset = payload (fs.map part) ++ r₂) :
    (∃ m d, loadFrom host alloc limits data (fs.length + more) i
        (done ++ List.replicate (fs.length + more) ({} : ModuleFunction)) total =
          some (m, some d) ∧ (alloc = .unlimited → ¬ Fits limits done total fs)) ∨
      loadFrom host alloc limits data (fs.length + more) i
        (done ++ List.replicate (fs.length + more) ({} : ModuleFunction)) total =
          loadFrom host alloc limits data more (i + fs.length)
            (done ++ fs.map loaded ++ List.replicate more ({} : ModuleFunction))
            (total + instructionCount fs) ∧
        ((done.map (·.name)).Nodup → total ≤ limits.maxTotalInstructions →
          Fits limits done total fs) := by
  induction fs generalizing i offset total done table r₁ with
  | nil =>
    refine .inr ⟨?_, fun hnodup htotal => ⟨by simp, by simpa using hnodup, htotal⟩⟩
    simp [instructionCount]
  | cons f fs ih =>
    have hf := hs f List.mem_cons_self
    -- the table and the payload start with the entry and the data of this function
    rw [payload_cons, List.append_assoc, List.append_assoc] at hdata
    rw [List.map_cons, part, tableFrom] at htable
    split at htable
    · cases htable
    rename_i hoffset
    cases hrest : tableFrom (fs.map part) (i + 1)
        (offset + (cString f.name).length + (irImage f.ir).length) with
    | error d =>
      rw [hrest] at htable
      cases htable
    | ok table' =>
      rw [hrest] at htable
      cases htable
      rw [List.append_assoc] at hentries
      have hsucc : (f :: fs).length + more = fs.length + more + 1 := by
        rw [List.length_cons]
        omega
      rw [hsucc]
      obtain ⟨m₁, r, hround, honly, hpass⟩ := loadFunction_entry alloc limits
        (done ++ List.replicate (fs.length + more + 1) ({} : ModuleFunction)) total
        (hmem f List.mem_cons_self) hf hmax hi hentries (Nat.not_lt.mp hoffset) hdata
      have hset : (done ++ List.replicate (fs.length + more + 1) ({} : ModuleFunction)).set i
          (loaded f) = (done ++ [loaded f]) ++
            List.replicate (fs.length + more) ({} : ModuleFunction) := by
        rw [List.set_append_right i _ (by omega), hdone, Nat.sub_self, List.replicate_succ,
          List.set_cons_zero, List.append_assoc]
        rfl
      have htake : (done ++ List.replicate (fs.length + more + 1) ({} : ModuleFunction)).take i =
          done := List.take_left' hdone
      rw [htake] at honly hpass
      rw [loadFrom]
      simp only [hround, Option.bind_eq_bind, Option.bind_some, Option.pure_def]
      cases r with
      | error d =>
        refine .inl ⟨_, _, rfl, fun halloc hfits => ?_⟩
        cases hpass halloc hfits.head.1
      | ok t =>
        obtain ⟨rfl, rfl, hpasses⟩ := honly t rfl
        have hlen := congrArg List.length hentries
        rw [List.length_drop, List.length_append, encodeFields_length] at hlen
        have hentrySize : fieldsSize (entryFields offset (cString f.name) (irImage f.ir)) =
            moduleEntry := rfl
        have hnext : moduleHeader + (i + 1) * moduleEntry =
            moduleHeader + i * moduleEntry + moduleEntry := by
          rw [Nat.succ_mul, Nat.add_assoc]
        have hentries' : data.drop (moduleHeader + (i + 1) * moduleEntry) = table' ++ r₁ := by
          rw [hnext, ← List.drop_drop, hentries]
          exact List.drop_left' (encodeFields_length _)
        have hdata' : data.drop (offset + (cString f.name).length + (irImage f.ir).length) =
            payload (fs.map part) ++ r₂ := by
          rw [← List.drop_drop, ← List.drop_drop, hdata, List.drop_left, List.drop_left]
        have hrest := ih (done ++ [loaded f]) (total + f.ir.instructions.length)
          (fun g hg => hmem g (List.mem_cons_of_mem f hg))
          (fun g hg => hs g (List.mem_cons_of_mem f hg))
          (by simp [hdone]) hrest (by omega) hentries' hdata'
        simp only [hset]
        rcases hrest with ⟨m, d, hloop, hno⟩ | ⟨hloop, hfits⟩
        · exact .inl ⟨m, d, hloop, fun halloc h => hno halloc h.head.2⟩
        · refine .inr ⟨?_, fun hnodup htotal => hpasses.cons (hfits ?_ ?_)⟩
          · rw [hloop, instructionCount_cons, List.length_cons, Nat.add_assoc i, Nat.add_comm 1,
              Nat.add_assoc total]
            simp
          · rw [List.map_append, List.nodup_append]
            refine ⟨hnodup, by simp, ?_⟩
            intro a ha b hb
            simp only [List.map_cons, List.map_nil, List.mem_singleton] at hb
            rintro rfl
            rw [hb] at ha
            exact hpasses.fresh ha
          · have := hpasses.budget
            omega

theorem loadFrom_table (alloc : Allocator) (limits : LoadLimits) (done : Module) (total : Nat)
    {fs : List ModuleFunction} {i offset : Nat} {table r₁ : List UInt8}
    (hmem : ∀ f ∈ fs, InMemory host f.ir) (hs : ∀ f ∈ fs, Serializable f)
    (hmax : data.length ≤ sizeMax) (hdone : done.length = i)
    (htable : tableFrom (fs.map part) i offset = .ok table)
    (hi : moduleHeader + i * moduleEntry ≤ data.length)
    (hentries : data.drop (moduleHeader + i * moduleEntry) = table ++ r₁)
    (hdata : data.drop offset = payload (fs.map part)) :
    ∃ m r, loadFrom host alloc limits data fs.length i
        (done ++ List.replicate fs.length ({} : ModuleFunction)) total = some (m, r) ∧
      (r = none → m = done ++ fs.map loaded) ∧
      (alloc = .unlimited → (∀ f ∈ fs, Loadable limits f) →
        ((done ++ fs.map loaded).map (·.name)).Nodup →
        total + instructionCount fs ≤ limits.maxTotalInstructions →
        (r = none ↔ ∀ f ∈ fs, f.ir.localCount ≤ maxRegisters)) := by
  have hdata' : data.drop offset = payload (fs.map part) ++ [] := by
    rw [hdata, List.append_nil]
  rcases loadFrom_prefix alloc limits done total 0 hmem hs hmax hdone htable hi hentries hdata'
    with ⟨m, d, hloop, hno⟩ | ⟨hloop, hfits⟩
  · refine ⟨m, some d, hloop, nofun, fun halloc hload hnodup htotal => ?_⟩
    refine iff_of_false nofun fun hlocals => hno halloc ⟨?_, hnodup, htotal⟩
    exact fun f hf => ⟨hload f hf, hlocals f hf⟩
  · refine ⟨done ++ fs.map loaded, none, ?_, fun _ => rfl, fun _ _ hnodup htotal => ?_⟩
    · rw [Nat.add_zero] at hloop
      rw [hloop]
      simp [loadFrom]
    · rw [List.map_append, List.nodup_append] at hnodup
      exact iff_of_true rfl fun f hf => ((hfits hnodup.1 (by omega)).loadable f hf).2

theorem serializeModule_ok {fs : List ModuleFunction} {image : List UInt8}
    (h : serializeModule fs = .ok image) :
    ∃ table, tableFrom (fs.map part) 0 (moduleHeader + fs.length * moduleEntry) = .ok table ∧
      image = encodeFields (moduleHeaderFields fs.length
        (checksum (table ++ payload (fs.map part))).toNat image.length) ++
          (table ++ payload (fs.map part)) ∧
      (∀ f ∈ fs, Serializable f) ∧ 0 < fs.length ∧ fs.length ≤ maxFunctions ∧
      image.length ≤ sizeMax := by
  unfold serializeModule at h
  simp only at h
  split at h
  · cases h
  rename_i hn
  split at h
  · cases h
  cases himages : imagesFrom fs 0 (moduleHeader + fs.length * moduleEntry) with
  | error d =>
    rw [himages] at h
    cases h
  | ok r =>
    obtain ⟨parts, total⟩ := r
    obtain ⟨rfl, htotal, hall, hmax⟩ := imagesFrom_ok himages
    simp only [himages] at h
    cases htable : tableFrom (fs.map part) 0 (moduleHeader + fs.length * moduleEntry) with
    | error d =>
      rw [htable] at h
      cases h
    | ok table =>
      rw [htable] at h
      cases h
      have hlength : (encodeFields (moduleHeaderFields fs.length
          (checksum (table ++ payload (fs.map part))).toNat total) ++
            (table ++ payload (fs.map part))).length = total := by
        have hheader : ∀ n sum total, fieldsSize (moduleHeaderFields n sum total) =
            moduleHeader := fun _ _ _ => rfl
        rw [List.length_append, List.length_append, encodeFields_length, hheader,
          tableFrom_length htable, List.length_map, htotal, Nat.add_assoc]
      refine ⟨table, rfl, ?_, hall, by omega, by omega, ?_⟩
      · rw [hlength]
      · rw [hlength]
        apply hmax
        simp only [sizeMax, moduleHeader, moduleEntry, maxFunctions] at *
        omega

/-- The fields that stand in the header of an image, with `n` for the number of functions. -/
structure ImageHeader (data : List UInt8) (n : Nat) : Prop where
  length : moduleHeader ≤ data.length
  magic : getLE 4 data 0 = some tjmMagic
  version : getLE 2 data 4 = some moduleVersion
  headerSize : getLE 2 data 6 = some moduleHeader
  count : getLE 4 data 8 = some n
  sum : getLE 4 data 12 = some (checksum (data.drop moduleHeader)).toNat
  declared : getLE 8 data 16 = some data.length

structure ImageBody (data : List UInt8) (fs : List ModuleFunction) (table : List UInt8) :
    Prop where
  entries : tableFrom (fs.map part) 0 (moduleHeader + fs.length * moduleEntry) = .ok table
  length : table.length = fs.length * moduleEntry
  body : data.drop moduleHeader = table ++ payload (fs.map part)

theorem ImageBody.payload {data table : List UInt8} {fs : List ModuleFunction}
    (h : ImageBody data fs table) :
    data.drop (moduleHeader + fs.length * moduleEntry) = payload (fs.map part) := by
  rw [← List.drop_drop, h.body]
  exact List.drop_left' h.length

theorem serializeModule_image {fs : List ModuleFunction} {image : List UInt8}
    (h : serializeModule fs = .ok image) :
    ImageHeader image fs.length ∧ ∃ table, ImageBody image fs table := by
  obtain ⟨table, htable, himage, -, -, hle, hmax⟩ := serializeModule_ok h
  have hdrop : image.drop moduleHeader = table ++ payload (fs.map part) := by
    rw [himage]
    exact List.drop_left' (encodeFields_length _)
  have hdata : image.drop 0 = encodeFields (moduleHeaderFields fs.length
      (checksum (table ++ payload (fs.map part))).toNat image.length) ++
        (table ++ payload (fs.map part)) := himage
  have hheader : moduleHeader ≤ image.length := by
    rw [himage, List.length_append, encodeFields_length]
    exact Nat.le_add_right ..
  have hzero : 0 ≤ image.length := Nat.zero_le _
  have hmagic := getLE_record 0 4 hzero hdata rfl (by decide)
  have hversion := getLE_record 4 2 hzero hdata rfl (by decide)
  have hhs := getLE_record 6 2 hzero hdata rfl (by decide)
  have hn := getLE_record 8 4 hzero hdata rfl (by simp only [maxFunctions] at hle; omega)
  have hstored := getLE_record 12 4 hzero hdata rfl (BitVec.isLt _)
  have htotal := getLE_record 16 8 hzero hdata rfl (by simp only [sizeMax] at hmax; omega)
  simp only [Nat.zero_add] at hmagic hversion hhs hn hstored htotal
  rw [← hdrop] at hstored
  refine ⟨⟨hheader, hmagic, hversion, hhs, hn, hstored, htotal⟩, table, htable, ?_, hdrop⟩
  rw [tableFrom_length htable, List.length_map]

/-- The loader on an image of the serializer. -/
theorem deserializeModule_image (alloc : Allocator) (limits : LoadLimits)
    {fs : List ModuleFunction} {image : List UInt8} (h : serializeModule fs = .ok image)
    (hmem : ∀ f ∈ fs, InMemory host f.ir) :
    ∃ m r, deserializeModuleWithLimits host alloc limits image = some (m, r) ∧
      (r = none → m = fs.map loaded) ∧
      (alloc = .unlimited → image.length ≤ limits.maxImageBytes →
        fs.length ≤ limits.maxFunctionCount → (∀ f ∈ fs, Loadable limits f) →
        ((fs.map loaded).map (·.name)).Nodup → instructionCount fs ≤ limits.maxTotalInstructions →
        (r = none ↔ ∀ f ∈ fs, f.ir.localCount ≤ maxRegisters)) := by
  obtain ⟨-, -, -, hs, hpos, hle, hmax⟩ := serializeModule_ok h
  obtain ⟨⟨hheader, hmagic, hversion, hhs, hn, hstored, htotal⟩, table, hbody⟩ :=
    serializeModule_image h
  have hlength : image.length - moduleHeader =
      fs.length * moduleEntry + (payload (fs.map part)).length := by
    rw [← List.length_drop, hbody.body, List.length_append, hbody.length]
  have hentries : image.drop (moduleHeader + 0 * moduleEntry) =
      table ++ payload (fs.map part) := by
    rw [Nat.zero_mul, Nat.add_zero, hbody.body]
  have hbytes : bytesAt image moduleHeader (image.length - moduleHeader) =
      some (image.drop moduleHeader) := by
    rw [bytesAt_eq (by omega), ← List.length_drop, List.take_length]
  obtain ⟨m, r, hloop, hall, hiff⟩ := loadFrom_table (i := 0) alloc limits [] 0 hmem hs hmax
    rfl hbody.entries (by omega) hentries hbody.payload
  rw [List.nil_append] at hloop
  have hroom : fs.length ≤ (image.length - moduleHeader) / moduleEntry := by
    rw [hlength, Nat.le_div_iff_mul_le (by decide)]
    omega
  unfold deserializeModuleWithLimits
  simp only [hmagic, hversion, hhs, hn, hstored, htotal, hbytes, hloop, Option.bind_eq_bind,
    Option.bind_some, Option.pure_def, ne_eq, not_true_eq_false, if_false,
    Nat.not_lt.mpr hheader]
  split
  · rename_i hzeros
    refine ⟨_, _, rfl, ?_, ?_⟩
    · intro h
      cases h
    · -- none of the limits is zero when a function is within them
      intro _ hbytes hcount hload _ hbudget
      exfalso
      obtain ⟨f, fs', rfl⟩ := List.exists_cons_of_length_pos hpos
      have hf := hload f List.mem_cons_self
      have hname := List.length_pos_iff.mpr (hs f List.mem_cons_self).name
      obtain ⟨i, hi, -⟩ := (irVerify_ok.mp (hs f List.mem_cons_self).verified).2.2
      have hi := List.length_pos_iff_exists_mem.mpr ⟨i, hi⟩
      have hsum : f.ir.instructions.length ≤ instructionCount (f :: fs') := by
        simp [instructionCount]
      have h1 := hf.name_le
      have h2 := hf.instructions_le
      simp only [moduleHeader] at hheader
      omega
  split
  · rename_i hbytes
    refine ⟨_, _, rfl, ?_, ?_⟩
    · intro h
      cases h
    · intro _ h
      omega
  split
  · rename_i hbad
    refine ⟨_, _, rfl, ?_, ?_⟩
    · intro h
      cases h
    · intro _ _ h
      omega
  cases halloc : alloc.table with
  | false =>
    refine ⟨_, _, rfl, ?_, ?_⟩
    · intro h
      cases h
    · rintro rfl
      cases halloc
  | true =>
    simp only [Bool.not_true, Bool.false_eq_true, if_false]
    cases r with
    | none =>
      refine ⟨_, _, rfl, fun _ => hall rfl, ?_⟩
      intro halloc _ _ hload hnames hbudget
      exact hiff halloc hload hnames (by omega)
    | some d =>
      refine ⟨_, _, rfl, ?_, ?_⟩
      · intro h
        cases h
      · intro halloc _ _ hload hnames hbudget
        exact hiff halloc hload hnames (by omega)

theorem imagesFrom_loaded (fs : List ModuleFunction) (i total : Nat) :
    imagesFrom (fs.map loaded) i total = imagesFrom fs i total := by
  induction fs generalizing i total with
  | nil => rfl
  | cons f fs ih =>
    have hname : cString (loaded f).name = cString f.name :=
      cString_of_notMem (zero_notMem_cString f.name)
    have hir : (loaded f).ir = f.ir := rfl
    rw [List.map_cons, imagesFrom, imagesFrom, hname, hir]
    cases serializeIR f.ir with
    | error d => rfl
    | ok image => simp only [ih]

theorem serializeModule_loaded (fs : List ModuleFunction) :
    serializeModule (fs.map loaded) = serializeModule fs := by
  unfold serializeModule
  simp only [List.length_map, imagesFrom_loaded]

end

/-- Modules make the round trip exactly if no function has more locals than the loader takes:
then the loader gives back the names and the functions of an image within its default limits. And
whatever the loader gives back is serialized to the same image again. -/
theorem module_round_trip_iff (host : HostMemory) {fs : List ModuleFunction} {image : List UInt8}
    (h : serializeModule fs = .ok image) (hmem : ∀ f ∈ fs, InMemory host f.ir) :
    ((∀ f ∈ fs, 0 ∉ f.name ∧ f.name.length ≤ LoadLimits.default.maxNameBytes) →
      (fs.map (·.name)).Nodup → image.length ≤ LoadLimits.default.maxImageBytes →
      (∀ f ∈ fs, f.ir.instructions.length ≤ LoadLimits.default.maxInstructionsPerFunction) →
      instructionCount fs ≤ LoadLimits.default.maxTotalInstructions →
      (deserializeModule host .unlimited image = some (fs, none) ↔
        ∀ f ∈ fs, f.ir.localCount ≤ maxRegisters)) ∧
    ∀ alloc m, deserializeModule host alloc image = some (m, none) →
      serializeModule m = .ok image := by
  constructor
  · intro hnames hdistinct hbytes hinstructions hbudget
    have hloaded : fs.map loaded = fs := by
      refine List.map_congr_left (g := id) ?_ |>.trans (List.map_id fs)
      intro f hf
      rw [loaded, cString_of_notMem (hnames f hf).1]
      rfl
    obtain ⟨m, r, hload, hall, hiff⟩ :=
      deserializeModule_image .unlimited LoadLimits.default h hmem
    obtain ⟨-, -, -, -, -, hcount, -⟩ := serializeModule_ok h
    have hloadable : ∀ f ∈ fs, Loadable .default f := by
      intro f hf
      have hle := hinstructions f hf
      refine ⟨?_, hle, ?_⟩
      · rw [cString_of_notMem (hnames f hf).1]
        exact (hnames f hf).2
      · simp only [LoadLimits.default] at hle
        omega
    rw [hloaded] at hall hiff
    rw [deserializeModule, hload, ← hiff rfl hbytes hcount hloadable hdistinct hbudget]
    constructor
    · intro heq
      cases heq
      rfl
    · intro hr
      rw [hr, hall hr]
  · intro alloc m hm
    obtain ⟨m', r, hload, hall, -⟩ := deserializeModule_image alloc LoadLimits.default h hmem
    rw [deserializeModule, hload] at hm
    cases hm
    rw [hall rfl, serializeModule_loaded, h]

def constantFunction (localCount : Nat) : ModuleFunction where
  name := [0x66]
  ir :=
    { instructions := [{ opcode := .constantI64, destination := 0, immediate := 7 },
        { opcode := .returnI64, left := 0 }]
      registerCount := 1
      argumentCount := 0
      localCount := localCount }

theorem constantFunction_inMemory (host : HostMemory) {localCount : Nat}
    (h : localCount < 2 ^ 16) : InMemory host (constantFunction localCount).ir := by
  refine ⟨by simp [constantFunction], by simp [constantFunction], h, ?_, ?_⟩
  · intro i hi
    simp only [constantFunction, List.mem_cons, List.not_mem_nil, or_false] at hi
    rcases hi with rfl | rfl
    · exact ⟨by decide, by decide, by decide, by decide, by decide⟩
    · exact ⟨by decide, by decide, by decide, by decide, by decide⟩
  · intro i hi
    simp only [constantFunction, List.mem_cons, List.not_mem_nil, or_false] at hi
    rcases hi with rfl | rfl <;> rfl

/-- A module of one function makes the round trip. -/
theorem constant_module_returns :
    ∃ image, serializeModule [constantFunction 2] = .ok image ∧
      deserializeModule (fun _ => none) .unlimited image = some ([constantFunction 2], none) := by
  obtain ⟨image, h⟩ : ∃ image, serializeModule [constantFunction 2] = .ok image := ⟨_, rfl⟩
  have hlength : image.length ≤ LoadLimits.default.maxImageBytes := by
    cases h
    decide +kernel
  refine ⟨image, h, ((module_round_trip_iff _ h ?_).1 ?_ ?_ hlength ?_ ?_).mpr ?_⟩
  · intro f hf
    cases List.mem_singleton.mp hf
    exact constantFunction_inMemory _ (by decide)
  all_goals decide +kernel

/-- With 65 locals the function is serialized, and its image is rejected. -/
theorem many_locals_do_not_return :
    (irVerify (constantFunction 65).ir).status = .ok ∧
    InMemory (fun _ => none) (constantFunction 65).ir ∧
    ∃ image, serializeModule [constantFunction 65] = .ok image ∧
      image.length ≤ LoadLimits.default.maxImageBytes ∧
      deserializeModule (fun _ => none) .unlimited image =
        some ([], some ⟨.invalidRegister, 0, "AOT register/local limit exceeded"⟩) := by
  refine ⟨by decide +kernel, constantFunction_inMemory _ (by decide), _, rfl, ?_, ?_⟩
  · decide +kernel
  · decide +kernel

end TurboJS.AOT
