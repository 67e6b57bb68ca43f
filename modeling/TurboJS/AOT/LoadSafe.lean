import TurboJS.AOT.RoundTrip

namespace TurboJS.AOT
open IR Foundation

/-! The loader on bytes of any origin. -/

section

variable {host : HostMemory} {data : List UInt8}

theorem readInstruction_inside (host : HostMemory) {q : Nat} (hq : q + instructionSize ≤ data.length) :
    ∃ number i, readInstruction host data q = some (number, i) ∧ getLE 2 data q = some number ∧
      i.opcode = (opcodes[number]?).getD .nop := by
  simp only [instructionSize] at hq
  obtain ⟨number, hnumber⟩ := getLE_isSome 2 data q (by omega)
  obtain ⟨destination, hdestination⟩ := getLE_isSome 2 data (q + 2) (by omega)
  obtain ⟨left, hleft⟩ := getLE_isSome 2 data (q + 4) (by omega)
  obtain ⟨right, hright⟩ := getLE_isSome 2 data (q + 6) (by omega)
  obtain ⟨immediate, himmediate⟩ := getLE_isSome 8 data (q + 8) (by omega)
  obtain ⟨target, htarget⟩ := getLE_isSome 4 data (q + 16) (by omega)
  obtain ⟨bytecodeOffset, hoffset⟩ := getLE_isSome 4 data (q + 20) (by omega)
  simp only [readInstruction, hnumber, hdestination, hleft, hright, himmediate, htarget, hoffset,
    Option.bind_eq_bind, Option.bind_some, Option.pure_def]
  exact ⟨number, _, rfl, rfl, rfl⟩

theorem readInstructions_inside (host : HostMemory) (emits : Nat → Bool) {count k : Nat}
    (hsize : headerSize + (k + count) * instructionSize ≤ data.length) :
    ∃ r, readInstructions host emits data count k = some r ∧
      (∀ d, r = .error d → d.status ≠ .ok) ∧
      ∀ records, r = .ok records → records.length = count ∧
        ∀ j number i, records[j]? = some (number, i) →
          getLE 2 data (headerSize + (k + j) * instructionSize) = some number ∧
          i.opcode = (opcodes[number]?).getD .nop := by
  induction count generalizing k with
  | zero =>
    refine ⟨.ok [], rfl, ?_, ?_⟩
    · intro d h
      cases h
    · intro records h
      cases h
      exact ⟨rfl, by simp⟩
  | succ count ih =>
    have hnext : headerSize + (k + 1 + count) * instructionSize ≤ data.length := by
      rw [Nat.add_assoc, Nat.add_comm 1]
      exact hsize
    have hq : headerSize + k * instructionSize + instructionSize ≤ data.length := by
      simp only [headerSize, instructionSize] at *
      omega
    obtain ⟨number, i, hrecord, hnumber, hopcode⟩ := readInstruction_inside host hq
    obtain ⟨r, hr, herror, hok⟩ := ih hnext
    simp only [readInstructions, hrecord, hr, Option.bind_eq_bind, Option.bind_some,
      Option.pure_def]
    split
    · refine ⟨_, rfl, ?_, ?_⟩
      · intro d h
        cases h
        simp
      · intro records h
        cases h
    cases r with
    | error d =>
      refine ⟨_, rfl, ?_, ?_⟩
      · intro d' h
        cases h
        exact herror d rfl
      · intro records h
        cases h
    | ok records =>
      obtain ⟨hlength, hrecords⟩ := hok records rfl
      refine ⟨_, rfl, ?_, ?_⟩
      · intro d h
        cases h
      · intro records' h
        cases h
        refine ⟨by rw [List.length_cons, hlength], ?_⟩
        intro j number' i' hj
        cases j with
        | zero =>
          cases hj
          exact ⟨hnumber, hopcode⟩
        | succ j =>
          have := hrecords j number' i' hj
          rwa [Nat.add_assoc, Nat.add_comm 1] at this

theorem verifyNumbers_ok {f : Function} {numbers : List Nat}
    (h : (verifyNumbers f numbers).status = .ok) :
    (irVerify f).status = .ok ∧ ∀ n ∈ numbers, ∃ op, opcodes[n]? = some op := by
  unfold verifyNumbers at h
  cases hfind : numbers.findIdx? (fun n => (opcodes[n]?).isNone) with
  | none =>
    rw [hfind] at h
    refine ⟨h, ?_⟩
    intro n hn
    have := List.findIdx?_eq_none_iff.mp hfind n hn
    exact Option.isSome_iff_exists.mp (by simpa using this)
  | some unknown =>
    exfalso
    simp only [hfind] at h
    split at h
    · cases h
    · split at h
      · cases h
      · contradiction

def FromRecords (data : List UInt8) (f : Function) : Prop :=
  getLE 4 data 8 = some f.instructions.length ∧
    ∀ k i, f.instructions[k]? = some i →
      ∃ number, getLE 2 data (headerSize + k * instructionSize) = some number ∧
        opcodes[number]? = some i.opcode

structure GoodLoad (data : List UInt8) (r : Except Diagnostic Function) : Prop where
  error : ∀ d, r = .error d → d.status ≠ .ok
  verified : ∀ f, r = .ok f → (irVerify f).status = .ok
  records : ∀ f, r = .ok f → FromRecords data f

theorem GoodLoad.of_error {d : Diagnostic} (hd : d.status ≠ .ok) :
    GoodLoad data (.error d) := by
  refine ⟨?_, ?_, ?_⟩
  · intro d' h
    cases h
    exact hd
  · intro f h
    cases h
  · intro f h
    cases h

def Reads (data : List UInt8) (result : Option (Except Diagnostic Function)) : Prop :=
  ∃ r, result = some r ∧ GoodLoad data r

theorem deserializeIR_inside (host : HostMemory) (emits : Nat → Bool) {size : Nat}
    (hsize : size ≤ data.length) :
    ∃ r, deserializeIR host emits data size = some r ∧ GoodLoad data r := by
  change Reads data _
  have hfailed : ∀ status message, status ≠ Status.ok →
      Reads data (some (.error ⟨status, 0, message⟩)) :=
    fun status message h => ⟨_, rfl, .of_error h⟩
  unfold deserializeIR
  simp only [Option.bind_eq_bind, Option.pure_def]
  by_cases hheader : size < headerSize
  · rw [if_pos hheader]
    exact hfailed _ _ (by simp)
  rw [if_neg hheader]
  simp only [headerSize] at hheader
  obtain ⟨magic, hmagic⟩ := getLE_isSome 4 data 0 (by omega)
  obtain ⟨version, hversion⟩ := getLE_isSome 2 data 4 (by omega)
  obtain ⟨hs, hhs⟩ := getLE_isSome 2 data 6 (by omega)
  obtain ⟨count, hcount⟩ := getLE_isSome 4 data 8 (by omega)
  obtain ⟨is, his⟩ := getLE_isSome 2 data 18 (by omega)
  obtain ⟨declared, hdeclared⟩ := getLE_isSome 8 data 24 (by omega)
  obtain ⟨stored, hstored⟩ := getLE_isSome 4 data 20 (by omega)
  obtain ⟨argumentCount, hargs⟩ := getLE_isSome 2 data 14 (by omega)
  obtain ⟨registerCount, hregs⟩ := getLE_isSome 2 data 12 (by omega)
  obtain ⟨localCount, hlocals⟩ := getLE_isSome 2 data 16 (by omega)
  have hbody : bytesAt data headerSize (size - headerSize) = _ :=
    bytesAt_eq (by simp only [headerSize]; omega)
  simp only [hmagic, hversion, hhs, hcount, his, hdeclared, hstored, hargs, hregs, hlocals, hbody,
    Option.bind_some]
  apply iteInduction (fun _ => hfailed _ _ (by simp)) fun _ => ?_
  apply iteInduction (fun _ => hfailed _ _ (by simp)) fun _ => ?_
  apply iteInduction (fun _ => hfailed _ _ (by simp)) fun _ => ?_
  by_cases hexpected : headerSize + count * instructionSize = size
  swap
  · rw [if_pos hexpected]
    exact hfailed _ _ (by simp)
  rw [if_neg (not_not_intro hexpected)]
  apply iteInduction (fun _ => hfailed _ _ (by simp)) fun _ => ?_
  apply iteInduction (fun _ => hfailed _ _ (by simp)) fun _ => ?_
  obtain ⟨r, hr, herror, hok⟩ := readInstructions_inside host emits (k := 0)
    (by rw [Nat.zero_add, hexpected]; exact hsize)
  rw [hr, Option.bind_some]
  cases r with
  | error d => exact ⟨_, rfl, .of_error (herror d rfl)⟩
  | ok records =>
    obtain ⟨hlength, hrecords⟩ := hok records rfl
    simp only
    split
    · rename_i hfail
      exact ⟨_, rfl, .of_error hfail⟩
    rename_i hverify
    obtain ⟨hverified, hknown⟩ := verifyNumbers_ok (not_not.mp hverify)
    refine ⟨_, rfl, ?_, ?_, ?_⟩
    · intro d h
      cases h
    · intro f h
      cases h
      exact hverified
    · intro f h
      cases h
      refine ⟨by rw [List.length_map, hlength, hcount], ?_⟩
      intro k i hk
      rw [List.getElem?_map, Option.map_eq_some_iff] at hk
      obtain ⟨⟨number, i'⟩, hk, rfl⟩ := hk
      obtain ⟨hnumber, hopcode⟩ := hrecords k number i' hk
      rw [Nat.zero_add] at hnumber
      obtain ⟨op, hop⟩ := hknown number
        (List.mem_map.mpr ⟨_, List.mem_of_getElem? hk, rfl⟩)
      refine ⟨number, hnumber, ?_⟩
      rw [hopcode, hop]
      rfl

structure LoadedSoFar (limits : LoadLimits) (data : List UInt8) (done : Module) (total : Nat) :
    Prop where
  name_le : ∀ f ∈ done, f.name.length ≤ limits.maxNameBytes
  instructions_le : ∀ f ∈ done, f.ir.instructions.length ≤ limits.maxInstructionsPerFunction
  verified : ∀ f ∈ done, (irVerify f.ir).status = .ok
  total_eq : total = instructionCount done
  total_le : total ≤ limits.maxTotalInstructions
  nodup : (done.map (·.name)).Nodup
  records : ∀ j f, done[j]? = some f →
    ∃ io, getLE 8 data (moduleHeader + j * moduleEntry + 8) = some io ∧
      FromRecords (data.drop io) f.ir

theorem LoadedSoFar.start (limits : LoadLimits) (data : List UInt8) :
    LoadedSoFar limits data [] 0 := by
  constructor <;> simp [instructionCount]

theorem LoadedSoFar.add {limits : LoadLimits} {done : Module} {total io : Nat}
    (h : LoadedSoFar limits data done total) {f : ModuleFunction}
    (hname : f.name.length ≤ limits.maxNameBytes)
    (hinstructions : f.ir.instructions.length ≤ limits.maxInstructionsPerFunction)
    (hbudget : f.ir.instructions.length ≤ limits.maxTotalInstructions - total)
    (hverified : (irVerify f.ir).status = .ok) (hfresh : f.name ∉ done.map (·.name))
    (hio : getLE 8 data (moduleHeader + done.length * moduleEntry + 8) = some io)
    (hrecords : FromRecords (data.drop io) f.ir) :
    LoadedSoFar limits data (done ++ [f]) (total + f.ir.instructions.length) := by
  have hle := h.total_le
  constructor
  · simpa [or_imp, forall_and] using ⟨h.name_le, hname⟩
  · simpa [or_imp, forall_and] using ⟨h.instructions_le, hinstructions⟩
  · simpa [or_imp, forall_and] using ⟨h.verified, hverified⟩
  · rw [h.total_eq]
    simp [instructionCount]
  · omega
  · rw [List.map_append, List.nodup_append]
    refine ⟨h.nodup, by simp, ?_⟩
    intro a ha b hb hab
    rw [hab, List.mem_singleton.mp hb] at ha
    exact hfresh ha
  · intro j g hj
    rcases Nat.lt_trichotomy j done.length with hlt | rfl | hgt
    · rw [List.getElem?_append_left hlt] at hj
      exact h.records j g hj
    · rw [List.getElem?_append_right (Nat.le_refl _), Nat.sub_self] at hj
      cases hj
      exact ⟨io, hio, hrecords⟩
    · rw [List.getElem?_eq_none (by simp; omega)] at hj
      cases hj

structure GoodRound (limits : LoadLimits) (data : List UInt8) (done rest : Module)
    (m : Module) (r : Except Diagnostic Nat) : Prop where
  error : ∀ d, r = .error d → d.status ≠ .ok
  ok : ∀ t, r = .ok t → ∃ f, m = done ++ f :: rest ∧ LoadedSoFar limits data (done ++ [f]) t

theorem GoodRound.of_error {limits : LoadLimits} {done rest m : Module} {d : Diagnostic}
    (hd : d.status ≠ .ok) : GoodRound limits data done rest m (.error d) := by
  refine ⟨?_, ?_⟩
  · intro d' h
    cases h
    exact hd
  · intro t h
    cases h

/-- A round of the loop reads inside of the data and adds a function within the limits. -/
theorem loadFunction_inside (host : HostMemory) (alloc : Allocator) {limits : LoadLimits}
    {done : Module} (rest : Module) (blank : ModuleFunction) {total : Nat}
    (hsize : moduleHeader + (done.length + 1) * moduleEntry ≤ data.length)
    (h : LoadedSoFar limits data done total) :
    ∃ m r, loadFunction host alloc limits data done.length (done ++ blank :: rest) total =
        some (m, r) ∧ GoodRound limits data done rest m r := by
  have hentry : moduleHeader + done.length * moduleEntry + 24 ≤ data.length := by
    simp only [moduleHeader, moduleEntry] at *
    omega
  obtain ⟨no, hno⟩ := getLE_isSome 4 data (moduleHeader + done.length * moduleEntry) (by omega)
  obtain ⟨nl, hnl⟩ := getLE_isSome 4 data (moduleHeader + done.length * moduleEntry + 4)
    (by omega)
  obtain ⟨io, hio⟩ := getLE_isSome 8 data (moduleHeader + done.length * moduleEntry + 8)
    (by omega)
  obtain ⟨is, his⟩ := getLE_isSome 8 data (moduleHeader + done.length * moduleEntry + 16)
    (by omega)
  unfold loadFunction
  simp only [hno, hnl, hio, his, Option.bind_eq_bind, Option.bind_some, Option.pure_def]
  split
  · exact ⟨_, _, rfl, .of_error (by simp)⟩
  rename_i hbounds
  have hname : bytesAt data no nl = _ := bytesAt_eq (by omega)
  have hnameLength : ((data.drop no).take nl).length = nl := by
    rw [List.length_take, List.length_drop]
    omega
  generalize (data.drop no).take nl = name at *
  simp only [hname, Option.bind_some]
  split
  · exact ⟨_, _, rfl, .of_error (by simp)⟩
  split
  · exact ⟨_, _, rfl, .of_error (by simp)⟩
  have htake : ((done ++ blank :: rest).set done.length { name := name }).take done.length =
      done := by
    rw [List.take_set_of_le (Nat.le_refl _), List.take_left]
  have hset : ((done ++ blank :: rest).set done.length { name := name }) =
      done ++ { name := name } :: rest := by
    rw [List.set_append_right _ _ (Nat.le_refl _), Nat.sub_self, List.set_cons_zero]
  rw [htake, hset]
  split
  · exact ⟨_, _, rfl, .of_error (by simp)⟩
  rename_i hfresh
  have hinside : is ≤ (data.drop io).length := by
    rw [List.length_drop]
    omega
  obtain ⟨r, hr, hgood⟩ := deserializeIR_inside host (alloc.emit done.length) hinside
  rw [hr, Option.bind_some]
  cases r with
  | error d => exact ⟨_, _, rfl, .of_error (hgood.error d rfl)⟩
  | ok ir =>
    simp only
    split
    · exact ⟨_, _, rfl, .of_error (by simp)⟩
    rename_i hbudget
    refine ⟨_, _, rfl, ?_, ?_⟩
    · intro d hd
      cases hd
    · intro t ht
      cases ht
      refine ⟨⟨name, ir⟩, ?_, ?_⟩
      · rw [List.set_append_right _ _ (Nat.le_refl _), Nat.sub_self, List.set_cons_zero]
      · refine h.add ?_ ?_ ?_ (hgood.verified ir rfl) hfresh hio (hgood.records ir rfl)
        · simp only
          omega
        · simp only
          omega
        · simp only
          omega

theorem loadFrom_inside (host : HostMemory) (alloc : Allocator) {limits : LoadLimits}
    {done : Module} {total count : Nat}
    (hsize : moduleHeader + (done.length + count) * moduleEntry ≤ data.length)
    (h : LoadedSoFar limits data done total) :
    ∃ m r, loadFrom host alloc limits data count done.length
        (done ++ List.replicate count ({} : ModuleFunction)) total = some (m, r) ∧
      (∀ d, r = some d → d.status ≠ .ok) ∧
      (r = none → m.length = done.length + count ∧ ∃ t, LoadedSoFar limits data m t) := by
  induction count generalizing done total with
  | zero =>
    refine ⟨done, none, ?_, ?_, ?_⟩
    · simp [loadFrom]
    · intro d hd
      cases hd
    · exact fun _ => ⟨rfl, total, h⟩
  | succ count ih =>
    have hround : moduleHeader + (done.length + 1) * moduleEntry ≤ data.length := by
      simp only [moduleHeader, moduleEntry] at *
      omega
    obtain ⟨m, r, hload, herror, hok⟩ := loadFunction_inside host alloc
      (List.replicate count ({} : ModuleFunction)) {} hround h
    rw [loadFrom, List.replicate_succ]
    simp only [hload, Option.bind_eq_bind, Option.bind_some, Option.pure_def]
    cases r with
    | error d =>
      refine ⟨_, _, rfl, ?_, ?_⟩
      · intro d' hd
        cases hd
        exact herror d rfl
      · intro hd
        cases hd
    | ok t =>
      obtain ⟨f, rfl, hadded⟩ := hok t rfl
      have hlength : (done ++ [f]).length = done.length + 1 := by simp
      have hsize' : moduleHeader + ((done ++ [f]).length + count) * moduleEntry ≤
          data.length := by
        rw [hlength, Nat.add_assoc, Nat.add_comm 1]
        exact hsize
      obtain ⟨m, r, hloop, herror', hok'⟩ := ih hsize' hadded
      rw [hlength, List.append_assoc] at hloop
      refine ⟨m, r, hloop, herror', ?_⟩
      intro hr
      obtain ⟨hm, t', ht'⟩ := hok' hr
      exact ⟨by omega, t', ht'⟩

structure GoodModule (limits : LoadLimits) (data : List UInt8) (m : Module)
    (r : Option Diagnostic) : Prop where
  error : ∀ d, r = some d → d.status ≠ .ok ∧ m = []
  count : r = none → getLE 4 data 8 = some m.length
  count_le : r = none → m.length ≤ limits.maxFunctionCount
  loaded : r = none → ∃ total, LoadedSoFar limits data m total

theorem GoodModule.of_error {limits : LoadLimits} {d : Diagnostic} (hd : d.status ≠ .ok) :
    GoodModule limits data [] (some d) := by
  refine ⟨?_, ?_, ?_, ?_⟩
  · intro d' h
    cases h
    exact ⟨hd, rfl⟩
  all_goals
    intro h
    cases h

def Loads (limits : LoadLimits) (data : List UInt8) (result : Option (Module × Option Diagnostic)) :
    Prop := ∃ m r, result = some (m, r) ∧ GoodModule limits data m r

theorem deserializeModule_inside (host : HostMemory) (alloc : Allocator) (limits : LoadLimits)
    (data : List UInt8) :
    ∃ m r, deserializeModuleWithLimits host alloc limits data = some (m, r) ∧
      GoodModule limits data m r := by
  change Loads limits data _
  have hfailed : ∀ d : Diagnostic, d.status ≠ .ok → Loads limits data (some ([], some d)) :=
    fun d hd => ⟨_, _, rfl, .of_error hd⟩
  by_cases hheader : data.length < moduleHeader
  · unfold deserializeModuleWithLimits
    simp only [hheader, if_true]
    split
    · exact hfailed _ (by simp)
    split
    · exact hfailed _ (by simp)
    · exact hfailed _ (by simp)
  have hlength : 32 ≤ data.length := Nat.not_lt.mp hheader
  obtain ⟨magic, hmagic⟩ := getLE_isSome 4 data 0 (by omega)
  obtain ⟨version, hversion⟩ := getLE_isSome 2 data 4 (by omega)
  obtain ⟨hs, hhs⟩ := getLE_isSome 2 data 6 (by omega)
  obtain ⟨declared, hdeclared⟩ := getLE_isSome 8 data 16 (by omega)
  obtain ⟨n, hn⟩ := getLE_isSome 4 data 8 (by omega)
  obtain ⟨stored, hstored⟩ := getLE_isSome 4 data 12 (by omega)
  have hbody : bytesAt data moduleHeader (data.length - moduleHeader) = _ :=
    bytesAt_eq (by simp only [moduleHeader]; omega)
  simp only [deserializeModuleWithLimits, hheader, hmagic, hversion, hhs, hdeclared, hn, hstored,
    hbody, Option.bind_eq_bind, Option.bind_some, Option.pure_def, if_false]
  apply iteInduction (fun _ => hfailed _ (by simp)) fun _ => ?_
  apply iteInduction (fun _ => hfailed _ (by simp)) fun _ => ?_
  apply iteInduction (fun _ => hfailed _ (by simp)) fun _ => ?_
  apply iteInduction (fun _ => hfailed _ (by simp)) fun _ => ?_
  apply iteInduction (fun _ => hfailed _ (by simp)) fun _ => ?_
  apply iteInduction (fun _ => hfailed _ (by simp)) fun _ => ?_
  apply iteInduction (fun _ => hfailed _ (by simp)) fun htable => ?_
  apply iteInduction (fun _ => hfailed _ (by simp)) fun _ => ?_
  apply iteInduction (fun _ => hfailed _ (by simp)) fun _ => ?_
  have hsize : moduleHeader + (([] : Module).length + n) * moduleEntry ≤ data.length := by
    have hroom : n ≤ (data.length - moduleHeader) / moduleEntry := by omega
    rw [Nat.le_div_iff_mul_le (by decide)] at hroom
    rw [List.length_nil, Nat.zero_add]
    simp only [moduleHeader] at hroom ⊢
    omega
  obtain ⟨m, r, hload, herror, hok⟩ := loadFrom_inside host alloc hsize
    (LoadedSoFar.start limits data)
  rw [List.nil_append, List.length_nil] at hload
  rw [hload, Option.bind_some]
  cases r with
  | some d => exact hfailed _ (herror d rfl)
  | none =>
    obtain ⟨hcount, hgood⟩ := hok rfl
    rw [List.length_nil, Nat.zero_add] at hcount
    refine ⟨_, _, rfl, ?_, ?_, ?_, fun _ => hgood⟩
    · intro d h
      cases h
    · intro _
      rw [hn, hcount]
    · intro _
      omega

end

/-- The opcodes whose immediate is the address of something in memory: the verifier and the
interpreter follow that of a native call, the tagged interpreter that of a callable constant. -/
def namesAddress (op : Opcode) : Bool :=
  op = .callNativeI64 || op = .callNativeF64 || op = .valueCallableConstant

structure LoadSafe (host : HostMemory) (alloc : Allocator) (limits : LoadLimits)
    (data : List UInt8) : Prop where
  inside : deserializeModuleWithLimits host alloc limits data ≠ none
  failed : ∀ m d, deserializeModuleWithLimits host alloc limits data = some (m, some d) →
    d.status ≠ .ok ∧ m = []
  limited : ∀ m, deserializeModuleWithLimits host alloc limits data = some (m, none) →
    m.length ≤ limits.maxFunctionCount ∧ instructionCount m ≤ limits.maxTotalInstructions ∧
      ∀ f ∈ m, f.name.length ≤ limits.maxNameBytes ∧
        f.ir.instructions.length ≤ limits.maxInstructionsPerFunction
  distinct : ∀ m, deserializeModuleWithLimits host alloc limits data = some (m, none) →
    (m.map (·.name)).Nodup
  verified : ∀ m, deserializeModuleWithLimits host alloc limits data = some (m, none) →
    ∀ f ∈ m, (irVerify f.ir).status = .ok
  noAddress : ∀ m, deserializeModuleWithLimits host alloc limits data = some (m, none) →
    ∀ f ∈ m, ∀ i ∈ f.ir.instructions, namesAddress i.opcode = false

def NamesNoAddress (data : List UInt8) : Prop :=
  ∀ n i io count k number op, getLE 4 data 8 = some n → i < n →
    getLE 8 data (moduleHeader + i * moduleEntry + 8) = some io →
    getLE 4 (data.drop io) 8 = some count → k < count →
    getLE 2 (data.drop io) (headerSize + k * instructionSize) = some number →
    opcodes[number]? = some op → namesAddress op = false

/-- The loader is safe on any bytes, except that it accepts records that name addresses. -/
theorem load_safe_iff (host : HostMemory) (alloc : Allocator) (limits : LoadLimits)
    (data : List UInt8) :
    LoadSafe host alloc limits data ↔
      ∀ m, deserializeModuleWithLimits host alloc limits data = some (m, none) →
        NamesNoAddress data := by
  obtain ⟨m, r, hload, hgood⟩ := deserializeModule_inside host alloc limits data
  constructor
  · intro hsafe m' hm n i io count k number op hn hi hio hcount hk hnumber hop
    rw [hload] at hm
    cases hm
    obtain ⟨total, hloaded⟩ := hgood.loaded rfl
    have hlength := hgood.count rfl
    rw [hn] at hlength
    cases hlength
    have hf : m[i]? = some m[i] := List.getElem?_eq_getElem hi
    obtain ⟨io', hio', hcount', hrecords⟩ := hloaded.records i _ hf
    rw [hio] at hio'
    cases hio'
    rw [hcount] at hcount'
    cases hcount'
    have hinstruction := List.getElem?_eq_getElem hk
    obtain ⟨number', hnumber', hop'⟩ := hrecords k _ hinstruction
    rw [hnumber] at hnumber'
    cases hnumber'
    rw [hop] at hop'
    cases hop'
    exact hsafe.noAddress m hload _ (List.mem_of_getElem? hf) _ (List.mem_of_getElem? hinstruction)
  · intro h
    have hdone : ∀ m', deserializeModuleWithLimits host alloc limits data = some (m', none) →
        r = none ∧ m = m' := by
      intro m' hm
      rw [hload] at hm
      cases hm
      exact ⟨rfl, rfl⟩
    refine ⟨by simp [hload], ?_, ?_, ?_, ?_, ?_⟩
    · intro m' d hm
      rw [hload] at hm
      cases hm
      exact hgood.error d rfl
    · intro m' hm
      obtain ⟨rfl, rfl⟩ := hdone m' hm
      obtain ⟨total, hloaded⟩ := hgood.loaded rfl
      refine ⟨hgood.count_le rfl, ?_,
        fun f hf => ⟨hloaded.name_le f hf, hloaded.instructions_le f hf⟩⟩
      rw [← hloaded.total_eq]
      exact hloaded.total_le
    · intro m' hm
      obtain ⟨rfl, rfl⟩ := hdone m' hm
      obtain ⟨total, hloaded⟩ := hgood.loaded rfl
      exact hloaded.nodup
    · intro m' hm
      obtain ⟨rfl, rfl⟩ := hdone m' hm
      obtain ⟨total, hloaded⟩ := hgood.loaded rfl
      exact hloaded.verified
    · intro m' hm f hf i hi
      obtain ⟨rfl, rfl⟩ := hdone m' hm
      obtain ⟨total, hloaded⟩ := hgood.loaded rfl
      obtain ⟨j, hj, rfl⟩ := List.getElem_of_mem hf
      obtain ⟨k, hk, rfl⟩ := List.getElem_of_mem hi
      obtain ⟨io, hio, hcount, hrecords⟩ := hloaded.records j _ (List.getElem?_eq_getElem hj)
      obtain ⟨number, hnumber, hop⟩ := hrecords k _ (List.getElem?_eq_getElem hk)
      exact h m hm _ j io _ k number _ (hgood.count rfl) hj hio hcount hk hnumber hop

def callingFunction (host : HostMemory) : ModuleFunction where
  name := [0x66]
  ir :=
    { instructions :=
        [{ opcode := .callNativeI64, destination := 0, immediate := 4096, site := host 4096 },
          { opcode := .returnI64, left := 0 }]
      registerCount := 1
      argumentCount := 0
      localCount := 0 }

def memoryAt4096 : HostMemory := fun address =>
  if address = 4096 then some ⟨none, 0, 0, .none, false, 0, 0, 0, Vector.replicate 4 0⟩ else none

/-- An image with a native call is loaded, and the loaded call names the address of the image. -/
theorem native_call_is_loaded :
    ∃ image, serializeModule [callingFunction memoryAt4096] = .ok image ∧
      deserializeModuleWithLimits memoryAt4096 .unlimited .default image =
        some ([callingFunction memoryAt4096], none) ∧
      ¬ LoadSafe memoryAt4096 .unlimited .default image := by
  obtain ⟨image, himage⟩ : ∃ image, serializeModule [callingFunction memoryAt4096] = .ok image :=
    ⟨_, rfl⟩
  have hload : deserializeModuleWithLimits memoryAt4096 .unlimited .default image =
      some ([callingFunction memoryAt4096], none) := by
    cases himage
    decide +kernel
  refine ⟨image, himage, hload, ?_⟩
  intro hsafe
  have hcall := hsafe.noAddress _ hload _ List.mem_cons_self _ List.mem_cons_self
  cases hcall

end TurboJS.AOT
