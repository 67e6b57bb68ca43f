import TurboJS.AOT.LoadSafe

namespace TurboJS.AOT
open IR Foundation

/-! What one changed byte does to the image of a module. -/

structure ModuleInfo where
  version : Nat
  functionCount : Nat
  imageSize : Nat
  checksum : Nat
  deriving DecidableEq, Repr

/-- `TurboJS_AOTInspectModule`; `none` if a byte outside of the data is read. -/
def inspectModule (data : List UInt8) : Option (Except Diagnostic ModuleInfo) := do
  let size := data.length
  let invalid (message : String) : Except Diagnostic ModuleInfo :=
    .error ⟨.invalidArgument, 0, message⟩
  if size < moduleHeader then return invalid "invalid TJM module magic"
  if (← getLE 4 data 0) ≠ tjmMagic then return invalid "invalid TJM module magic"
  if (← getLE 2 data 4) ≠ moduleVersion then return invalid "invalid TJM module header"
  if (← getLE 2 data 6) ≠ moduleHeader then return invalid "invalid TJM module header"
  if (← getLE 8 data 16) ≠ size then return invalid "invalid TJM module header"
  let functionCount ← getLE 4 data 8
  if functionCount = 0 ∨ functionCount > maxFunctions ∨
      moduleHeader + functionCount * moduleEntry > size then
    return invalid "invalid TJM function table"
  let stored ← getLE 4 data 12
  let body ← bytesAt data moduleHeader (size - moduleHeader)
  if stored ≠ (checksum body).toNat then return invalid "TJM checksum mismatch"
  return .ok ⟨moduleVersion, functionCount, size, stored⟩

/-- What the loader checks of a header before it reads the table of `n` functions. -/
structure HeaderAccepted (limits : LoadLimits) (data : List UInt8) (n : Nat) : Prop
    extends ImageHeader data n where
  limited : limits.maxImageBytes ≠ 0 ∧ limits.maxFunctionCount ≠ 0 ∧ limits.maxNameBytes ≠ 0 ∧
    limits.maxTotalInstructions ≠ 0 ∧ limits.maxInstructionsPerFunction ≠ 0
  size_le : data.length ≤ limits.maxImageBytes
  pos : 0 < n
  count_le : n ≤ maxFunctions ∧ n ≤ limits.maxFunctionCount
  room : n ≤ (data.length - moduleHeader) / moduleEntry

section

variable {host : HostMemory} {alloc : Allocator} {limits : LoadLimits} {data : List UInt8}
  {m : Module} {n : Nat}

theorem check_passed {c : Prop} [Decidable c] {broken : Module} {d : Diagnostic}
    {rest : Option (Module × Option Diagnostic)}
    (h : (if c then some (broken, some d) else rest) = some (m, none)) :
    ¬c ∧ rest = some (m, none) := by
  by_cases hc : c
  · rw [if_pos hc] at h
    cases h
  · rw [if_neg hc] at h
    exact ⟨hc, h⟩

/-- The loader accepts an image if its header and every function pass. -/
theorem deserializeModule_accepts_iff :
    deserializeModuleWithLimits host alloc limits data = some (m, none) ↔
      ∃ n, HeaderAccepted limits data n ∧ alloc.table = true ∧
        loadFrom host alloc limits data n 0 (List.replicate n {}) 0 = some (m, none) := by
  constructor
  · intro h
    by_cases hheader : data.length < moduleHeader
    · unfold deserializeModuleWithLimits at h
      simp only [hheader, if_true] at h
      split at h <;> first | cases h | (split at h <;> cases h)
    have hlength : 32 ≤ data.length := Nat.not_lt.mp hheader
    obtain ⟨magic, hmagic⟩ := getLE_isSome 4 data 0 (by omega)
    obtain ⟨version, hversion⟩ := getLE_isSome 2 data 4 (by omega)
    obtain ⟨hs, hhs⟩ := getLE_isSome 2 data 6 (by omega)
    obtain ⟨declared, hdeclared⟩ := getLE_isSome 8 data 16 (by omega)
    obtain ⟨n, hn⟩ := getLE_isSome 4 data 8 (by omega)
    obtain ⟨stored, hstored⟩ := getLE_isSome 4 data 12 (by omega)
    have hbody : bytesAt data moduleHeader (data.length - moduleHeader) =
        some (data.drop moduleHeader) := by
      rw [bytesAt_eq (by simp only [moduleHeader]; omega), ← List.length_drop, List.take_length]
    simp only [deserializeModuleWithLimits, hheader, hmagic, hversion, hhs, hdeclared, hn,
      hstored, hbody, Option.bind_eq_bind, Option.bind_some, Option.pure_def, if_false] at h
    obtain ⟨hlimits, h⟩ := check_passed h
    obtain ⟨hbytes, h⟩ := check_passed h
    obtain ⟨hmagic', h⟩ := check_passed h
    obtain ⟨hversion', h⟩ := check_passed h
    obtain ⟨hhs', h⟩ := check_passed h
    obtain ⟨hdeclared', h⟩ := check_passed h
    obtain ⟨htable, h⟩ := check_passed h
    obtain ⟨hsum, h⟩ := check_passed h
    obtain ⟨halloc, h⟩ := check_passed h
    cases hload : loadFrom host alloc limits data n 0 (List.replicate n {}) 0 with
    | none =>
      rw [hload] at h
      cases h
    | some r =>
      obtain ⟨m', r⟩ := r
      rw [hload] at h
      cases r with
      | some d => cases h
      | none =>
        cases h
        refine ⟨n, ⟨⟨hlength, ?_, ?_, ?_, hn, ?_, ?_⟩, by simpa only [not_or] using hlimits,
          by omega, by omega, by omega, by omega⟩, by simpa using halloc, hload⟩
        · rw [hmagic, not_not.mp hmagic']
        · rw [hversion, not_not.mp hversion']
        · rw [hhs, not_not.mp hhs']
        · rw [hstored, not_not.mp hsum]
        · rw [hdeclared, not_not.mp hdeclared']
  · rintro ⟨n, ⟨⟨hheader, hmagic, hversion, hhs, hn, hsum, hdeclared⟩, hlimits, hbytes, hpos, hle,
      hroom⟩, halloc, hload⟩
    have hbody : bytesAt data moduleHeader (data.length - moduleHeader) =
        some (data.drop moduleHeader) := by
      rw [bytesAt_eq (by omega), ← List.length_drop, List.take_length]
    simp only [deserializeModuleWithLimits, hmagic, hversion, hhs, hdeclared, hn, hsum, hbody,
      hload, halloc, Option.bind_eq_bind, Option.bind_some, Option.pure_def]
    rw [if_neg (by simpa only [not_or] using hlimits), if_neg (by omega), if_neg (by omega),
      if_neg (by simp), if_neg (by simp), if_neg (by simp), if_neg (by simp), if_neg (by omega),
      if_neg (by simp)]
    simp

theorem HeaderAccepted.inspect (h : HeaderAccepted limits data n) :
    inspectModule data =
      some (.ok ⟨moduleVersion, n, data.length, (checksum (data.drop moduleHeader)).toNat⟩) := by
  obtain ⟨⟨hheader, hmagic, hversion, hhs, hn, hsum, hdeclared⟩, -, -, hpos, hle, hroom⟩ := h
  have hbody : bytesAt data moduleHeader (data.length - moduleHeader) =
      some (data.drop moduleHeader) := by
    rw [bytesAt_eq (by omega), ← List.length_drop, List.take_length]
  rw [Nat.le_div_iff_mul_le (by decide)] at hroom
  simp only [inspectModule, hmagic, hversion, hhs, hdeclared, hn, hsum, hbody,
    Option.bind_eq_bind, Option.bind_some, Option.pure_def]
  rw [if_neg (by omega), if_neg (by simp), if_neg (by simp), if_neg (by simp), if_neg (by simp),
    if_neg (by omega), if_neg (by simp)]

end

def checksumStep (h : BitVec 32) (b : UInt8) : BitVec 32 :=
  (h ^^^ BitVec.ofNat 32 b.toNat) * 16777619

theorem checksum_foldl (data : List UInt8) :
    checksum data = data.foldl checksumStep 2166136261 := rfl

theorem mul_multiplier_injective {x y : BitVec 32} (h : x * 16777619 = y * 16777619) : x = y := by
  have hinverse : (16777619 : BitVec 32) * 899433627 = 1#32 := by decide
  calc x = x * 16777619 * 899433627 := by rw [BitVec.mul_assoc, hinverse, BitVec.mul_one]
    _ = y * 16777619 * 899433627 := by rw [h]
    _ = y := by rw [BitVec.mul_assoc, hinverse, BitVec.mul_one]

theorem checksumStep_state {h h' : BitVec 32} {b : UInt8}
    (heq : checksumStep h b = checksumStep h' b) : h = h' :=
  (BitVec.xor_left_inj _).mp (mul_multiplier_injective heq)

theorem checksumStep_byte {h : BitVec 32} {b b' : UInt8}
    (heq : checksumStep h b = checksumStep h b') : b = b' := by
  have hbits := (BitVec.xor_right_inj _).mp (mul_multiplier_injective heq)
  have hnat := congrArg BitVec.toNat hbits
  have hb := b.toNat_lt
  have hb' := b'.toNat_lt
  rw [BitVec.toNat_ofNat, BitVec.toNat_ofNat, Nat.mod_eq_of_lt (by omega),
    Nat.mod_eq_of_lt (by omega)] at hnat
  exact UInt8.toNat_inj.mp hnat

theorem foldl_checksumStep_injective (data : List UInt8) {h h' : BitVec 32}
    (heq : data.foldl checksumStep h = data.foldl checksumStep h') : h = h' := by
  induction data generalizing h h' with
  | nil => exact heq
  | cons b data ih => exact checksumStep_state (ih heq)

theorem checksum_set_ne {data : List UInt8} {k : Nat} {b : UInt8} (hk : k < data.length)
    (hb : data[k]? ≠ some b) : checksum (data.set k b) ≠ checksum data := by
  intro heq
  have hfold : ∀ c : UInt8, checksum (data.set k c) =
      (data.drop (k + 1)).foldl checksumStep
        (checksumStep ((data.take k).foldl checksumStep 2166136261) c) := by
    intro c
    rw [checksum_foldl, List.set_eq_take_append_cons_drop, if_pos hk, List.foldl_append,
      List.foldl_cons]
  have hold := hfold data[k]
  rw [List.set_getElem_self] at hold
  rw [hfold, hold] at heq
  have hbyte := checksumStep_byte (foldl_checksumStep_injective _ heq)
  rw [List.getElem?_eq_getElem hk, hbyte] at hb
  exact hb rfl

section

variable {host : HostMemory} {limits : LoadLimits} {image : List UInt8}
  {fs : List ModuleFunction} {n n' k : Nat} {b : UInt8}

theorem drop_set_header (hk : k < moduleHeader) :
    (image.set k b).drop moduleHeader = image.drop moduleHeader :=
  List.drop_set_of_lt hk

theorem ImageHeader.recount (h : ImageHeader image n) (hk : 8 ≤ k ∧ k < 12)
    (hn : getLE 4 (image.set k b) 8 = some n') : ImageHeader (image.set k b) n' := by
  have hdrop : (image.set k b).drop moduleHeader = image.drop moduleHeader :=
    drop_set_header (by simp only [moduleHeader]; omega)
  constructor
  · rw [List.length_set]
    exact h.length
  · rw [getLE_set b (by omega), h.magic]
  · rw [getLE_set b (by omega), h.version]
  · rw [getLE_set b (by omega), h.headerSize]
  · exact hn
  · rw [getLE_set b (by omega), hdrop, h.sum]
  · rw [getLE_set b (by omega), List.length_set, h.declared]

theorem ImageHeader.changed (h : ImageHeader image n) (hk : k < image.length)
    (hb : image[k]? ≠ some b) (h' : ImageHeader (image.set k b) n') :
    k < moduleHeader ∧ (n' = n ∨ n' ≠ n ∧ 8 ≤ k ∧ k < 12) := by
  have hlength : 32 ≤ image.length := h.length
  have hmagic := h'.magic
  have hversion := h'.version
  have hsize := h'.headerSize
  have hcount := h'.count
  have hsum := h'.sum
  have hdeclared := h'.declared
  rw [List.length_set, ← h.declared] at hdeclared
  rw [← h.magic] at hmagic
  rw [← h.version] at hversion
  rw [← h.headerSize] at hsize
  have hunchanged : ∀ offset n, offset + n ≤ 32 →
      getLE n (image.set k b) offset = getLE n image offset → k < offset ∨ offset + n ≤ k := by
    intro offset n hle hsame
    by_contra hin
    exact getLE_set_ne (by omega) (by omega) (by omega) hb hsame
  have h0 := hunchanged 0 4 (by omega) hmagic
  have h4 := hunchanged 4 2 (by omega) hversion
  have h6 := hunchanged 6 2 (by omega) hsize
  have h16 := hunchanged 16 8 (by omega) hdeclared
  have hheader : k < moduleHeader := by
    by_contra hbody
    have hdrop : (image.set k b).drop moduleHeader =
        (image.drop moduleHeader).set (k - moduleHeader) b := by
      rw [List.drop_set, if_neg hbody]
    rw [getLE_set b (.inr (by simp only [moduleHeader] at hbody; omega)), h.sum, hdrop,
      Option.some.injEq, BitVec.toNat_inj] at hsum
    refine checksum_set_ne ?_ ?_ hsum.symm
    · rw [List.length_drop]
      omega
    · rwa [List.getElem?_drop, Nat.add_sub_cancel' (Nat.not_lt.mp hbody)]
  refine ⟨hheader, ?_⟩
  rw [drop_set_header hheader, ← h.sum] at hsum
  have h12 := hunchanged 12 4 (by omega) hsum
  by_cases hfield : 8 ≤ k ∧ k < 12
  · refine .inr ⟨?_, hfield⟩
    rintro rfl
    rw [← h.count] at hcount
    exact getLE_set_ne hfield.1 (by omega) (by omega) hb hcount
  · rw [getLE_set b (by omega), h.count, Option.some.injEq] at hcount
    exact .inl hcount.symm

theorem tableFrom_append {ps qs : List (List UInt8 × List UInt8)} {i offset : Nat}
    {table : List UInt8} (h : tableFrom (ps ++ qs) i offset = .ok table) :
    ∃ t t', tableFrom ps i offset = .ok t ∧ table = t ++ t' := by
  induction ps generalizing i offset table with
  | nil => exact ⟨[], table, rfl, rfl⟩
  | cons p ps ih =>
    obtain ⟨name, image⟩ := p
    rw [List.cons_append, tableFrom] at h
    split at h
    · cases h
    rename_i hoffset
    cases hrest : tableFrom (ps ++ qs) (i + 1) (offset + name.length + image.length) with
    | error d =>
      rw [hrest] at h
      cases h
    | ok rest =>
      rw [hrest] at h
      cases h
      obtain ⟨t, t', ht, rfl⟩ := ih hrest
      refine ⟨_, t', ?_, (List.append_assoc ..).symm⟩
      rw [tableFrom, if_neg hoffset, ht]

theorem payload_append (ps qs : List (List UInt8 × List UInt8)) :
    payload (ps ++ qs) = payload ps ++ payload qs :=
  List.flatMap_append

theorem payload_no_entry {f : ModuleFunction} (hs : Serializable f) (rest : List UInt8) :
    ∃ j c, (j = 6 ∨ j = 7) ∧ c ≠ 0 ∧
      (cString f.name ++ (irImage f.ir ++ rest))[j]? = some c := by
  have hzero := zero_notMem_cString f.name
  have hname := hs.name
  obtain ⟨more, himage⟩ : ∃ more, irImage f.ir ++ rest =
      [0x54, 0x4a, 0x49, 0x52, 2, 0, 0x20] ++ more := ⟨_, rfl⟩
  rw [himage]
  generalize cString f.name = name at hzero hname
  match name with
  | [] => exact absurd rfl hname
  | [_] => exact ⟨7, 0x20, .inr rfl, by decide, rfl⟩
  | [_, _] => exact ⟨6, 2, .inl rfl, by decide, rfl⟩
  | [_, _, _] => exact ⟨6, 0x52, .inl rfl, by decide, rfl⟩
  | [_, _, _, _] => exact ⟨6, 0x49, .inl rfl, by decide, rfl⟩
  | [_, _, _, _, _] => exact ⟨6, 0x4a, .inl rfl, by decide, rfl⟩
  | [_, _, _, _, _, _] => exact ⟨6, 0x54, .inl rfl, by decide, rfl⟩
  | _ :: _ :: _ :: _ :: _ :: _ :: c :: _ =>
    refine ⟨6, c, .inl rfl, ?_, rfl⟩
    rintro rfl
    simp at hzero

theorem loadFunction_payload (alloc : Allocator) (m : Module) (total : Nat) {data rest : List UInt8}
    {f : ModuleFunction} {i : Nat} (hs : Serializable f)
    (hdata : data.drop (moduleHeader + i * moduleEntry) =
      cString f.name ++ (irImage f.ir ++ rest))
    (hroom : moduleHeader + (i + 1) * moduleEntry ≤ data.length) :
    loadFunction host alloc .default data i m total =
      some (m, .error ⟨.invalidArgument, i, "invalid TJM function entry"⟩) := by
  have hentry : moduleHeader + i * moduleEntry + 24 ≤ data.length := by
    rw [Nat.succ_mul] at hroom
    exact hroom
  obtain ⟨no, hno⟩ := getLE_isSome 4 data (moduleHeader + i * moduleEntry) (by omega)
  obtain ⟨nl, hnl⟩ := getLE_isSome 4 data (moduleHeader + i * moduleEntry + 4) (by omega)
  obtain ⟨io, hio⟩ := getLE_isSome 8 data (moduleHeader + i * moduleEntry + 8) (by omega)
  obtain ⟨is, his⟩ := getLE_isSome 8 data (moduleHeader + i * moduleEntry + 16) (by omega)
  have hlong : 4096 < nl := by
    obtain ⟨j, c, hj, hc, hbyte⟩ := payload_no_entry hs rest
    rw [← hdata, List.getElem?_drop] at hbyte
    rw [getLE, bytesAt_eq (by omega), Option.map_some, Option.some.injEq] at hnl
    have hplace : ((data.drop (moduleHeader + i * moduleEntry + 4)).take 4)[j - 4]? = some c := by
      rw [List.getElem?_take_of_lt (by omega), List.getElem?_drop, ← hbyte]
      congr 1
      omega
    have hge := ofLE_ge hplace
    have hpos : 0 < c.toNat := Nat.pos_of_ne_zero fun h => hc (UInt8.toNat_inj.mp h)
    rw [hnl] at hge
    rcases hj with rfl | rfl <;> omega
  simp only [loadFunction, hno, hnl, hio, his, Option.bind_eq_bind, Option.bind_some,
    Option.pure_def]
  rw [if_pos (.inr (.inl hlong))]

theorem loadFrom_take (alloc : Allocator) (limits : LoadLimits) {data table : List UInt8}
    (hmem : ∀ f ∈ fs, InMemory host f.ir) (hs : ∀ f ∈ fs, Serializable f)
    (hlength : moduleHeader ≤ data.length) (hmax : data.length ≤ sizeMax)
    (hbody : ImageBody data fs table) (hle : n ≤ fs.length) :
    (∃ m d, loadFrom host alloc limits data n 0 (List.replicate n {}) 0 = some (m, some d) ∧
        (alloc = .unlimited → ¬ Fits limits [] 0 (fs.take n))) ∨
      loadFrom host alloc limits data n 0 (List.replicate n {}) 0 =
          some ((fs.take n).map loaded, none) ∧
        Fits limits [] 0 (fs.take n) := by
  have hsplit : fs.map part = (fs.take n).map part ++ (fs.drop n).map part := by
    rw [← List.map_append, List.take_append_drop]
  have htake : (fs.take n).length = n := List.length_take_of_le hle
  have hentries := hbody.entries
  rw [hsplit] at hentries
  obtain ⟨t, t', ht, rfl⟩ := tableFrom_append hentries
  have hdata := hbody.payload
  rw [hsplit, payload_append] at hdata
  have htable : data.drop (moduleHeader + 0 * moduleEntry) =
      t ++ (t' ++ payload (fs.map part)) := by
    rw [Nat.zero_mul, Nat.add_zero, hbody.body, List.append_assoc]
  have hprefix := loadFrom_prefix (i := 0) alloc limits [] 0 0
    (fun f hf => hmem f (List.mem_of_mem_take hf)) (fun f hf => hs f (List.mem_of_mem_take hf))
    hmax rfl ht (by omega) htable hdata
  rw [htake, Nat.add_zero, List.nil_append, List.nil_append] at hprefix
  rcases hprefix with herror | ⟨hload, hfits⟩
  · exact .inl herror
  · refine .inr ⟨?_, hfits List.nodup_nil (Nat.zero_le _)⟩
    rw [hload]
    simp [loadFrom]

theorem loadFrom_more (alloc : Allocator) {data table : List UInt8}
    (hmem : ∀ f ∈ fs, InMemory host f.ir) (hs : ∀ f ∈ fs, Serializable f) (hpos : 0 < fs.length)
    (hmax : data.length ≤ sizeMax) (hbody : ImageBody data fs table) (hlt : fs.length < n)
    (hroom : moduleHeader + n * moduleEntry ≤ data.length) :
    ∃ m d, loadFrom host alloc .default data n 0 (List.replicate n {}) 0 = some (m, some d) := by
  obtain ⟨more, rfl⟩ := Nat.exists_eq_add_of_lt hlt
  have htable : data.drop (moduleHeader + 0 * moduleEntry) = table ++ payload (fs.map part) := by
    rw [Nat.zero_mul, Nat.add_zero, hbody.body]
  have hdata : data.drop (moduleHeader + fs.length * moduleEntry) =
      payload (fs.map part) ++ [] := by
    rw [hbody.payload, List.append_nil]
  rcases loadFrom_prefix (i := 0) alloc .default [] 0 (more + 1) hmem hs hmax rfl hbody.entries
    (by omega) htable hdata with ⟨m, d, herror, -⟩ | ⟨hload, -⟩
  · exact ⟨m, d, herror⟩
  · obtain ⟨f, fs', rfl⟩ := List.exists_cons_of_length_pos hpos
    have hentry := hbody.payload
    rw [payload_cons] at hentry
    have hnext : moduleHeader + ((f :: fs').length + 1) * moduleEntry ≤ data.length := by
      refine Nat.le_trans ?_ hroom
      exact Nat.add_le_add_left (Nat.mul_le_mul_right _ (by omega)) _
    rw [List.nil_append, List.nil_append, ← Nat.add_assoc, Nat.zero_add, Nat.zero_add] at hload
    rw [hload, loadFrom]
    simp only [loadFunction_payload alloc _ _ (hs f List.mem_cons_self) hentry hnext,
      Option.bind_eq_bind, Option.bind_some, Option.pure_def]
    exact ⟨_, _, rfl⟩

end

/-- An image that differs in one byte is rejected or loaded as the same functions, exactly unless
the byte makes the header count fewer functions, all of which the loader takes. And whatever the
loader accepts, inspection accepts with the same number of functions. -/
theorem changed_byte_detected_iff (host : HostMemory) {fs : List ModuleFunction}
    {image : List UInt8} {k : Nat} {b : UInt8} (h : serializeModule fs = .ok image)
    (hmem : ∀ f ∈ fs, InMemory host f.ir) (hk : k < image.length) (hb : image[k]? ≠ some b) :
    ((∀ alloc m, deserializeModule host alloc (image.set k b) = some (m, none) →
        m = fs.map loaded) ∧
      ∀ alloc data m, deserializeModule host alloc data = some (m, none) →
        ∃ info, inspectModule data = some (.ok info) ∧ info.functionCount = m.length) ↔
      ∀ n, getLE 4 (image.set k b) 8 = some n → 0 < n → n < fs.length →
        image.length ≤ LoadLimits.default.maxImageBytes → ¬ Fits .default [] 0 (fs.take n) := by
  obtain ⟨-, -, -, hs, hpos, hcount, hmax⟩ := serializeModule_ok h
  obtain ⟨hheader, table, hbody⟩ := serializeModule_image h
  have hinspect : ∀ alloc data m, deserializeModule host alloc data = some (m, none) →
      ∃ info, inspectModule data = some (.ok info) ∧ info.functionCount = m.length := by
    intro alloc data m hm
    obtain ⟨m', r, hload, hgood⟩ := deserializeModule_inside host alloc .default data
    obtain ⟨n, haccepted, -, -⟩ := deserializeModule_accepts_iff.mp hm
    rw [deserializeModule, hload] at hm
    cases hm
    refine ⟨_, haccepted.inspect, ?_⟩
    have hcount := haccepted.count
    rw [hgood.count rfl] at hcount
    exact (Option.some.inj hcount).symm
  rw [and_iff_left hinspect]
  -- the changed image has the same body whenever its header is accepted
  have hbody' : k < moduleHeader → ImageBody (image.set k b) fs table := fun hk' =>
    ⟨hbody.entries, hbody.length, by rw [drop_set_header hk', hbody.body]⟩
  have hlength : moduleHeader ≤ (image.set k b).length := by
    rw [List.length_set]
    exact hheader.length
  have hmax' : (image.set k b).length ≤ sizeMax := by rwa [List.length_set]
  constructor
  · intro hsame n hn hnpos hlt hbytes hfits
    have hfield : 8 ≤ k ∧ k < 12 := by
      by_contra hout
      rw [getLE_set b (by omega), hheader.count, Option.some.injEq] at hn
      omega
    have hk' : k < moduleHeader := by
      simp only [moduleHeader]
      omega
    have hroom : n ≤ ((image.set k b).length - moduleHeader) / moduleEntry := by
      rw [Nat.le_div_iff_mul_le (by decide), ← List.length_drop, (hbody' hk').body,
        List.length_append, hbody.length]
      exact Nat.le_add_right_of_le (Nat.mul_le_mul_right _ hlt.le)
    have haccepted : HeaderAccepted .default (image.set k b) n :=
      ⟨hheader.recount hfield hn, by decide, by rwa [List.length_set], hnpos, by
        simp only [LoadLimits.default]
        omega, hroom⟩
    rcases loadFrom_take .unlimited .default hmem hs hlength hmax' (hbody' hk') hlt.le with
      ⟨m', d, -, hno⟩ | ⟨hload, -⟩
    · exact hno rfl hfits
    · have hloaded := hsame .unlimited _ (deserializeModule_accepts_iff.mpr
        ⟨n, haccepted, rfl, hload⟩)
      have hlengths := congrArg List.length hloaded
      rw [List.length_map, List.length_map, List.length_take_of_le hlt.le] at hlengths
      omega
  · intro hcond alloc m hm
    obtain ⟨n, haccepted, -, hload⟩ := deserializeModule_accepts_iff.mp hm
    obtain ⟨hk', hchange⟩ := hheader.changed hk hb haccepted.toImageHeader
    have hroom := haccepted.room
    rw [Nat.le_div_iff_mul_le (by decide)] at hroom
    have hle : n ≤ fs.length := by
      by_contra hgt
      obtain ⟨m', d, herror⟩ := loadFrom_more alloc hmem hs hpos hmax' (hbody' hk')
        (Nat.not_le.mp hgt) (by omega)
      rw [herror] at hload
      cases hload
    rcases loadFrom_take alloc .default hmem hs hlength hmax' (hbody' hk') hle with
      ⟨m', d, herror, -⟩ | ⟨hload', hfits⟩
    · rw [herror] at hload
      cases hload
    · rw [hload'] at hload
      cases hload
      by_cases heq : n = fs.length
      · rw [heq, List.take_length]
      · have hbytes := haccepted.size_le
        rw [List.length_set] at hbytes
        exact absurd hfits (hcond n haccepted.count haccepted.pos (by omega) hbytes)

/-- A changed reserved byte is accepted and changes nothing. -/
theorem reserved_byte_changes_nothing :
    ∃ image, serializeModule [constantFunction 2] = .ok image ∧ image[24]? ≠ some 1 ∧
      (∀ alloc m, deserializeModule (fun _ => none) alloc (image.set 24 1) = some (m, none) →
        m = [constantFunction 2].map loaded) := by
  obtain ⟨image, h⟩ : ∃ image, serializeModule [constantFunction 2] = .ok image := ⟨_, rfl⟩
  have hlength : 24 < image.length := by
    cases h
    decide +kernel
  have hbyte : image[24]? ≠ some 1 := by
    cases h
    decide +kernel
  refine ⟨image, h, hbyte, ((changed_byte_detected_iff _ h ?_ hlength hbyte).mpr ?_).1⟩
  · intro f hf
    cases List.mem_singleton.mp hf
    exact constantFunction_inMemory _ (by decide)
  · intro n _ hpos hlt
    simp only [List.length_singleton] at hlt
    omega

/-- A module of two functions is loaded as a module of one when the number in its header says
so. -/
theorem dropped_function_is_accepted :
    ∃ fs image m, serializeModule fs = .ok image ∧ 8 < image.length ∧ image[8]? ≠ some 1 ∧
      (∀ f ∈ fs, InMemory (fun _ => none) f.ir) ∧
      deserializeModule (fun _ => none) .unlimited (image.set 8 1) = some (m, none) ∧
      m ≠ fs.map loaded := by
  obtain ⟨image, h⟩ : ∃ image, serializeModule
    [constantFunction 2, { constantFunction 3 with name := [0x67] }] = .ok image := ⟨_, rfl⟩
  refine ⟨_, image, [constantFunction 2], h, ?_, ?_, ?_, ?_, ?_⟩
  · cases h
    decide +kernel
  · cases h
    decide +kernel
  · intro f hf
    rcases List.mem_cons.mp hf with rfl | hf
    · exact constantFunction_inMemory _ (by decide)
    · cases List.mem_singleton.mp hf
      exact constantFunction_inMemory _ (by decide : 3 < 2 ^ 16)
  · cases h
    decide +kernel
  · decide

end TurboJS.AOT
