import TurboJS.OSR.CallLoop

namespace TurboJS.OSR
open Bytecode Foundation

/-! The imul-xorshift loop: `acc = (Math.imul(acc ^ i, m) + a) | 0; acc = acc ^ (acc >> s)`. -/

structure ImulXorshiftProgram extends CountedLoop where
  mixMultiplier : BitVec 32
  mixAddend : BitVec 32
  mixShift : Nat
  mixUnsignedShift : Bool
  mixGlobalAtom : Nat
  mixMethodAtom : Nat
  deriving DecidableEq, Repr

def parseGetVar (b : FunctionBytecode) (p : Nat) : Option (Nat × Nat) :=
  match decode b.code p with
  | some (.getVar atom, q) => some (atom, q)
  | _ => none

def parseGetField2 (b : FunctionBytecode) (p : Nat) : Option (Nat × Nat) :=
  match decode b.code p with
  | some (.getField2 atom, q) => some (atom, q)
  | _ => none

def parseGetScalarSlotOf (b : FunctionBytecode) (slot : Slot) (p : Nat) : Option Nat :=
  match parseGetScalarSlot b p with
  | some (slot', q) => if slot' = slot then some q else none
  | none => none

/-- `>>>` or `>>`. -/
def parseRightShift (b : FunctionBytecode) (p : Nat) : Option (Bool × Nat) :=
  match decode b.code p with
  | some (.plain .shr, q) => some (true, q)
  | some (.plain .sar, q) => some (false, q)
  | _ => none

/-- `| 0`, where it stands. -/
def skipOrZero (b : FunctionBytecode) (p : Nat) : Nat :=
  match expectAll b [.pushShort 0, .plain .or] p with
  | some q => q
  | none => p

/-- `turbojs_detect_int32_imul_xorshift_loop`; `named` compares the name of an atom. -/
def detectImulXorshiftLoop (named : Nat → String → Bool) (b : FunctionBytecode)
    (target source : Nat) : Option ImulXorshiftProgram := do
  if target ≥ source ∨ source ≥ b.code.length then none
  else
    let header ← parseHeader b target
    let (globalAtom, p) ← parseGetVar b header.body
    let (methodAtom, p) ← parseGetField2 b p
    if ¬ named globalAtom "Math" ∨ ¬ named methodAtom "imul" then none
    else
      let (accumulator, p) ← parseGetScalarSlot b p
      let p ← expectInduction b header.induction p
      let p ← expect b (.plain .xor) p
      let (multiplier, p) ← scalarConstIn int32Min int32Max b p
      let p ← expect b (.callMethod 2) p
      let (addend, p) ← scalarConstIn int32Min int32Max b p
      let p ← expect b (.plain .add) p
      let p ← expectAll b [.pushShort 0, .plain .or] p
      let p ← parseAssign b accumulator p
      let p ← parseGetScalarSlotOf b accumulator p
      let p ← parseGetScalarSlotOf b accumulator p
      let (shift, p) ← scalarConstIn 0 31 b p
      let (unsigned, p) ← parseRightShift b p
      let p ← expect b (.plain .xor) p
      let p ← parseAssign b accumulator (skipOrZero b p)
      parseTail b header.induction target source p
      let loop ← header.counted b accumulator target
      some ⟨loop, toBits multiplier, toBits addend, shift.toNat, unsigned, globalAtom, methodAtom⟩

def ImulXorshiftProgram.mix (p : ImulXorshiftProgram) (i : Int) (value : BitVec 32) : BitVec 32 :=
  let value := (value ^^^ toBits i) * p.mixMultiplier + p.mixAddend
  value ^^^ (if p.mixUnsignedShift then value >>> p.mixShift else value.sshiftRight p.mixShift)

/-- An entry in this mode; `guard` is the answer of `turbojs_guard_builtin_math_imul`. -/
def runImulXorshift (guard : Bool) (b : FunctionBytecode) (p : ImulXorshiftProgram)
    (slots : Slot → JSValue) : Option OSRExit :=
  p.runChunk b (fun i stop value => if guard then some (iterateTo p.mix i stop value) else none)
    slots

variable {H : Type}

/-- The lookup of `Math.imul` yields the builtin function. -/
def BuiltinImul (ops : CallOps H) (heap : H) (globalAtom methodAtom : Nat) : Prop :=
  ∃ math imul, ops.getVar heap globalAtom = some math ∧
    ops.getField heap math methodAtom = some imul ∧ ∀ this m n,
      ops.call heap imul this [.number m, .number n] = some (ofBits (toBits m * toBits n), heap)

section

variable {b : FunctionBytecode} {p q : Nat}

theorem parseGetVar_spells {atom : Nat} (h : parseGetVar b p = some (atom, q)) :
    Spells b.code p [.getVar atom] q := by
  unfold parseGetVar at h
  split at h
  · rename_i hd
    cases h
    exact .single hd
  · cases h

theorem parseGetField2_spells {atom : Nat} (h : parseGetField2 b p = some (atom, q)) :
    Spells b.code p [.getField2 atom] q := by
  unfold parseGetField2 at h
  split at h
  · rename_i hd
    cases h
    exact .single hd
  · cases h

theorem parseGetScalarSlotOf_spells {slot : Slot} (h : parseGetScalarSlotOf b slot p = some q) :
    ∃ form, Spells b.code p [.get slot form] q := by
  unfold parseGetScalarSlotOf at h
  split at h
  · rename_i slot' q' hp
    split at h
    · rename_i hs
      cases h
      rw [← hs]
      exact parseGetScalarSlot_spells hp
    · cases h
  · cases h

theorem parseRightShift_spells {unsigned : Bool} (h : parseRightShift b p = some (unsigned, q)) :
    Spells b.code p [.plain (if unsigned then .shr else .sar)] q := by
  unfold parseRightShift at h
  split at h
  · rename_i hd
    cases h
    exact .single hd
  · rename_i hd
    cases h
    exact .single hd
  · cases h

theorem skipOrZero_spells (b : FunctionBytecode) (p : Nat) :
    skipOrZero b p = p ∨ Spells b.code p [.pushShort 0, .plain .or] (skipOrZero b p) := by
  unfold skipOrZero
  split
  · rename_i hq
    exact .inr (expectAll_spells hq)
  · exact .inl rfl

end

theorem toBits_shr (x : BitVec 32) (n : Nat) : toBits ((x >>> n).toNat : Int) = x >>> n := by
  rw [toBits, BitVec.ofInt_natCast, BitVec.ofNat_toNat]
  simp

section

variable {ops : CallOps H} {b : FunctionBytecode} {p q : Nat} {st : List JSValue}
  {slots : Slot → JSValue} {heap : H} {accumulator : Slot} {induction : Nat} {i : Int}
  {x : BitVec 32}

theorem imulAdd_segment (st : List JSValue) {globalAtom methodAtom : Nat} {form : Form} {m a : Int} {im ia : Insn}
    (himul : BuiltinImul ops heap globalAtom methodAtom) (hm : Pushes b im m) (ha : Pushes b ia a)
    (hcode : Spells b.code p [.getVar globalAtom, .getField2 methodAtom, .get accumulator form,
      .get ⟨.local, induction⟩ .check, .plain .xor, im, .callMethod 2, ia, .plain .add,
      .pushShort 0, .plain .or] q)
    (hx : slots accumulator = ofBits x) (hi : slots ⟨.local, induction⟩ = .number i) :
    CallSegment ops b p q ⟨p, st, slots, heap⟩
      ⟨q, ofBits ((x ^^^ toBits i) * toBits m + toBits a) :: st, slots, heap⟩ := by
  obtain ⟨math, imul, hmath, hfield, hcall⟩ := himul
  refine callSegment_execAll ?_ hcode.function (n := 0) (m := 0) ?_
  · simp only [List.map_cons, List.all_cons, FunctionInsn.straight, hm.1, ha.1]
    rfl
  · have hxor : numeric .xor x.toInt i = some (ofBits (x ^^^ toBits i)) := by
      simp only [numeric, toBits_toInt]
    generalize x ^^^ toBits i = y at hxor ⊢
    simp only [List.map_cons, List.map_nil]
    rw [execFunctionAll_cons (t := ⟨0, math :: st, slots, heap⟩) (by simp [hmath, State.push]),
      execFunctionAll_cons (t := ⟨0, imul :: math :: st, slots, heap⟩) (by simp [hfield]),
      execFunctionAll_cons (t := ⟨0, .number x.toInt :: imul :: math :: st, slots, heap⟩)
        (by simp [hx, ofBits, State.push]),
      execFunctionAll_cons
        (t := ⟨0, .number i :: .number x.toInt :: imul :: math :: st, slots, heap⟩)
        (by simp [hi, State.push]),
      execFunctionAll_cons
        (t := ⟨0, ofBits y :: imul :: math :: st, slots, heap⟩)
        (by simp [hxor]),
      execFunctionAll_cons (hm.function ops _ _),
      execFunctionAll_cons
        (t := ⟨0, ofBits (toBits y.toInt * toBits m) :: st, slots, heap⟩)
        (by simp [execInvoke, State.push, hcall, ofBits]),
      toBits_toInt,
      execFunctionAll_cons (ha.function ops _ _),
      execFunctionAll_cons
        (t := ⟨0, .number ((y * toBits m).toInt + a) :: st, slots, heap⟩)
        (by simp [State.push, numeric, ofBits]),
      execFunctionAll_cons
        (t := ⟨0, .number 0 :: .number ((y * toBits m).toInt + a) :: st, slots, heap⟩)
        (by simp [State.push])]
    simp only [execFunctionAll, execFunction_plain, execPlain_operator, ne_eq, reduceCtorEq,
      not_false_eq_true, binary_number, numeric, Option.bind_some, toBits_add, toBits_toInt]
    simp [toBits]

theorem xorShift_segment (ops : CallOps H) (st : List JSValue) (heap : H) {form form' : Form}
    {n : Int} {ic : Insn} {unsigned : Bool} (hn : Pushes b ic n) (h0 : 0 ≤ n)
    (h31 : n ≤ 31) (hcode : Spells b.code p [.get accumulator form, .get accumulator form', ic,
      .plain (if unsigned then .shr else .sar), .plain .xor] q)
    (hx : slots accumulator = ofBits x) :
    CallSegment ops b p q ⟨p, st, slots, heap⟩
      ⟨q, ofBits (x ^^^ (if unsigned then x >>> n.toNat else x.sshiftRight n.toNat)) :: st,
        slots, heap⟩ := by
  have hcount : (toBits n).toNat % 32 = n.toNat := by
    rw [toBits, BitVec.toNat_ofInt]
    omega
  have hget : ∀ form st, execFunction ops b.cpool (.base (.get accumulator form))
      ⟨0, st, slots, heap⟩ 0 = some ⟨0, ofBits x :: st, slots, heap⟩ := by
    intro form st
    simp [hx, ofBits, State.push]
  refine callSegment_execAll ?_ hcode.function (n := 0) (m := 0) ?_
  · simp only [List.map_cons, List.all_cons, FunctionInsn.straight, hn.1]
    rfl
  · simp only [List.map_cons, List.map_nil]
    rw [execFunctionAll_cons (hget form st), execFunctionAll_cons (hget form' _),
      execFunctionAll_cons (hn.function ops _ _)]
    cases unsigned with
    | true =>
      rw [execFunctionAll_cons (t := ⟨0, .number (x >>> n.toNat).toNat :: ofBits x :: st, slots,
        heap⟩) (by simp [State.push, numeric, ofBits, toBits_toInt, hcount])]
      simp only [execFunctionAll, execFunction_plain, execPlain_operator, ofBits, ne_eq,
        reduceCtorEq, not_false_eq_true, binary_number, numeric, Option.bind_some, toBits_toInt,
        toBits_shr, if_true]
    | false =>
      rw [execFunctionAll_cons (t := ⟨0, ofBits (x.sshiftRight n.toNat) :: ofBits x :: st, slots,
        heap⟩) (by simp [State.push, numeric, ofBits, toBits_toInt, hcount])]
      simp only [execFunctionAll, execFunction_plain, execPlain_operator, ofBits, ne_eq,
        reduceCtorEq, not_false_eq_true, binary_number, numeric, Option.bind_some, toBits_toInt]
      rfl

theorem skipOrZero_segment (ops : CallOps H) (b : FunctionBytecode) (p : Nat)
    (st : List JSValue) (slots : Slot → JSValue) (heap : H) (x : BitVec 32) :
    p ≤ skipOrZero b p ∧ CallSegment ops b p (skipOrZero b p) ⟨p, ofBits x :: st, slots, heap⟩
      ⟨skipOrZero b p, ofBits x :: st, slots, heap⟩ := by
  rcases skipOrZero_spells b p with he | hcode
  · rw [he]
    exact ⟨Nat.le_refl p, .refl _⟩
  · have hor : numeric .or x.toInt 0 = some (ofBits x) := by
      simp only [numeric, toBits_toInt]
      simp [toBits]
    refine ⟨hcode.le, Segment.withCalls (segment_execAll rfl hcode (n := 0) (m := 0) ?_)⟩
    simp [execAll, State.push, ofBits, hor]

end

/-- The detected loop as its parts: the interpreted body stores one `mix`. -/
theorem detectImulXorshiftLoop_parts {named : Nat → String → Bool} {b : FunctionBytecode}
    {target source : Nat} {p : ImulXorshiftProgram}
    (hp : detectImulXorshiftLoop named b target source = some p) :
    ∃ header next, parseHeader b target = some header ∧ 0 ≤ header.resume ∧
      header.induction < b.varCount ∧
      parseTail b header.induction target source next = some () ∧ header.body ≤ next ∧
      p.toCountedLoop = ⟨header.induction, header.limit, header.limitSlot, p.accumulatorSlot,
        target, header.resume.toNat⟩ ∧
      ∀ (ops : CallOps H) (heap : H) (st : List JSValue) (slots : Slot → JSValue) (i : Int)
        (x : BitVec 32), BuiltinImul ops heap p.mixGlobalAtom p.mixMethodAtom →
        slots p.accumulatorSlot = ofBits x → slots ⟨.local, header.induction⟩ = .number i →
        CallSegment ops b header.body next ⟨header.body, st, slots, heap⟩
          ⟨next, st, Function.update slots p.accumulatorSlot (ofBits (p.mix i x)), heap⟩ := by
  unfold detectImulXorshiftLoop at hp
  split at hp
  · cases hp
  · obtain ⟨header, hh, hp⟩ := Option.bind_eq_some_iff.mp hp
    obtain ⟨⟨globalAtom, p1⟩, hvar, hp⟩ := Option.bind_eq_some_iff.mp hp
    obtain ⟨⟨methodAtom, p2⟩, hfield, hp⟩ := Option.bind_eq_some_iff.mp hp
    simp only at hp
    split at hp
    · cases hp
    · obtain ⟨⟨accumulator, p3⟩, hacc, hp⟩ := Option.bind_eq_some_iff.mp hp
      obtain ⟨p4, hind, hp⟩ := Option.bind_eq_some_iff.mp hp
      obtain ⟨p5, hxor, hp⟩ := Option.bind_eq_some_iff.mp hp
      obtain ⟨⟨multiplier, p6⟩, hmul, hp⟩ := Option.bind_eq_some_iff.mp hp
      obtain ⟨p7, hcall, hp⟩ := Option.bind_eq_some_iff.mp hp
      obtain ⟨⟨addend, p8⟩, hadd, hp⟩ := Option.bind_eq_some_iff.mp hp
      obtain ⟨p9, hplus, hp⟩ := Option.bind_eq_some_iff.mp hp
      obtain ⟨p10, hor, hp⟩ := Option.bind_eq_some_iff.mp hp
      obtain ⟨p11, hassign, hp⟩ := Option.bind_eq_some_iff.mp hp
      obtain ⟨p12, hget, hp⟩ := Option.bind_eq_some_iff.mp hp
      obtain ⟨p13, hget', hp⟩ := Option.bind_eq_some_iff.mp hp
      obtain ⟨⟨shift, p14⟩, hshift, hp⟩ := Option.bind_eq_some_iff.mp hp
      obtain ⟨⟨unsigned, p15⟩, hop, hp⟩ := Option.bind_eq_some_iff.mp hp
      obtain ⟨p16, hxor', hp⟩ := Option.bind_eq_some_iff.mp hp
      obtain ⟨next, hassign', hp⟩ := Option.bind_eq_some_iff.mp hp
      obtain ⟨u, ht, hp⟩ := Option.bind_eq_some_iff.mp hp
      obtain ⟨loop, hcount, he⟩ := Option.bind_eq_some_iff.mp hp
      obtain ⟨hr, hv, rfl⟩ := LoopHeader.counted_spec hcount
      cases he
      obtain ⟨hmul, -⟩ := scalarConstIn_spec hmul
      obtain ⟨hadd, -⟩ := scalarConstIn_spec hadd
      obtain ⟨hshift, h0, h31⟩ := scalarConstIn_spec hshift
      obtain ⟨form, hacc⟩ := parseGetScalarSlot_spells hacc
      obtain ⟨im, hmul, hm⟩ := scalarConst_pushes hmul
      obtain ⟨ia, hadd, ha⟩ := scalarConst_pushes hadd
      obtain ⟨ic, hshift, hs⟩ := scalarConst_pushes hshift
      obtain ⟨form1, hget⟩ := parseGetScalarSlotOf_spells hget
      obtain ⟨form2, hget'⟩ := parseGetScalarSlotOf_spells hget'
      have hfirst := (((((((((parseGetVar_spells hvar).append (parseGetField2_spells hfield)).append
        hacc).append (.single (expect_decode hind))).append (.single (expect_decode hxor))).append
        hmul).append (.single (expect_decode hcall))).append hadd).append
        (.single (expect_decode hplus))).append (expectAll_spells hor)
      have hsecond := (((hget.append hget').append hshift).append
        (parseRightShift_spells hop)).append (.single (expect_decode hxor'))
      obtain ⟨form3, hstore⟩ := parseAssign_spells hassign
      obtain ⟨form4, hstore'⟩ := parseAssign_spells hassign'
      have hskip : p16 ≤ skipOrZero b p16 := by
        rcases skipOrZero_spells b p16 with he | hcode
        · exact Nat.le_of_eq he.symm
        · exact hcode.le
      have h1 := hfirst.le
      have h2 := hstore.le
      have h3 := hsecond.le
      have h4 := hstore'.le
      refine ⟨header, next, hh, hr, hv, ht, by omega, rfl, ?_⟩
      intro ops heap st slots i x himul hx hi
      have hs1 := imulAdd_segment st himul hm ha hfirst hx hi
      generalize hy : (x ^^^ toBits i) * toBits multiplier + toBits addend = y at hs1
      have hs2 := (parseAssign_segment ops st slots heap (ofBits y) hassign
        (by simp only at hx; rw [hx]; simp [ofBits])).2
      have hs3 := xorShift_segment ops st heap hs h0 h31 hsecond
        (Function.update_self accumulator (ofBits y) slots)
      generalize hz : y ^^^ (if unsigned then y >>> shift.toNat else y.sshiftRight shift.toNat) = z
        at hs3
      have hs4 := (skipOrZero_segment ops b p16 st (Function.update slots accumulator (ofBits y))
        heap z).2
      have hs5 := (parseAssign_segment ops st (Function.update slots accumulator (ofBits y)) heap
        (ofBits z) hassign' (by rw [Function.update_self]; simp [ofBits])).2
      rw [Function.update_idem] at hs5
      have hmix : ImulXorshiftProgram.mix ⟨⟨header.induction, header.limit, header.limitSlot,
          accumulator, target, header.resume.toNat⟩, toBits multiplier, toBits addend, shift.toNat,
          unsigned, globalAtom, methodAtom⟩ i x = z := by
        simp only [ImulXorshiftProgram.mix, hy, hz]
      rw [hmix]
      have h12 := hs1.append hs2 h1 h2
      have h13 := h12.append hs3 (by omega) h3
      have h14 := h13.append hs4 (by omega) hskip
      exact h14.append hs5 (by omega) h4

/-- Imul-xorshift loops: on faithful slots, entries made one after the other are a part of the
interpreted loop, and they come to the limit. -/
theorem imulXorshift_loop_agrees {named : Nat → String → Bool} {b : FunctionBytecode}
    {target source : Nat} {p : ImulXorshiftProgram}
    (hp : detectImulXorshiftLoop named b target source = some p) {slots : Slot → JSValue}
    (hfaithful : p.Faithful b slots) {ops : CallOps H} {heap : H}
    (himul : BuiltinImul ops heap p.mixGlobalAtom p.mixMethodAtom) {first : OSRExit}
    (hrun : runImulXorshift true b p slots = some first) (st : List JSValue) :
    (∃ out, Entries (runImulXorshift true b p) p.loopHeader slots out ∧ p.AtLimit out.slots ∧
      out.resume = p.resume) ∧
    ∀ out, Entries (runImulXorshift true b p) p.loopHeader slots out →
      CallAgrees ops b target source ⟨target, st, slots, heap⟩ out := by
  obtain ⟨header, next, hh, hr, hv, ht, hle, hloop, hbody⟩ := detectImulXorshiftLoop_parts (H := H) hp
  have hv' : p.induction < b.varCount := by
    rw [hloop]
    exact hv
  have hmax : p.limit ≤ int32Max := by
    rw [hloop]
    exact (parseHeader_branches ops.toHeapOps hh hr).2.1
  have hback : p.loopHeader = target := by rw [hloop]
  have hkernel : ∀ i stop x value,
      (if true then some (iterateTo p.mix i stop x) else none) = some value →
      value = iterateTo p.mix i stop x := by
    intro i stop x value h
    cases h
    rfl
  have hexact : ∀ i stop x, (if true then some (iterateTo p.mix i stop x) else none) =
      some (iterateTo p.mix i stop x) := fun _ _ _ => rfl
  have hrun' : p.runChunk b (fun i stop x => if true then some (iterateTo p.mix i stop x) else none)
      slots = some first := hrun
  have hfinish := CountedLoop.entries_finish hv' hmax hexact hfaithful hrun'
  refine ⟨hfinish, ?_⟩
  intro out hentries
  rw [hback] at hentries
  refine ⟨_, Entries.segment ?_ hentries hfaithful, rfl, rfl⟩
  intro slots out hf hrun
  refine ⟨?_, CountedLoop.chunk_faithful hv' hkernel hf hrun⟩
  exact CountedLoop.chunk_segment hh hr hv ht hle hloop
    (fun st slots i x hx hi => hbody ops heap st slots i x himul hx hi) hkernel hf hrun st

/-- `for (; i < limit; i++) { acc = (Math.imul(acc ^ i, 1) + 0) | 0; acc = acc ^ (acc >> 31); }`,
where the two bytes or three that push the limit are a parameter; the atoms 7 and 8 are `Math` and
`imul`. -/
def mixLoopCode (limit : List UInt8) (exit back : UInt8) : FunctionBytecode where
  code := [97, 0, 0] ++ limit ++ [166, 241, exit, 56, 7, 0, 0, 0, 65, 8, 0, 0, 0, 97, 1, 0, 97, 0,
    0, 163, 188, 36, 2, 0, 187, 157, 187, 164, 17, 98, 1, 0, 14, 97, 1, 0, 97, 1, 0, 195, 31, 160,
    163, 17, 98, 1, 0, 14, 97, 0, 0, 144, 98, 0, 0, 14, 243, back]
  cpool := []
  argCount := 0
  varCount := 2

def mixAtoms (atom : Nat) (name : String) : Bool :=
  (atom = 7 ∧ name = "Math") ∨ (atom = 8 ∧ name = "imul")

/-- A realm with `Math.imul` and nothing else. -/
def mathOnly : CallOps Unit where
  toHeapOps := { noHeap with
    getVar := fun _ atom => if atom = 7 then some (.object 0) else none
    getField := fun _ o atom => if o = .object 0 ∧ atom = 8 then some (.object 1) else none }
  call _ f _ args :=
    match f, args with
    | .object 1, [.number m, .number n] => some (ofBits (toBits m * toBits n), ())
    | _, _ => none
  arrayFrom _ _ := none
  thisFunction := .undefined

theorem mathOnly_imul : BuiltinImul mathOnly () 7 8 :=
  ⟨.object 0, .object 1, rfl, rfl, fun _ _ _ => rfl⟩

def mixSlots (i acc : Int) : Slot → JSValue := fun slot =>
  if slot = ⟨.local, 0⟩ then .number i else if slot = ⟨.local, 1⟩ then .number acc else .undefined

theorem constant_limit_agrees :
    ∃ p out, detectImulXorshiftLoop mixAtoms (mixLoopCode [190] 56 195) 0 60 = some p ∧
      Entries (runImulXorshift true (mixLoopCode [190] 56 195) p) p.loopHeader (mixSlots 0 5) out ∧
      CallAgrees mathOnly (mixLoopCode [190] 56 195) 0 60 ⟨0, [], mixSlots 0 5, ()⟩ out := by
  obtain ⟨p, hp, hvalue⟩ : ∃ p,
      detectImulXorshiftLoop mixAtoms (mixLoopCode [190] 56 195) 0 60 = some p ∧
        p = ⟨⟨0, 3, none, ⟨.local, 1⟩, 0, 62⟩, 1, 0, 31, false, 7, 8⟩ := by
    refine ⟨_, ?_, rfl⟩
    decide +kernel
  subst hvalue
  obtain ⟨first, hrun⟩ : ∃ first, runImulXorshift true (mixLoopCode [190] 56 195)
      ⟨⟨0, 3, none, ⟨.local, 1⟩, 0, 62⟩, 1, 0, 31, false, 7, 8⟩ (mixSlots 0 5) = some first :=
    ⟨_, rfl⟩
  obtain ⟨⟨out, hentries, -, -⟩, hagree⟩ := imulXorshift_loop_agrees hp
    ⟨by decide, .inl (by decide)⟩ mathOnly_imul hrun []
  exact ⟨_, out, hp, hentries, hagree out hentries⟩

/-- The limit is read once although the loop stores it: with `i = 1` and `acc = 3` the interpreted
loop ends with `i = acc = 2`, the runner goes on to `i = 3` and `acc = 0`. -/
theorem changing_limit_is_missed :
    ¬ ∀ (named : Nat → String → Bool) (b : FunctionBytecode) (target source : Nat)
      (p : ImulXorshiftProgram) (slots : Slot → JSValue) (ops : CallOps Unit) (out : OSRExit),
      detectImulXorshiftLoop named b target source = some p →
      BuiltinImul ops () p.mixGlobalAtom p.mixMethodAtom →
      Entries (runImulXorshift true b p) p.loopHeader slots out → out.resume = p.resume →
      CallAgrees ops b target source ⟨target, [], slots, ()⟩ out := by
  intro hall
  have hp : detectImulXorshiftLoop mixAtoms (mixLoopCode [97, 1, 0] 56 193) 0 62 =
      some ⟨⟨0, 0, some ⟨.local, 1⟩, ⟨.local, 1⟩, 0, 64⟩, 1, 0, 31, false, 7, 8⟩ := by
    decide +kernel
  obtain ⟨out, hrun⟩ : ∃ out, runImulXorshift true (mixLoopCode [97, 1, 0] 56 193)
      ⟨⟨0, 0, some ⟨.local, 1⟩, ⟨.local, 1⟩, 0, 64⟩, 1, 0, 31, false, 7, 8⟩ (mixSlots 1 3) =
      some out := ⟨_, rfl⟩
  have hvalue : (runImulXorshift true (mixLoopCode [97, 1, 0] 56 193)
      ⟨⟨0, 0, some ⟨.local, 1⟩, ⟨.local, 1⟩, 0, 64⟩, 1, 0, 31, false, 7, 8⟩ (mixSlots 1 3)).map
      (fun out => (out.resume, out.slots ⟨.local, 0⟩, out.slots ⟨.local, 1⟩)) =
      some (64, .number 3, .number 0) := by
    decide +kernel
  simp only [hrun, Option.map_some, Option.some.injEq, Prod.mk.injEq] at hvalue
  obtain ⟨t, hseg, hpc, hslots⟩ := hall _ _ _ _ _ _ mathOnly out hp mathOnly_imul (.last hrun)
    hvalue.1
  have hadvance := advance_runs (stepFunction mathOnly (mixLoopCode [97, 1, 0] 56 193))
    (fun s => decide (0 ≤ s.pc ∧ s.pc < 63)) 60 ⟨0, [], mixSlots 1 3, ()⟩
  simp only [decide_eq_true_eq] at hadvance
  have hend : (advance (stepFunction mathOnly (mixLoopCode [97, 1, 0] 56 193))
        (fun s => decide (0 ≤ s.pc ∧ s.pc < 63)) 60 ⟨0, [], mixSlots 1 3, ()⟩).pc = 64 ∧
      (advance (stepFunction mathOnly (mixLoopCode [97, 1, 0] 56 193))
        (fun s => decide (0 ≤ s.pc ∧ s.pc < 63)) 60 ⟨0, [], mixSlots 1 3, ()⟩).slots
          ⟨.local, 1⟩ = .number 2 := by
    decide +kernel
  have hsame := Runs.exit_unique hseg hadvance (by rw [hpc, hvalue.1]; decide)
    (by rw [hend.1]; decide)
  rw [← hsame, hslots, hvalue.2.2] at hend
  exact absurd hend.2 (by decide)

end TurboJS.OSR
