import TurboJS.Leaf.RouterCode

namespace TurboJS.Leaf
open Bytecode Foundation

/-! A router, interpreted. -/

structure RouterLocals where
  callbacks : JSValue
  sum : JSValue
  round : JSValue
  index : JSValue
  lastIndex : JSValue

def routerSlots (args : List JSValue) (functions : Nat → JSValue) (l : RouterLocals) :
    Slot → JSValue
  | ⟨.argument, k⟩ => args[k]?.getD .undefined
  | ⟨.varRef, k⟩ => functions k
  | ⟨.local, 0⟩ => l.callbacks
  | ⟨.local, 1⟩ => l.sum
  | ⟨.local, 2⟩ => l.round
  | ⟨.local, 3⟩ => l.index
  | ⟨.local, 4⟩ => l.lastIndex
  | ⟨.local, _⟩ => .undefined

def enterRouter (args : List JSValue) (functions : Nat → JSValue) :
    State (List (List JSValue)) where
  pc := 0
  stack := []
  slots := routerSlots args functions ⟨.undefined, .undefined, .undefined, .undefined, .undefined⟩
  heap := []

section

variable {args : List JSValue} {functions : Nat → JSValue} {l : RouterLocals} (v : JSValue)

theorem routerSlots_update {k : Nat} {l' : RouterLocals}
    (hsame : routerSlots args functions l' ⟨.local, k⟩ = v)
    (hother : ∀ j, j ≠ k → routerSlots args functions l' ⟨.local, j⟩ =
      routerSlots args functions l ⟨.local, j⟩) :
    Function.update (routerSlots args functions l) ⟨.local, k⟩ v =
      routerSlots args functions l' := by
  funext slot
  obtain ⟨kind, index⟩ := slot
  cases kind with
  | argument => rw [Function.update_of_ne (by simp)]; rfl
  | varRef => rw [Function.update_of_ne (by simp)]; rfl
  | «local» =>
    by_cases hk : index = k
    · subst hk
      rw [Function.update_self, hsame]
    · rw [Function.update_of_ne (by simpa using hk), hother index hk]

@[simp] theorem routerSlots_update_callbacks :
    Function.update (routerSlots args functions l) ⟨.local, 0⟩ v =
      routerSlots args functions { l with callbacks := v } := by
  refine routerSlots_update v rfl ?_
  rintro (_ | _ | _ | _ | _ | j) hj <;> first | rfl | exact absurd rfl hj

@[simp] theorem routerSlots_update_sum :
    Function.update (routerSlots args functions l) ⟨.local, 1⟩ v =
      routerSlots args functions { l with sum := v } := by
  refine routerSlots_update v rfl ?_
  rintro (_ | _ | _ | _ | _ | j) hj <;> first | rfl | exact absurd rfl hj

@[simp] theorem routerSlots_update_round :
    Function.update (routerSlots args functions l) ⟨.local, 2⟩ v =
      routerSlots args functions { l with round := v } := by
  refine routerSlots_update v rfl ?_
  rintro (_ | _ | _ | _ | _ | j) hj <;> first | rfl | exact absurd rfl hj

@[simp] theorem routerSlots_update_index :
    Function.update (routerSlots args functions l) ⟨.local, 3⟩ v =
      routerSlots args functions { l with index := v } := by
  refine routerSlots_update v rfl ?_
  rintro (_ | _ | _ | _ | _ | j) hj <;> first | rfl | exact absurd rfl hj

@[simp] theorem routerSlots_update_lastIndex :
    Function.update (routerSlots args functions l) ⟨.local, 4⟩ v =
      routerSlots args functions { l with lastIndex := v } := by
  refine routerSlots_update v rfl ?_
  rintro (_ | _ | _ | _ | _ | j) hj <;> first | rfl | exact absurd rfl hj

end

theorem numeric_and_one (n : Nat) :
    numeric .and n 1 = some (.number ((n : ℤ) % 2)) := by
  have hnat : (toBits (n : ℤ) &&& toBits 1).toNat = n % 2 := by
    have hone : toBits 1 = 1#32 := rfl
    rw [hone, BitVec.toNat_and, toBits, BitVec.toNat_ofInt, BitVec.toNat_ofNat, Nat.and_one_is_mod]
    omega
  have hbits : numeric .and n 1 =
      some (ofBits (toBits (n : ℤ) &&& toBits 1)) := rfl
  rw [hbits, ofBits, BitVec.toInt_eq_toNat_of_lt (by omega), hnat, Int.natCast_emod]
  rfl

theorem numeric_or_zero (n : ℤ) :
    numeric .or n 0 = some (ofBits (toBits n)) := by
  have hbits : numeric .or n 0 = some (ofBits (toBits n ||| toBits 0)) := rfl
  rw [hbits, show toBits 0 = 0#32 from rfl, BitVec.or_zero]

theorem numeric_add (m n : ℤ) : numeric .add m n = some (.number (m + n)) := rfl

section

variable {w : World} {callees : Nat → Option LeafFunction} {base : Nat} {b : FunctionBytecode}
  {args : List JSValue} {functions : Nat → JSValue}

abbrev RouterRuns (w : World) (callees : Nat → Option LeafFunction) (base : Nat)
    (b : FunctionBytecode) : State (List (List JSValue)) → State (List (List JSValue)) → Prop :=
  Runs (stepFunction (routerOps w callees base) b) fun _ => True

theorem piece_runs {is : List FunctionInsn} {p q : Nat} {st st' : List JSValue}
    {slots slots' : Slot → JSValue} {arrays arrays' : List (List JSValue)}
    (hcode : SpellsFunction b.code p is q) (hs : is.all FunctionInsn.straight = true)
    (he : execFunctionAll (routerOps w callees base) b.cpool is ⟨p, st, slots, arrays⟩ =
      some ⟨p, st', slots', arrays'⟩) :
    RouterRuns w callees base b ⟨p, st, slots, arrays⟩ ⟨q, st', slots', arrays'⟩ :=
  (execFunctionAll_runs (List.all_eq_true.mp hs) hcode he).mono fun _ _ => trivial

section

variable {cpool : List JSValue} {l : RouterLocals} {arrays : List (List JSValue)} {p : Nat}
  {st : List JSValue}

def startLocals (base : Nat) : RouterLocals :=
  ⟨.object base, .number 0, .number 0, .undefined, .undefined⟩

theorem exec_prologue :
    execFunctionAll (routerOps w callees base) cpool prologue (enterRouter args functions) =
      some ⟨0, [], routerSlots args functions (startLocals base),
        [[functions 0, functions 1]]⟩ := by
  let initial := routerSlots args functions
    ⟨.undefined, .undefined, .undefined, .undefined, .undefined⟩
  have harray : execFunctionAll (routerOps w callees base) cpool (prologue.take 6)
      (enterRouter args functions) =
    some ⟨0, [], Function.update (Function.update (Function.update initial ⟨.local, 1⟩
      .uninitialized) ⟨.local, 0⟩ .uninitialized) ⟨.local, 0⟩ (.object base),
      [[functions 0, functions 1]]⟩ := rfl
  have hnumbers (slots : Slot → JSValue) : execFunctionAll (routerOps w callees base) cpool
      (prologue.drop 6) ⟨0, [], slots, [[functions 0, functions 1]]⟩ =
    some ⟨0, [], Function.update (Function.update (Function.update slots ⟨.local, 1⟩
      (.number 0)) ⟨.local, 2⟩ .uninitialized) ⟨.local, 2⟩ (.number 0),
      [[functions 0, functions 1]]⟩ := rfl
  rw [← List.take_append_drop 6 prologue, execFunctionAll_append harray, hnumbers]
  simp only [initial, routerSlots_update_callbacks, routerSlots_update_sum,
    routerSlots_update_round, startLocals]

theorem exec_outerTest {r n : ℤ} (hr : l.round = .number r) (hn : args[0]? = some (.number n)) :
    execFunctionAll (routerOps w callees base) cpool outerTest
        ⟨p, st, routerSlots args functions l, arrays⟩ =
      some ⟨p, .bool (r < n) :: st, routerSlots args functions l, arrays⟩ := by
  simp [execFunctionAll, outerTest, State.push, routerSlots, hr, hn, numeric]

theorem exec_innerStart :
    execFunctionAll (routerOps w callees base) cpool innerStart
        ⟨p, st, routerSlots args functions l, arrays⟩ =
      some ⟨p, st, routerSlots args functions { l with index := .number 0 }, arrays⟩ := by
  simp [execFunctionAll, innerStart, State.push, State.setSlot]

theorem exec_innerTest {i : ℤ} (hi : l.index = .number i) :
    execFunctionAll (routerOps w callees base) cpool innerTest
        ⟨p, st, routerSlots args functions l, arrays⟩ =
      some ⟨p, .bool (i < 20000) :: st, routerSlots args functions l, arrays⟩ := by
  simp [execFunctionAll, innerTest, State.push, routerSlots, hi, numeric]

theorem exec_nextRound {r : ℤ} (hr : l.round = .number r) :
    execFunctionAll (routerOps w callees base) cpool nextRound
        ⟨p, st, routerSlots args functions l, arrays⟩ =
      some ⟨p, st, routerSlots args functions { l with round := .number (r + 1) }, arrays⟩ := by
  have hget : routerSlots args functions l ⟨.local, 2⟩ = .number r := hr
  simp [execFunctionAll, nextRound, State.push, hget]

theorem exec_checkArray (ha : l.callbacks = .object base) :
    execFunctionAll (routerOps w callees base) cpool checkArray
        ⟨p, st, routerSlots args functions l, arrays⟩ =
      some ⟨p, .bool false :: .object base :: .number 1 :: st, routerSlots args functions l,
        arrays⟩ := by
  simp [execFunctionAll, checkArray, State.push, routerSlots, ha]

theorem exec_replaceCallback {f g : JSValue} :
    execFunctionAll (routerOps w callees base) cpool replaceCallback
        ⟨p, .object base :: .number 1 :: st, routerSlots args functions l, [[f, g]]⟩ =
      some ⟨p, st, routerSlots args functions { l with lastIndex := .number 0 },
        [[f, functions 2]]⟩ := by
  let ops := routerOps w callees base
  have hkeys : execFunctionAll ops cpool (replaceCallback.take 8)
      ⟨p, .object base :: .number 1 :: st, routerSlots args functions l, [[f, g]]⟩ =
    some ⟨p, functions 2 :: .number 1 :: .object base :: st, routerSlots args functions l,
      [[f, g]]⟩ := rfl
  have hput : execFunction ops cpool (.base (.plain .putArrayEl))
      ⟨p, functions 2 :: .number 1 :: .object base :: st, routerSlots args functions l,
        [[f, g]]⟩ p =
    some ⟨p, st, routerSlots args functions l, [[f, functions 2]]⟩ := by
    simp [ops, routerOps]
  have hindex : execFunctionAll ops cpool (replaceCallback.drop 9)
      ⟨p, st, routerSlots args functions l, [[f, functions 2]]⟩ =
    some ⟨p, st, Function.update (Function.update (routerSlots args functions l) ⟨.local, 4⟩
      .uninitialized) ⟨.local, 4⟩ (.number 0), [[f, functions 2]]⟩ := rfl
  rw [show replaceCallback = replaceCallback.take 8 ++
      .base (.plain .putArrayEl) :: replaceCallback.drop 9 from rfl,
    execFunctionAll_append hkeys, execFunctionAll_cons hput, hindex, Function.update_idem,
    routerSlots_update_lastIndex]

theorem exec_lastTest {i : ℤ} (hi : l.lastIndex = .number i) :
    execFunctionAll (routerOps w callees base) cpool lastTest
        ⟨p, st, routerSlots args functions l, arrays⟩ =
      some ⟨p, .bool (i < 5000) :: st, routerSlots args functions l, arrays⟩ := by
  simp [execFunctionAll, lastTest, State.push, routerSlots, hi, numeric]

theorem exec_returnSum {sum : BitVec 32} (hsum : l.sum = ofBits sum) :
    execFunctionAll (routerOps w callees base) cpool returnSum
        ⟨p, st, routerSlots args functions l, arrays⟩ =
      some ⟨p, ofBits sum :: st, routerSlots args functions l, arrays⟩ := by
  have hget : routerSlots args functions l ⟨.local, 1⟩ = .number sum.toInt := hsum
  simp [execFunctionAll, returnSum, State.push, hget, numeric_or_zero, OSR.toBits_toInt]

theorem execFunction_getArrayEl2 (i o o' : Nat) (slots : Slot → JSValue) :
    execFunction (routerOps w callees base) cpool .getArrayEl2
        ⟨p, .number ((i : ℤ) % 2) :: .object base :: st, slots, [[.object o, .object o']]⟩ p =
      some ⟨p, .object (if i % 2 = 1 then o' else o) :: .object base :: st, slots,
        [[.object o, .object o']]⟩ := by
  have hbit : i % 2 = 0 ∨ i % 2 = 1 := by omega
  rw [show (i : ℤ) % 2 = ((i % 2 : Nat) : ℤ) from rfl]
  rcases hbit with hbit | hbit <;> rw [hbit] <;> simp [execFunction, routerOps]

theorem exec_selectCallback {k i o o' : Nat} (ha : l.callbacks = .object base)
    (hk : routerSlots args functions l ⟨.local, k⟩ = .number (i : ℤ))
    (hsum : l.sum ≠ .uninitialized) :
    execFunctionAll (routerOps w callees base) cpool (selectCallback k)
        ⟨p, st, routerSlots args functions l, [[.object o, .object o']]⟩ =
      some ⟨p, .number (i : ℤ) :: .object (if i % 2 = 1 then o' else o) :: .object base ::
        l.sum :: st, routerSlots args functions l, [[.object o, .object o']]⟩ := by
  have hget : routerSlots args functions l ⟨.local, 1⟩ = l.sum := rfl
  have harray : routerSlots args functions l ⟨.local, 0⟩ = .object base := ha
  simp [execFunctionAll, selectCallback, State.push, hget, harray, hk, hsum,
    numeric_and_one, execFunction_getArrayEl2]

theorem execFunction_callLeaf {leaf : LeafFunction} {o : Nat} {x u : ℤ} {this : JSValue}
    {slots : Slot → JSValue} (ho : callees o = some leaf)
    (hr : leaf.interpret w [.number x] = some (.number u)) :
    execFunction (routerOps w callees base) cpool (.base (.callMethod 1))
        ⟨p, .number x :: .object o :: this :: st, slots, arrays⟩ p =
      some ⟨p, .number u :: st, slots, arrays⟩ := by
  simp [execInvoke, routerOps, ho, hr]

theorem exec_addResult {k : Nat} {leaf : LeafFunction} {o : Nat} {x u i : ℤ} {this : JSValue}
    {sum : BitVec 32} (ho : callees o = some leaf)
    (hr : leaf.interpret w [.number x] = some (.number u)) (hsum : l.sum = ofBits sum)
    (hne : k ≠ 1) (hk : routerSlots args functions l ⟨.local, k⟩ = .number i) :
    execFunctionAll (routerOps w callees base) cpool (addResult k)
        ⟨p, .number x :: .object o :: this :: l.sum :: st, routerSlots args functions l, arrays⟩ =
      some ⟨p, st,
        Function.update (routerSlots args functions { l with sum := ofBits (sum + toBits u) })
          ⟨.local, k⟩ (.number (i + 1)), arrays⟩ := by
  have hget : routerSlots args functions l ⟨.local, 1⟩ = .number sum.toInt := hsum
  have hk' : routerSlots args functions { l with sum := ofBits (sum + toBits u) } ⟨.local, k⟩ =
      .number i := by
    rw [← hk, ← routerSlots_update_sum, Function.update_of_ne (by simpa using hne)]
  have hsum' : l.sum = .number sum.toInt := hsum
  have hbits : toBits (sum.toInt + u) = sum + toBits u := by
    rw [OSR.toBits_add, OSR.toBits_toInt]
  simp [execFunctionAll, addResult, execFunction_callLeaf ho hr, State.push, hget, hk', hsum',
    numeric_add, numeric_or_zero, hbits]

end

section

variable {st : List JSValue} {slots : Slot → JSValue} {arrays : List (List JSValue)} {p q t : Nat}

theorem branchFalse_runs {c : Bool} (hd : decode b.code p = some (.ifFalse t .w8, q)) :
    RouterRuns w callees base b ⟨p, .bool c :: st, slots, arrays⟩
      ⟨if c then q else t, st, slots, arrays⟩ := by
  refine .one trivial ?_
  rw [stepFunction_of_decode (decodeFunction_base hd)]
  cases c <;> simp [execFunction, exec, truthy, jump]

theorem branchTrue_runs {t : ℤ} (hd : decode b.code p = some (.ifTrue t .w8, q)) :
    RouterRuns w callees base b ⟨p, .bool false :: st, slots, arrays⟩ ⟨q, st, slots, arrays⟩ := by
  refine .one trivial ?_
  rw [stepFunction_of_decode (decodeFunction_base hd)]
  simp [execFunction, exec, truthy]

theorem goto_runs (hd : decode b.code p = some (.goto t .w8, q)) :
    RouterRuns w callees base b ⟨p, st, slots, arrays⟩ ⟨t, st, slots, arrays⟩ := by
  refine .one trivial ?_
  rw [stepFunction_of_decode (decodeFunction_base hd)]
  simp [execFunction, exec, jump]

end

section

variable {d : Displacements}

theorem readSigned_byte {code : List UInt8} {p : Nat} {byte : UInt8} (h : code[p]? = some byte) :
    readSigned code p 1 =
      some (if (byte.toNat : ℤ) < 2 ^ 7 then (byte.toNat : ℤ) else byte.toNat - 2 ^ 8) := by
  have hbytes : readBytes code p 1 = some byte.toNat := by simp [readBytes, h]
  simp only [readSigned, hbytes, Option.bind_eq_bind, Option.bind_some, Option.pure_def,
    Option.map_some, mul_one, Nat.reduceSub]

theorem decode_ifFalse8 {code : List UInt8} {p t : Nat} (byte : UInt8) (hop : code[p]? = some 241)
    (hbyte : code[p + 1]? = some byte) (ht : (p + 1 : ℤ) +
      (if (byte.toNat : ℤ) < 2 ^ 7 then (byte.toNat : ℤ) else byte.toNat - 2 ^ 8) = t) :
    decode code p = some (.ifFalse t .w8, p + 2) := by
  have hencoding : opcodeTable.lookup 241 = some (.label8 fun t => .ifFalse t .w8) := by rfl
  simp [decode, hop, hencoding, Encoding.read, readSigned_byte hbyte, ← ht]

theorem decode_goto8 {code : List UInt8} {p t : Nat} (byte : UInt8) (hop : code[p]? = some 243)
    (hbyte : code[p + 1]? = some byte) (ht : (p + 1 : ℤ) +
      (if (byte.toNat : ℤ) < 2 ^ 7 then (byte.toNat : ℤ) else byte.toNat - 2 ^ 8) = t) :
    decode code p = some (.goto t .w8, p + 2) := by
  have hencoding : opcodeTable.lookup 243 = some (.label8 fun t => .goto t .w8) := by rfl
  simp [decode, hop, hencoding, Encoding.read, readSigned_byte hbyte, ← ht]

theorem decode_outerExit (h : d.outer = 65) :
    decode (routerCode d) 24 = some (.ifFalse (90 : Nat) .w8, 26) :=
  decode_ifFalse8 65 rfl (congrArg some h) (by decide)

theorem decode_innerExit (h : d.inner = 41) :
    decode (routerCode d) 38 = some (.ifFalse (80 : Nat) .w8, 40) :=
  decode_ifFalse8 41 rfl (congrArg some h) (by decide)

theorem decode_innerBack (h : d.innerBack = 208) :
    decode (routerCode d) 78 = some (.goto (31 : Nat) .w8, 80) :=
  decode_goto8 208 rfl (congrArg some h) (by decide)

theorem decode_outerBack (h : d.outerBack = 186) :
    decode (routerCode d) 88 = some (.goto (19 : Nat) .w8, 90) :=
  decode_goto8 186 rfl (congrArg some h) (by decide)

theorem decode_nullish (d : Displacements) :
    ∃ t, decode (routerCode d) 97 = some (.ifTrue t .w8, 99) := by
  have hencoding : opcodeTable.lookup 242 = some (.label8 fun t => .ifTrue t .w8) := by rfl
  have hread := readSigned_byte (show (routerCode d)[97 + 1]? = some d.nullish from rfl)
  have hop : (routerCode d)[97]? = some 242 := rfl
  refine ⟨98 + if (d.nullish.toNat : ℤ) < 2 ^ 7 then (d.nullish.toNat : ℤ)
    else d.nullish.toNat - 2 ^ 8, ?_⟩
  simp [decode, hop, hencoding, Encoding.read, hread]

theorem decode_lastExit (h : d.last = 37) :
    decode (routerCode d) 121 = some (.ifFalse (159 : Nat) .w8, 123) :=
  decode_ifFalse8 37 rfl (congrArg some h) (by decide)

theorem decode_lastBack (h : d.lastBack = 212) :
    decode (routerCode d) 157 = some (.goto (114 : Nat) .w8, 159) :=
  decode_goto8 212 rfl (congrArg some h) (by decide)

end

def sumResults (results : Nat → ℤ) (n : Nat) (sum : BitVec 32) : BitVec 32 :=
  (List.range n).foldl (fun sum i => sum + toBits (results i)) sum

theorem sumResults_succ (results : Nat → ℤ) (n : Nat) (sum : BitVec 32) :
    sumResults results (n + 1) sum = sumResults results n sum + toBits (results n) := by
  rw [sumResults, List.range_succ, List.foldl_append]
  rfl

def sumRounds (results : Nat → Nat → ℤ) (n : Nat) : BitVec 32 :=
  (List.range n).foldl (fun sum r => sumResults (results r) 20000 sum) 0

theorem sumRounds_succ (results : Nat → Nat → ℤ) (n : Nat) :
    sumRounds results (n + 1) = sumResults (results n) 20000 (sumRounds results n) := by
  rw [sumRounds, List.range_succ, List.foldl_append, List.foldl_cons, List.foldl_nil, sumRounds]

abbrev routerAt (args : List JSValue) (functions : Nat → JSValue) (first second : JSValue)
    (p : Nat) (l : RouterLocals) : State (List (List JSValue)) :=
  ⟨p, [], routerSlots args functions l, [[first, second]]⟩

def Answers (w : World) (even odd : LeafFunction) (i : Nat) (x u : ℤ) : Prop :=
  (if i % 2 = 1 then odd else even).interpret w [.number x] = some (.number u)

section

variable {d : Displacements} {even odd : LeafFunction} {o o' : Nat} {l : RouterLocals}
  {arrays : List (List JSValue)} {results : Nat → ℤ} {sum : BitVec 32}

theorem selected_callee {i : Nat} (heven : callees o = some even) (hodd : callees o' = some odd) :
    callees (if i % 2 = 1 then o' else o) = some (if i % 2 = 1 then odd else even) := by
  split
  · exact hodd
  · exact heven

theorem innerTest_runs (hb : b.code = routerCode d) (hinner : d.inner = 41) {i : ℤ}
    (hi : l.index = .number i) {t : Nat}
    (ht : t = if i < 20000 then 40 else 80) :
    RouterRuns w callees base b ⟨31, [], routerSlots args functions l, arrays⟩
      ⟨t, [], routerSlots args functions l, arrays⟩ := by
  subst ht
  have htest : RouterRuns w callees base b ⟨31, [], routerSlots args functions l, arrays⟩
      ⟨38, [.bool (i < 20000)], routerSlots args functions l, arrays⟩ :=
    piece_runs (hb ▸ spells_innerTest d) rfl (exec_innerTest hi)
  refine htest.trans ?_
  have hbranch : RouterRuns w callees base b
      ⟨38, [.bool (i < 20000)], routerSlots args functions l, arrays⟩ _ :=
    branchFalse_runs (hb ▸ decode_innerExit hinner)
  simpa only [decide_eq_true_eq] using hbranch

theorem outerTest_runs (hb : b.code = routerCode d) (houter : d.outer = 65) {r n : ℤ}
    (hn : args[0]? = some (.number n)) (hr : l.round = .number r) {t : Nat}
    (ht : t = if r < n then 26 else 90) :
    RouterRuns w callees base b ⟨19, [], routerSlots args functions l, arrays⟩
      ⟨t, [], routerSlots args functions l, arrays⟩ := by
  subst ht
  have htest : RouterRuns w callees base b ⟨19, [], routerSlots args functions l, arrays⟩
      ⟨24, [.bool (r < n)], routerSlots args functions l, arrays⟩ :=
    piece_runs (hb ▸ spells_outerTest d) rfl (exec_outerTest hr hn)
  refine htest.trans ?_
  have hbranch : RouterRuns w callees base b
      ⟨24, [.bool (r < n)], routerSlots args functions l, arrays⟩ _ :=
    branchFalse_runs (hb ▸ decode_outerExit houter)
  simpa only [decide_eq_true_eq] using hbranch

theorem lastTest_runs (hb : b.code = routerCode d) (hlast : d.last = 37) {i : ℤ}
    (hi : l.lastIndex = .number i) {t : Nat}
    (ht : t = if i < 5000 then 123 else 159) :
    RouterRuns w callees base b ⟨114, [], routerSlots args functions l, arrays⟩
      ⟨t, [], routerSlots args functions l, arrays⟩ := by
  subst ht
  have htest : RouterRuns w callees base b ⟨114, [], routerSlots args functions l, arrays⟩
      ⟨121, [.bool (i < 5000)], routerSlots args functions l, arrays⟩ :=
    piece_runs (hb ▸ spells_lastTest d) rfl (exec_lastTest hi)
  refine htest.trans ?_
  have hbranch : RouterRuns w callees base b
      ⟨121, [.bool (i < 5000)], routerSlots args functions l, arrays⟩ _ :=
    branchFalse_runs (hb ▸ decode_lastExit hlast)
  simpa only [decide_eq_true_eq] using hbranch

theorem innerIteration_runs (hb : b.code = routerCode d) (hinner : d.inner = 41)
    (hback : d.innerBack = 208) (heven : callees o = some even) (hodd : callees o' = some odd)
    (ha : l.callbacks = .object base) (hsum : l.sum = ofBits sum) {r i : Nat} {u : ℤ}
    (hr : l.round = .number (r : ℤ)) (hi : l.index = .number (i : ℤ)) (hlt : i < 20000)
    (hu : Answers w even odd i (i + r) u) :
    RouterRuns w callees base b
      (routerAt args functions (.object o) (.object o') 31 l)
      (routerAt args functions (.object o) (.object o') 31
        { l with sum := ofBits (sum + toBits u), index := .number ((i + 1 : Nat) : ℤ) }) := by
  have hindex : routerSlots args functions l ⟨.local, 3⟩ = .number (i : ℤ) := hi
  have hround : routerSlots args functions l ⟨.local, 2⟩ = .number (r : ℤ) := hr
  have htest : RouterRuns w callees base b
      (routerAt args functions (.object o) (.object o') 31 l)
      (routerAt args functions (.object o) (.object o') 40 l) :=
    innerTest_runs hb hinner hi (if_pos (by omega)).symm
  have hargument : execFunctionAll (routerOps w callees base) b.cpool
      [.base (.get ⟨.local, 2⟩ .check), .base (.plain .add)]
      ⟨40, [.number (i : ℤ), .object (if i % 2 = 1 then o' else o), .object base, l.sum],
        routerSlots args functions l, [[.object o, .object o']]⟩ =
      some ⟨40, [.number (i + r : ℤ), .object (if i % 2 = 1 then o' else o), .object base,
        l.sum], routerSlots args functions l, [[.object o, .object o']]⟩ := by
    simp [execFunctionAll, State.push, hround, numeric_add]
  have hbody : execFunctionAll (routerOps w callees base) b.cpool innerBody
      (routerAt args functions (.object o) (.object o') 40 l) =
      some (routerAt args functions (.object o) (.object o') 40
        { l with sum := ofBits (sum + toBits u), index := .number ((i + 1 : Nat) : ℤ) }) := by
    have hselect : execFunctionAll (routerOps w callees base) b.cpool (selectCallback 3)
        (routerAt args functions (.object o) (.object o') 40 l) = some _ :=
      exec_selectCallback ha hindex (by rw [hsum]; intro h; cases h)
    rw [innerBody, execFunctionAll_append ((execFunctionAll_append hselect).trans hargument),
      exec_addResult (selected_callee heven hodd) hu hsum (by decide) hindex]
    simp
  exact (htest.trans (piece_runs (hb ▸ spells_innerBody d) rfl hbody)).trans
    (goto_runs (hb ▸ decode_innerBack hback))

theorem innerLoop_runs (hb : b.code = routerCode d) (hd : d.Loops) (heven : callees o = some even)
    (hodd : callees o' = some odd) (ha : l.callbacks = .object base) (hsum : l.sum = ofBits sum)
    {r : Nat} (hr : l.round = .number (r : ℤ))
    (hu : ∀ i : Nat, i < 20000 → Answers w even odd i (i + r) (results i)) :
    RouterRuns w callees base b
      (routerAt args functions (.object o) (.object o') 31 { l with index := .number 0 })
      (routerAt args functions (.object o) (.object o') 80
        { l with sum := ofBits (sumResults results 20000 sum), index := .number 20000 }) := by
  let head (i : Nat) : State (List (List JSValue)) :=
    (routerAt args functions (.object o) (.object o') 31
      { l with sum := ofBits (sumResults results i sum), index := .number (i : ℤ) })
  have hiterate : RouterRuns w callees base b (head 0) (head 20000) := by
    refine Runs.iterate head 20000 ?_
    intro i hlt
    have hstep : RouterRuns w callees base b (head i) _ :=
      innerIteration_runs
        (l := { l with sum := ofBits (sumResults results i sum), index := .number (i : ℤ) })
        hb hd.inner hd.innerBack heven hodd ha rfl hr rfl hlt (hu i hlt)
    rwa [← sumResults_succ] at hstep
  have hstart : head 0 = (routerAt args functions (.object o) (.object o') 31
    { l with index := .number 0 }) := by
    simp only [head, sumResults, List.range_zero, List.foldl_nil, ← hsum]
    rfl
  rw [← hstart]
  exact hiterate.trans (innerTest_runs hb hd.inner rfl (if_neg (by decide)).symm)

theorem round_runs (hb : b.code = routerCode d) (houter : d.outer = 65) (hd : d.Loops)
    (heven : callees o = some even) (hodd : callees o' = some odd)
    (ha : l.callbacks = .object base) (hsum : l.sum = ofBits sum) {n : ℤ} {r : Nat}
    (hn : args[0]? = some (.number n)) (hr : l.round = .number (r : ℤ)) (hlt : r < n)
    (hu : ∀ i : Nat, i < 20000 → Answers w even odd i (i + r) (results i)) :
    RouterRuns w callees base b
      (routerAt args functions (.object o) (.object o') 19 l)
      (routerAt args functions (.object o) (.object o') 19
        ⟨.object base, ofBits (sumResults results 20000 sum), .number ((r + 1 : Nat) : ℤ),
          .number 20000, l.lastIndex⟩) := by
  have htest : RouterRuns w callees base b
      (routerAt args functions (.object o) (.object o') 19 l)
      (routerAt args functions (.object o) (.object o') 26 l) :=
    outerTest_runs hb houter hn hr (if_pos hlt).symm
  have hstart : RouterRuns w callees base b
      (routerAt args functions (.object o) (.object o') 26 l)
      (routerAt args functions (.object o) (.object o') 31
        { l with index := .number 0 }) := piece_runs (hb ▸ spells_innerStart d) rfl exec_innerStart
  have hinner : RouterRuns w callees base b
      (routerAt args functions (.object o) (.object o') 31 { l with index := .number 0 }) _ :=
    innerLoop_runs hb hd heven hodd ha hsum hr hu
  have hnext : RouterRuns w callees base b
      (routerAt args functions (.object o) (.object o') 80
        { l with sum := ofBits (sumResults results 20000 sum), index := .number 20000 })
      (routerAt args functions (.object o) (.object o') 88
        { l with
          sum := ofBits (sumResults results 20000 sum), round := .number (r + 1 : ℤ),
          index := .number 20000 }) :=
    piece_runs (hb ▸ spells_nextRound d) rfl (exec_nextRound hr)
  rw [← ha]
  exact (((htest.trans hstart).trans hinner).trans hnext).trans
    (goto_runs (hb ▸ decode_outerBack hd.outerBack))

def roundLocals (base : Nat) (results : Nat → Nat → ℤ) (n : Nat) : RouterLocals :=
  ⟨.object base, ofBits (sumRounds results n), .number (n : ℤ),
    if n = 0 then .undefined else .number 20000, .undefined⟩

theorem rounds_run (hb : b.code = routerCode d) (houter : d.outer = 65)
    (heven : callees o = some even) (hodd : callees o' = some odd) {n : Nat}
    (hd : 0 < n → d.Loops) (hn : args[0]? = some (.number (n : ℤ))) {results : Nat → Nat → ℤ}
    (hu : ∀ r, r < n → ∀ i : Nat, i < 20000 → Answers w even odd i (i + r) (results r i)) :
    RouterRuns w callees base b
      (routerAt args functions (.object o) (.object o') 19 (startLocals base))
      (routerAt args functions (.object o) (.object o') 90 (roundLocals base results n)) := by
  let head (r : Nat) : State (List (List JSValue)) :=
    (routerAt args functions (.object o) (.object o') 19 (roundLocals base results r))
  have hiterate : RouterRuns w callees base b (head 0) (head n) := by
    refine Runs.iterate head n ?_
    intro r hlt
    have hstep : RouterRuns w callees base b (head r) _ :=
      round_runs (l := roundLocals base results r) hb houter (hd (by omega)) heven hodd rfl rfl hn
        rfl (by exact_mod_cast hlt) (hu r hlt)
    rw [← sumRounds_succ] at hstep
    exact hstep
  exact hiterate.trans (outerTest_runs hb houter hn rfl (if_neg (lt_irrefl _)).symm)

theorem replacement_runs (hb : b.code = routerCode d) (ha : l.callbacks = .object base) :
    RouterRuns w callees base b
      (routerAt args functions (.object o) (.object o') 90 l)
      (routerAt args functions (.object o) (functions 2) 114
        { l with lastIndex := .number 0 }) := by
  obtain ⟨t, ht⟩ := decode_nullish d
  have hcheck : RouterRuns w callees base b
      (routerAt args functions (.object o) (.object o') 90 l)
      ⟨97, [.bool false, .object base, .number 1], routerSlots args functions l,
        [[.object o, .object o']]⟩ :=
    piece_runs (hb ▸ spells_checkArray d) rfl (exec_checkArray ha)
  have hbranch : RouterRuns w callees base b
      ⟨97, [.bool false, .object base, .number 1], routerSlots args functions l,
        [[.object o, .object o']]⟩
      ⟨99, [.object base, .number 1], routerSlots args functions l, [[.object o, .object o']]⟩ :=
    branchTrue_runs (hb ▸ ht)
  exact (hcheck.trans hbranch).trans
    (piece_runs (hb ▸ spells_replaceCallback d) rfl exec_replaceCallback)

theorem lastCall_runs (hb : b.code = routerCode d) (hlast : d.last = 37)
    (heven : callees o = some even) (hodd : callees o' = some odd)
    (ha : l.callbacks = .object base) (hsum : l.sum = ofBits sum) {i : Nat} {u : ℤ}
    (hi : l.lastIndex = .number (i : ℤ)) (hlt : i < 5000) (hu : Answers w even odd i i u) :
    RouterRuns w callees base b
      (routerAt args functions (.object o) (.object o') 114 l)
      (routerAt args functions (.object o) (.object o') 157
        { l with sum := ofBits (sum + toBits u), lastIndex := .number ((i + 1 : Nat) : ℤ) }) := by
  have hindex : routerSlots args functions l ⟨.local, 4⟩ = .number (i : ℤ) := hi
  have htest : RouterRuns w callees base b
      (routerAt args functions (.object o) (.object o') 114 l)
      (routerAt args functions (.object o) (.object o') 123 l) :=
    lastTest_runs hb hlast hi (if_pos (by omega)).symm
  have hbody : execFunctionAll (routerOps w callees base) b.cpool lastBody
      (routerAt args functions (.object o) (.object o') 123 l) =
      some (routerAt args functions (.object o) (.object o') 123
        { l with sum := ofBits (sum + toBits u), lastIndex := .number ((i + 1 : Nat) : ℤ) }) := by
    have hselect : execFunctionAll (routerOps w callees base) b.cpool (selectCallback 4)
        (routerAt args functions (.object o) (.object o') 123 l) = some _ :=
      exec_selectCallback ha hindex (by rw [hsum]; intro h; cases h)
    rw [lastBody, execFunctionAll_append hselect,
      exec_addResult (selected_callee heven hodd) hu hsum (by decide) hindex]
    simp
  exact htest.trans (piece_runs (hb ▸ spells_lastBody d) rfl hbody)

theorem lastLoop_runs (hb : b.code = routerCode d) (hd : d.Ends) (heven : callees o = some even)
    (hodd : callees o' = some odd) (ha : l.callbacks = .object base) (hsum : l.sum = ofBits sum)
    (hu : ∀ i : Nat, i < 5000 → Answers w even odd i i (results i)) :
    RouterRuns w callees base b
      (routerAt args functions (.object o) (.object o') 114 { l with lastIndex := .number 0 })
      (routerAt args functions (.object o) (.object o') 159
        { l with sum := ofBits (sumResults results 5000 sum), lastIndex := .number 5000 }) := by
  let head (i : Nat) : State (List (List JSValue)) :=
    (routerAt args functions (.object o) (.object o') 114
      { l with sum := ofBits (sumResults results i sum), lastIndex := .number (i : ℤ) })
  have hiterate : RouterRuns w callees base b (head 0) (head 5000) := by
    refine Runs.iterate head 5000 ?_
    intro i hlt
    have hstep : RouterRuns w callees base b (head i) _ :=
      lastCall_runs
        (l := { l with sum := ofBits (sumResults results i sum), lastIndex := .number (i : ℤ) })
        hb hd.last heven hodd ha rfl rfl hlt (hu i hlt)
    rw [← sumResults_succ] at hstep
    exact hstep.trans (goto_runs (hb ▸ decode_lastBack hd.lastBack))
  have hstart : head 0 = (routerAt args functions (.object o) (.object o') 114
    { l with lastIndex := .number 0 }) := by
    simp only [head, sumResults, List.range_zero, List.foldl_nil, ← hsum]
    rfl
  rw [← hstart]
  exact hiterate.trans (lastTest_runs hb hd.last rfl (if_neg (by decide)).symm)

end

theorem router_returns {d : Displacements} {first second replacement : LeafFunction}
    {o o' o'' n : Nat} (hb : b.code = routerCode d) (hends : d.Ends) (hloops : 0 < n → d.Loops)
    (hfunctions : functions 0 = .object o ∧ functions 1 = .object o' ∧ functions 2 = .object o'')
    (hfirst : callees o = some first) (hsecond : callees o' = some second)
    (hreplacement : callees o'' = some replacement) (hn : args[0]? = some (.number (n : ℤ)))
    {results : Nat → Nat → ℤ} {lastResults : Nat → ℤ}
    (hu : ∀ r, r < n → ∀ i : Nat, i < 20000 → Answers w first second i (i + r) (results r i))
    (hlast : ∀ i : Nat, i < 5000 → Answers w first replacement i i (lastResults i)) :
    Returns (routerOps w callees base) b (enterRouter args functions)
      (ofBits (sumResults lastResults 5000 (sumRounds results n))) := by
  obtain ⟨h0, h1, h2⟩ := hfunctions
  have hprologue : RouterRuns w callees base b (enterRouter args functions)
      (routerAt args functions (.object o) (.object o') 19 (startLocals base)) := by
    have hexec : execFunctionAll (routerOps w callees base) b.cpool prologue
        (enterRouter args functions) = _ := exec_prologue
    rw [h0, h1] at hexec
    exact piece_runs (hb ▸ spells_prologue d) rfl hexec
  have hrounds : RouterRuns w callees base b
      (routerAt args functions (.object o) (.object o') 19 (startLocals base)) _ :=
    rounds_run hb hends.outer hfirst hsecond hloops hn hu
  have hreplaced : RouterRuns w callees base b
      (routerAt args functions (.object o) (.object o') 90 (roundLocals base results n))
      (routerAt args functions (.object o) (functions 2) 114
        { roundLocals base results n with lastIndex := .number 0 }) :=
    replacement_runs hb rfl
  rw [h2] at hreplaced
  have hcalls : RouterRuns w callees base b
      (routerAt args functions (.object o) (.object o'') 114
        { roundLocals base results n with lastIndex := .number 0 }) _ :=
    lastLoop_runs hb hends hfirst hreplacement rfl rfl hlast
  have hreturn : RouterRuns w callees base b
      (routerAt args functions (.object o) (.object o'') 159 { roundLocals base results n with
          sum := ofBits (sumResults lastResults 5000 (sumRounds results n)),
          lastIndex := .number 5000 })
      ⟨164, [ofBits (sumResults lastResults 5000 (sumRounds results n))], _,
        [[.object o, .object o'']]⟩ :=
    piece_runs (hb ▸ spells_returnSum d) rfl (exec_returnSum rfl)
  refine ⟨_, 165, (((hprologue.trans hrounds).trans hreplaced).trans hcalls).trans hreturn, ?_, rfl⟩
  rw [hb]
  rfl

theorem stepFunction_return {H : Type} {ops : CallOps H} {b : FunctionBytecode} {s : State H}
    {next : Nat} (hd : decode b.code s.pc = some (.plain .return, next)) :
    stepFunction ops b s = none := by
  rw [stepFunction_of_decode (decodeFunction_base hd), execFunction_plain]
  rfl

theorem Returns.unique {H : Type} {ops : CallOps H} {b : FunctionBytecode} {s : State H}
    {v v' : JSValue} (h : Returns ops b s v) (h' : Returns ops b s v') : v = v' := by
  obtain ⟨t, next, hrun, hd, hv⟩ := h
  obtain ⟨t', next', hrun', hd', hv'⟩ := h'
  have hout : ¬ stepFunction ops b t ≠ none := not_not.mpr (stepFunction_return hd)
  have hout' : ¬ stepFunction ops b t' ≠ none := not_not.mpr (stepFunction_return hd')
  obtain rfl : t = t' := hrun.moving.exit_unique hrun'.moving hout hout'
  rw [hv] at hv'
  exact Option.some.inj hv'

end

end TurboJS.Leaf
