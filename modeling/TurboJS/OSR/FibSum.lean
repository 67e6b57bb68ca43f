import TurboJS.OSR.CallLoop
import Mathlib.Algebra.Order.BigOperators.Group.Finset
import Mathlib.Data.Nat.Fib.Basic

namespace TurboJS.OSR
open Bytecode Foundation

/-! The recursive Fibonacci sum: `acc = acc + fib(base + (i & mask))`. -/

structure FibSumProgram extends CountedLoop where
  functionSlot : Slot
  recursionBase : Nat
  selectionMask : Nat
  deriving DecidableEq, Repr

/-- `OP_call1`, not `OP_call` with the count 1. -/
def parseCall1 (b : FunctionBytecode) (p : Nat) : Option Nat :=
  if b.code[p]? = some 246 then expect b (.call 1) p else none

def detectFibSumLoop (b : FunctionBytecode) (target source : Nat) : Option FibSumProgram := do
  if target ≥ source ∨ source ≥ b.code.length then none
  else
    let header ← parseHeader b target
    let (accumulator, p) ← parseGetScalarSlot b header.body
    let (function, p) ← parseGetScalarSlot b p
    let (base, p) ← scalarConstIn 0 40 b p
    let p ← expectInduction b header.induction p
    let (mask, p) ← scalarConstIn 1 7 b p
    let p ← expectAll b [.plain .and, .plain .add] p
    let p ← parseCall1 b p
    let p ← expect b (.plain .add) p
    let p ← parseAssign b accumulator p
    parseTail b header.induction target source p
    if (mask.toNat + 1) &&& mask.toNat ≠ 0 ∨ base + mask > 40 then none
    else
      let loop ← header.counted b accumulator target
      some ⟨loop, function, base.toNat, mask.toNat⟩

def selfBinding (o : Nat) (f : FunctionObject) : Option (Slot × Nat) :=
  if f.bytecode.varCount = 0 ∧ f.closureVarCount = 1 ∧ f.varRefs 0 = some (.object o) then
    some (⟨.varRef, 0⟩, 0)
  else if f.bytecode.varCount = 1 ∧ f.closureVarCount = 0 ∧ f.varRefCount = 0 then
    match decodeFunction f.bytecode.code 0 with
    | some (.specialObject kind, p) =>
      if kind = specialObjectThisFunc then
        (expect f.bytecode (.put ⟨.local, 0⟩ .short) p).map fun p => (⟨.local, 0⟩, p)
      else none
    | _ => none
  else none

/-- `n < 2 ? n : self(n - 1) + self(n - 2)`, up to the end of the code. -/
def parseFibBody (b : FunctionBytecode) (self : Slot) (p : Nat) : Option Unit := do
  let p ← expectAll b [.get ⟨.argument, 0⟩ .short, .pushShort 2, .plain .lt] p
  let (recursive, p) ← parseBranchTarget b p
  let p ← expect b (.get ⟨.argument, 0⟩ .short) p
  let p ← expect b (.plain .return) p
  if (p : Int) ≠ recursive then none
  else
    let p ← expectAll b [.get self .short, .get ⟨.argument, 0⟩ .short, .pushShort 1, .plain .sub] p
    let p ← parseCall1 b p
    let p ← expectAll b [.get self .short, .get ⟨.argument, 0⟩ .short, .pushShort 2, .plain .sub] p
    let p ← parseCall1 b p
    let p ← expect b (.plain .add) p
    let p ← expect b (.plain .return) p
    if p = b.code.length then some () else none

def isSelfRecursiveFib (functions : Nat → Option FunctionObject) (v : JSValue) : Bool :=
  match v with
  | .object o =>
    match functions o with
    | some f =>
      f.normal && f.bytecode.argCount = 1 &&
        match selfBinding o f with
        | some (self, p) => (parseFibBody f.bytecode self p).isSome
        | none => false
    | none => false
  | _ => false

def fibU32 (n : Nat) : BitVec 32 :=
  (forUp n (fun _ (ab : BitVec 32 × BitVec 32) => (ab.2, ab.1 + ab.2)) (0, 1)).1

def FibSumProgram.fibValues (p : FibSumProgram) : List (BitVec 32) :=
  (List.range (p.selectionMask + 1)).map fun k => fibU32 (p.recursionBase + k)

/-- `(uint32_t)i & selection_mask`. -/
def FibSumProgram.selected (p : FibSumProgram) (i : Int) : Nat :=
  (toBits i &&& BitVec.ofNat 32 p.selectionMask).toNat

/-- An entry in this mode; `known` says that the function is the one of the earlier entries. -/
def runFibSum (functions : Nat → Option FunctionObject) (known : Bool) (b : FunctionBytecode)
    (p : FibSumProgram) (slots : Slot → JSValue) : Option OSRExit :=
  if isSelfRecursiveFib functions (slots p.functionSlot) ∧ p.selectionMask + 1 ≤ 8 ∧ known then
    p.runChunk b (fun i stop value =>
      some (iterateTo (fun i value => value + (p.fibValues[p.selected i]?).getD 0) i stop value))
      slots
  else none

section

variable {b : FunctionBytecode} {p q : Nat}

theorem parseCall1_spells (h : parseCall1 b p = some q) : Spells b.code p [.call 1] q := by
  unfold parseCall1 at h
  split at h
  · exact .single (expect_decode h)
  · cases h

theorem parseFibBody_parts {self : Slot} (hb : parseFibBody b self p = some ()) :
    ∃ (p1 p2 p3 p4 p5 last : Nat) (width : Width),
      Spells b.code p [.get ⟨.argument, 0⟩ .short, .pushShort 2, .plain .lt] p1 ∧
      decode b.code p1 = some (.ifFalse p4 width, p2) ∧
      Spells b.code p2 [.get ⟨.argument, 0⟩ .short] p3 ∧
      decode b.code p3 = some (.plain .return, p4) ∧
      Spells b.code p4 [.get self .short, .get ⟨.argument, 0⟩ .short, .pushShort 1, .plain .sub,
        .call 1, .get self .short, .get ⟨.argument, 0⟩ .short, .pushShort 2, .plain .sub, .call 1,
        .plain .add] p5 ∧
      decode b.code p5 = some (.plain .return, last) := by
  simp only [parseFibBody, Option.bind_eq_bind, Option.bind_eq_some_iff] at hb
  obtain ⟨p1, htest, ⟨recursive, p2⟩, hbranch, p3, harg, p4, hreturn, hb⟩ := hb
  split at hb
  · cases hb
  · rename_i hp4
    simp only [Option.bind_eq_some_iff] at hb
    obtain ⟨p5, hfirst, p6, hcall1, p7, hsecond, p8, hcall2, p9, hadd, p10, hret, -⟩ := hb
    obtain ⟨width, hbranch⟩ := parseBranchTarget_decode hbranch
    rw [not_not] at hp4
    simp only at hp4
    rw [← hp4] at hbranch
    exact ⟨p1, p2, p3, p4, p9, p10, width, expectAll_spells htest, hbranch,
      .single (expect_decode harg), expect_decode hreturn,
      ((((expectAll_spells hfirst).append (parseCall1_spells hcall1)).append
        (expectAll_spells hsecond)).append (parseCall1_spells hcall2)).append
        (.single (expect_decode hadd)), expect_decode hret⟩

/-- One activation, when the recursive calls give what they should. -/
theorem parseFibBody_returns {self : Slot} (hb : parseFibBody b self p = some ())
    {ops : CallOps Unit} {slots : Slot → JSValue} {o n : Nat} (hself : slots self = .object o)
    (hn : slots ⟨.argument, 0⟩ = .number n)
    (hcall : ∀ m : Nat, m < n → ops.call () (.object o) .undefined [.number m] =
      some (.number (Nat.fib m), ())) (k : Nat) :
    returned b (advance (stepFunction ops b) (fun _ => true) (15 + k) ⟨p, [], slots, ()⟩) =
      some (.number (Nat.fib n)) := by
  obtain ⟨p1, p2, p3, p4, p5, last, width, htest, hbranch, harg, hreturn, hrec, hret⟩ :=
    parseFibBody_parts hb
  have htest : advance (stepFunction ops b) (fun _ => true) (15 + k) ⟨p, [], slots, ()⟩ =
      advance (stepFunction ops b) (fun _ => true) (12 + k)
        ⟨p1, [.bool (decide ((n : Int) < 2))], slots, ()⟩ := by
    have he : execFunctionAll ops b.cpool
        [.base (.get ⟨.argument, 0⟩ .short), .base (.pushShort 2), .base (.plain .lt)]
        ⟨0, [], slots, ()⟩ = some ⟨0, [.bool (decide ((n : Int) < 2))], slots, ()⟩ := by
      simp [execFunctionAll, State.push, hn, numeric]
    rw [show 15 + k = 3 + (12 + k) by omega]
    exact execFunctionAll_advance rfl htest.function he (12 + k)
  have hbranch : stepFunction ops b ⟨p1, [.bool (decide ((n : Int) < 2))], slots, ()⟩ =
      some ⟨if n < 2 then p2 else p4, [], slots, ()⟩ := by
    rw [stepFunction_of_decode (decodeFunction_base hbranch)]
    by_cases hlt : n < 2
    · have hlt' : ((n : Int) < 2) := by omega
      simp [execFunction, exec, truthy, hlt, hlt']
    · have hlt' : ¬ ((n : Int) < 2) := by omega
      simp [execFunction, exec, truthy, jump, hlt, hlt']
  rw [htest, show 12 + k = (11 + k) + 1 by omega, advance_step hbranch]
  by_cases hlt : n < 2
  · rw [if_pos hlt]
    have he : execFunctionAll ops b.cpool [.base (.get ⟨.argument, 0⟩ .short)]
        ⟨0, [], slots, ()⟩ = some ⟨0, [.number n], slots, ()⟩ := by
      simp [execFunctionAll, State.push, hn]
    have hfib : Nat.fib n = n := by
      obtain rfl | rfl : n = 0 ∨ n = 1 := by omega
      · rfl
      · rfl
    rw [show 11 + k = 1 + (10 + k) by omega]
    have harg : advance (stepFunction ops b) (fun _ => true) (1 + (10 + k)) ⟨p2, [], slots, ()⟩ =
        advance (stepFunction ops b) (fun _ => true) (10 + k) ⟨p3, [.number n], slots, ()⟩ :=
      execFunctionAll_advance rfl harg.function he (10 + k)
    rw [harg, advance_return hreturn, returned, hfib]
    simp only [hreturn]
  · rw [if_neg hlt]
    have hsum : ((Nat.fib (n - 1) : Int) + Nat.fib (n - 2)) = Nat.fib n := by
      obtain ⟨m, rfl⟩ : ∃ m, n = m + 2 := ⟨n - 2, by omega⟩
      rw [Nat.fib_add_two]
      push_cast
      exact Int.add_comm _ _
    have he : execFunctionAll ops b.cpool
        [.base (.get self .short), .base (.get ⟨.argument, 0⟩ .short), .base (.pushShort 1),
          .base (.plain .sub), .base (.call 1), .base (.get self .short),
          .base (.get ⟨.argument, 0⟩ .short), .base (.pushShort 2), .base (.plain .sub),
          .base (.call 1), .base (.plain .add)]
        ⟨0, [], slots, ()⟩ = some ⟨0, [.number (Nat.fib n)], slots, ()⟩ := by
      have h1 : ops.call () (.object o) .undefined [.number ((n : Int) - 1)] =
          some (.number (Nat.fib (n - 1)), ()) := by
        rw [show (n : Int) - 1 = ((n - 1 : Nat) : Int) by omega]
        exact hcall (n - 1) (by omega)
      have h2 : ops.call () (.object o) .undefined [.number ((n : Int) - 2)] =
          some (.number (Nat.fib (n - 2)), ()) := by
        rw [show (n : Int) - 2 = ((n - 2 : Nat) : Int) by omega]
        exact hcall (n - 2) (by omega)
      simp [execFunctionAll, State.push, hn, hself, numeric, execInvoke, h1, h2, hsum]
    have hrec : advance (stepFunction ops b) (fun _ => true) (11 + k) ⟨p4, [], slots, ()⟩ =
        advance (stepFunction ops b) (fun _ => true) k
          ⟨p5, [.number (Nat.fib n)], slots, ()⟩ :=
      execFunctionAll_advance rfl hrec.function he k
    rw [hrec, advance_return hret, returned]
    simp only [hret]

theorem selfBinding_enters {o : Nat} {f : FunctionObject} {self : Slot}
    (hs : selfBinding o f = some (self, p)) {ops : CallOps Unit} (hops : ops.thisFunction = .object o)
    (n : Nat) :
    ∃ (used : Nat) (slots : Slot → JSValue), used ≤ 2 ∧ slots self = .object o ∧
      slots ⟨.argument, 0⟩ = .number n ∧
      ∀ k, advance (stepFunction ops f.bytecode) (fun _ => true) (used + k) (f.enter [.number n]) =
        advance (stepFunction ops f.bytecode) (fun _ => true) k ⟨p, [], slots, ()⟩ := by
  unfold selfBinding at hs
  split at hs
  · rename_i hc
    cases hs
    refine ⟨0, (f.enter [.number n]).slots, by omega, ?_, rfl, fun k => by rw [Nat.zero_add]; rfl⟩
    simp [FunctionObject.enter, hc.2.2]
  · split at hs
    · split at hs
      · rename_i kind p1 hd
        split at hs
        · rename_i hk
          subst hk
          obtain ⟨p2, hput, he⟩ := Option.map_eq_some_iff.mp hs
          cases he
          have hcode : SpellsFunction f.bytecode.code 0
              [.specialObject specialObjectThisFunc, .base (.put ⟨.local, 0⟩ .short)] p :=
            ⟨p1, hd, p, decodeFunction_base (expect_decode hput), rfl⟩
          refine ⟨2, Function.update (f.enter [.number n]).slots ⟨.local, 0⟩ (.object o), by omega,
            by simp, by simp [FunctionObject.enter], ?_⟩
          have he : execFunctionAll ops f.bytecode.cpool
              [.specialObject specialObjectThisFunc, .base (.put ⟨.local, 0⟩ .short)]
              (f.enter [.number n]) = some ⟨0, [],
                Function.update (f.enter [.number n]).slots ⟨.local, 0⟩ (.object o), ()⟩ := by
            simp [execFunctionAll, execFunction, exec, State.push, State.setSlot, hops,
              FunctionObject.enter]
          exact execFunctionAll_advance (s := f.enter [.number n]) rfl hcode he
        · cases hs
      · cases hs
    · cases hs

theorem isSelfRecursiveFib_parts {functions : Nat → Option FunctionObject} {v : JSValue}
    (h : isSelfRecursiveFib functions v = true) :
    ∃ o f self p, v = .object o ∧ functions o = some f ∧ selfBinding o f = some (self, p) ∧
      parseFibBody f.bytecode self p = some () := by
  unfold isSelfRecursiveFib at h
  split at h
  · rename_i o
    split at h
    · rename_i f hf
      split at h
      · rename_i self p hs
        simp only [Bool.and_eq_true, Option.isSome_iff_exists] at h
        obtain ⟨-, u, hu⟩ := h
        exact ⟨o, f, self, p, rfl, hf, hs, hu⟩
      · simp at h
    · cases h
  · cases h

theorem callFunction_fib {functions : Nat → Option FunctionObject} {v : JSValue}
    (h : isSelfRecursiveFib functions v = true) {steps : Nat} (hsteps : 17 ≤ steps) {depth n : Nat}
    (hn : n < depth) : callFunction functions steps depth v [.number n] = some (.number (Nat.fib n)) := by
  obtain ⟨o, f, self, p, rfl, hf, hs, hbody⟩ := isSelfRecursiveFib_parts h
  induction depth generalizing n with
  | zero => omega
  | succ depth ih =>
    let ops := callsOnly (.object o) (callFunction functions steps depth)
    obtain ⟨used, slots, hused, hself, harg, henter⟩ :=
      selfBinding_enters hs (show ops.thisFunction = .object o from rfl) n
    have hcall : ∀ m : Nat, m < n → ops.call () (.object o) .undefined [.number m] =
        some (.number (Nat.fib m), ()) := by
      intro m hm
      exact congrArg (Option.map fun v => (v, ())) (ih (n := m) (by omega))
    obtain ⟨k, rfl⟩ : ∃ k, steps = used + (15 + k) := ⟨steps - used - 15, by omega⟩
    have hbody := parseFibBody_returns hbody hself harg hcall k
    rw [callFunction, hf]
    simp only [Option.bind_eq_bind, Option.bind_some]
    exact (congrArg (returned f.bytecode) (henter (15 + k))).trans hbody

end

theorem fibU32_eq (n : Nat) : fibU32 n = toBits (Nat.fib n) := by
  have hpair : forUp n (fun _ (ab : BitVec 32 × BitVec 32) => (ab.2, ab.1 + ab.2)) (0, 1) =
      (toBits (Nat.fib n), toBits (Nat.fib (n + 1))) := by
    refine forUp_induction
      (P := fun k ab => ab = (toBits (Nat.fib k), toBits (Nat.fib (k + 1)))) rfl ?_
    rintro k _ - rfl
    rw [Nat.fib_add_two, Nat.cast_add, toBits_add]
  rw [fibU32, hpair]

namespace FibSumProgram

variable (p : FibSumProgram)

/-- What the interpreted loop adds at `i`. -/
def term (i : Int) : Nat := Nat.fib (p.recursionBase + p.selected i)

/-- What the interpreted loop adds in `n` iterations, from `i` on. -/
def total (i : Int) (n : Nat) : Int := ∑ k ∈ Finset.range n, (p.term (i + k) : Int)

theorem total_succ (i : Int) (n : Nat) : p.total i (n + 1) = p.total i n + p.term (i + n) := by
  rw [total, total, Finset.sum_range_succ]

theorem total_nonneg (i : Int) (n : Nat) : 0 ≤ p.total i n :=
  Finset.sum_nonneg fun _ _ => Int.natCast_nonneg _

theorem total_add (i : Int) (m n : Nat) :
    p.total i (m + n) = p.total i m + p.total (i + m) n := by
  rw [total, total, total, Finset.sum_range_add]
  congr 1
  refine Finset.sum_congr rfl ?_
  intro k _
  rw [Nat.cast_add, Int.add_assoc]

theorem selected_le (i : Int) : p.selected i ≤ p.selectionMask := by
  rw [selected, BitVec.toNat_and]
  refine Nat.and_le_right.trans ?_
  rw [BitVec.toNat_ofNat]
  exact Nat.mod_le _ _

def add (i : Int) (value : BitVec 32) : BitVec 32 :=
  value + (p.fibValues[p.selected i]?).getD 0

theorem add_toBits (i a : Int) : p.add i (toBits a) = toBits (a + p.term i) := by
  have hlt : p.selected i < p.selectionMask + 1 := Nat.lt_succ_of_le (p.selected_le i)
  rw [add, fibValues, List.getElem?_map, List.getElem?_range hlt, Option.map_some,
    Option.getD_some, fibU32_eq, toBits_add, term]

theorem iterate_toBits (i a : Int) (n : Nat) :
    iterateTo p.add i (i + n) (toBits a) = toBits (a + p.total i n) := by
  induction n with
  | zero => simp [iterateTo_self, total]
  | succ n ih =>
    rw [Nat.cast_succ, ← Int.add_assoc, iterateTo_succ p.add (by omega), ih, add_toBits,
      total_succ, Int.add_assoc]

end FibSumProgram

section

variable {functions : Nat → Option FunctionObject} {b : FunctionBytecode} {p : FibSumProgram}
  {slots : Slot → JSValue} {out : OSRExit}

theorem runFibSum_chunk (h : runFibSum functions true b p slots = some out) :
    isSelfRecursiveFib functions (slots p.functionSlot) = true ∧
      p.runChunk b (fun i stop value => some (iterateTo p.add i stop value)) slots = some out := by
  unfold runFibSum at h
  split at h
  · rename_i hc
    exact ⟨hc.1, h⟩
  · cases h

/-- The slots after `n` iterations from `i` on, with the limit `l`, and where that leaves the
runner: the sum modulo 2^32. -/
structure SumsTo (p : FibSumProgram) (slots : Slot → JSValue) (out : OSRExit) (i l acc : Int)
    (n : Nat) : Prop where
  induction : slots ⟨.local, p.induction⟩ = .number i
  limit : LimitIs p.limit p.limitSlot slots l
  accumulator : slots p.accumulatorSlot = .number acc
  int32 : int32Min ≤ acc ∧ acc ≤ int32Max
  le : i + n ≤ l
  apart : n ≠ 0 → p.Apart
  slots : out.slots = p.frame slots (ofBits (toBits (acc + p.total i n))) (i + n)
  resume : out.resume = if i + n < l then p.loopHeader else p.resume

theorem fibSum_entry (hfaithful : p.Faithful b slots) (hv : p.induction < b.varCount)
    (h : runFibSum functions true b p slots = some out) :
    ∃ i l acc n, SumsTo p slots out i l acc n := by
  obtain ⟨i, l, acc, value, hi, hl, h0, hil, hacc, hmin, hmax, hk, hslots, hresume, -, -⟩ :=
    CountedLoop.runChunk_outcome hfaithful.1 hv (runFibSum_chunk h).2
  obtain ⟨hlo, hhi⟩ := chunkLimit_le hil
  obtain ⟨n, hn⟩ : ∃ n : Nat, chunkLimit i l = i + n := ⟨(chunkLimit i l - i).toNat, by omega⟩
  rw [hn] at hk hslots hresume hhi
  cases hk
  rw [p.iterate_toBits] at hslots
  refine ⟨i, l, acc, n, hi, hl, hacc, ⟨hmin, hmax⟩, hhi, ?_, hslots, hresume⟩
  intro hne
  rcases hfaithful.2 with hapart | ⟨j, hj, hjl⟩
  · exact hapart
  · -- At the limit no iteration is left.
    have hji : j = i := by
      rw [hi] at hj
      cases hj
      rfl
    have hlj := hl.unique hjl
    omega

theorem fibSum_entries (hfaithful : p.Faithful b slots) (hv : p.induction < b.varCount)
    (h : Entries (runFibSum functions true b p) p.loopHeader slots out) :
    ∃ i l acc n, SumsTo p slots out i l acc n := by
  induction h with
  | last hrun => exact fibSum_entry hfaithful hv hrun
  | @next slots mid out hrun hback rest ih =>
    obtain ⟨i, l, acc, n, hfirst⟩ := fibSum_entry hfaithful hv hrun
    by_cases hapart : p.Apart
    · obtain ⟨i', l', acc', m, hrest⟩ := ih ⟨hfaithful.1, .inl hapart⟩
      obtain rfl : i' = i + n := by
        have hi' := hrest.induction
        rw [hfirst.slots, CountedLoop.frame_induction] at hi'
        cases hi'
        rfl
      obtain rfl : l' = l := by
        have hl' := hrest.limit
        rw [hfirst.slots] at hl'
        exact hl'.unique (CountedLoop.frame_limit hapart hfirst.induction hfirst.limit (by omega)
          hfirst.le)
      have hacc : toBits acc' = toBits (acc + p.total i n) := by
        have hacc := hrest.accumulator
        rw [hfirst.slots, CountedLoop.frame_accumulator hapart] at hacc
        cases hacc
        rw [toBits_toInt]
      refine ⟨i, l', acc, n + m, hfirst.induction, hfirst.limit, hfirst.accumulator, hfirst.int32,
        by have := hrest.le; omega, fun _ => hapart, ?_, ?_⟩
      · rw [hrest.slots, hfirst.slots, CountedLoop.frame_frame hapart, toBits_add, hacc,
          ← toBits_add, p.total_add, Nat.cast_add, Int.add_assoc, Int.add_assoc]
      · rw [hrest.resume, Nat.cast_add, Int.add_assoc]
    · -- Nothing has changed.
      have hn : n = 0 := not_not.mp (mt hfirst.apart hapart)
      subst hn
      have hsame : mid.slots = slots := by
        rw [hfirst.slots, FibSumProgram.total, Finset.sum_range_zero, Nat.cast_zero, Int.add_zero,
          Int.add_zero, ofBits_toBits hfirst.int32, ← hfirst.accumulator,
          CountedLoop.frame_self hfirst.induction]
      rw [hsame] at ih
      exact ih hfaithful

theorem fibTerm_segment (ops : CallOps Unit) {q last : Nat} {accumulator function : Slot}
    {form form' : Form} {induction : Nat} {base mask : Int} {ib im : Insn} (hb : Pushes b ib base)
    (hm : Pushes b im mask)
    (hcode : Spells b.code q [.get accumulator form, .get function form', ib,
      .get ⟨.local, induction⟩ .check, im, .plain .and, .plain .add, .call 1, .plain .add] last)
    (st : List JSValue) {a i fib : Int} (ha : slots accumulator = .number a)
    (hf : slots function ≠ .uninitialized) (hi : slots ⟨.local, induction⟩ = .number i)
    (hcall : ops.call () (slots function) .undefined
      [.number (base + (toBits i &&& toBits mask).toInt)] = some (.number fib, ())) :
    CallSegment ops b q last ⟨q, st, slots, ()⟩ ⟨last, .number (a + fib) :: st, slots, ()⟩ := by
  refine callSegment_execAll ?_ hcode.function (n := 0) (m := 0) ?_
  · simp only [List.map_cons, List.all_cons, FunctionInsn.straight, hb.1, hm.1]
    rfl
  · have hand : numeric .and i mask = some (.number (toBits i &&& toBits mask).toInt) := rfl
    generalize (toBits i &&& toBits mask).toInt = n at hand hcall
    simp only [List.map_cons, List.map_nil]
    rw [execFunctionAll_cons (t := ⟨0, .number a :: st, slots, ()⟩) (by simp [ha, State.push]),
      execFunctionAll_cons (t := ⟨0, slots function :: .number a :: st, slots, ()⟩)
        (by simp [hf, State.push]),
      execFunctionAll_cons (hb.function ops _ _),
      execFunctionAll_cons
        (t := ⟨0, .number i :: .number base :: slots function :: .number a :: st, slots, ()⟩)
        (by simp [hi, State.push]),
      execFunctionAll_cons (hm.function ops _ _),
      execFunctionAll_cons
        (t := ⟨0, .number n :: .number base :: slots function :: .number a :: st, slots, ()⟩)
        (by simp [State.push, hand]),
      execFunctionAll_cons
        (t := ⟨0, .number (base + n) :: slots function :: .number a :: st, slots, ()⟩)
        (by simp [numeric]),
      execFunctionAll_cons (t := ⟨0, .number fib :: .number a :: st, slots, ()⟩)
        (by simp [execInvoke, hcall])]
    simp [execFunctionAll, numeric]

/-- The detected loop as its parts: the interpreted body adds one exact term. -/
theorem detectFibSumLoop_parts {target source : Nat}
    (hp : detectFibSumLoop b target source = some p) :
    ∃ header next, parseHeader b target = some header ∧ 0 ≤ header.resume ∧
      header.induction < b.varCount ∧
      parseTail b header.induction target source next = some () ∧ header.body ≤ next ∧
      p.toCountedLoop = ⟨header.induction, header.limit, header.limitSlot, p.accumulatorSlot,
        target, header.resume.toNat⟩ ∧
      ∀ (functions : Nat → Option FunctionObject) (this : JSValue) (steps depth : Nat)
        (st : List JSValue) (slots : Slot → JSValue) (i a : Int),
        17 ≤ steps → 40 < depth →
        isSelfRecursiveFib functions (slots p.functionSlot) = true →
        slots p.accumulatorSlot = .number a → slots ⟨.local, header.induction⟩ = .number i →
        CallSegment (callsOnly this (callFunction functions steps depth)) b header.body next
          ⟨header.body, st, slots, ()⟩
          ⟨next, st, Function.update slots p.accumulatorSlot (.number (a + p.term i)), ()⟩ := by
  unfold detectFibSumLoop at hp
  split at hp
  · cases hp
  · simp only [Option.bind_eq_bind, Option.bind_eq_some_iff] at hp
    obtain ⟨header, hh, ⟨accumulator, p1⟩, hacc, ⟨function, p2⟩, hfun, ⟨base, p3⟩, hbase, p4, hind,
      ⟨mask, p5⟩, hmask, p6, hops, p7, hcall, p8, hadd, next, hassign, u, ht, hp⟩ := hp
    split at hp
    · cases hp
    · rename_i hbound
      simp only [Option.bind_eq_some_iff] at hp
      obtain ⟨loop, hcount, he⟩ := hp
      obtain ⟨hr, hv, rfl⟩ := LoopHeader.counted_spec hcount
      cases he
      obtain ⟨hbase, hbase0, -⟩ := scalarConstIn_spec hbase
      obtain ⟨hmask, hmask0, -⟩ := scalarConstIn_spec hmask
      obtain ⟨form, hacc⟩ := parseGetScalarSlot_spells hacc
      obtain ⟨form', hfun⟩ := parseGetScalarSlot_spells hfun
      obtain ⟨ib, hbase, hb⟩ := scalarConst_pushes hbase
      obtain ⟨im, hmask, hm⟩ := scalarConst_pushes hmask
      have hcode := ((((((hacc.append hfun).append hbase).append
        (.single (expect_decode hind))).append hmask).append (expectAll_spells hops)).append
        (parseCall1_spells hcall)).append (.single (expect_decode hadd))
      obtain ⟨form'', hstore⟩ := parseAssign_spells hassign
      have h1 := hcode.le
      have h2 := hstore.le
      refine ⟨header, next, hh, hr, hv, ht, by omega, rfl, ?_⟩
      intro functions this steps depth st slots i a hsteps hdepth hfib ha hi
      simp only at ha hfib
      obtain ⟨mask, rfl⟩ := Int.eq_ofNat_of_zero_le (show 0 ≤ mask by omega)
      obtain ⟨base, rfl⟩ := Int.eq_ofNat_of_zero_le hbase0
      simp only [Int.toNat_natCast]
      generalize hprogram : (FibSumProgram.mk ⟨header.induction, header.limit, header.limitSlot,
        accumulator, target, header.resume.toNat⟩ function base mask) = program
      have hsel : (toBits i &&& toBits mask).toInt = program.selected i := by
        subst hprogram
        have hle := FibSumProgram.selected_le ⟨⟨header.induction, header.limit, header.limitSlot,
          accumulator, target, header.resume.toNat⟩, function, base, mask⟩ i
        simp only [FibSumProgram.selected] at hle ⊢
        rw [show toBits (mask : Int) = BitVec.ofNat 32 mask from BitVec.ofInt_natCast 32 mask,
          BitVec.toInt_eq_toNat_of_lt (by omega)]
      have hle := program.selected_le i
      have hn : base + program.selected i < depth := by
        subst hprogram
        simp only at hle
        omega
      have hcall := callFunction_fib hfib hsteps hn
      have hseg : CallSegment (callsOnly this (callFunction functions steps depth)) b header.body p8
          ⟨header.body, st, slots, ()⟩ ⟨p8, .number (a + program.term i) :: st, slots, ()⟩ := by
        refine fibTerm_segment _ hb hm hcode st ha ?_ hi ?_
        · obtain ⟨o, f, self, q, hv, -⟩ := isSelfRecursiveFib_parts hfib
          simp [hv]
        · rw [hsel]
          subst hprogram
          exact congrArg (Option.map fun v => (v, ())) hcall
      have hput := (parseAssign_segment (callsOnly this (callFunction functions steps depth)) st
        slots () (.number (a + program.term i)) hassign (by rw [ha]; simp)).2
      exact hseg.append hput h1 h2

def FibSumProgram.exact (p : FibSumProgram) (slots : Slot → JSValue) (i acc : Int) (n : Nat) :
    Slot → JSValue :=
  p.frame slots (.number (acc + p.total i n)) (i + n)

/-- The interpreter makes the same number of iterations with the exact sum. -/
theorem fibSum_interpreted {target source : Nat} (hp : detectFibSumLoop b target source = some p)
    (hfaithful : p.Faithful b slots) {steps depth : Nat} (hsteps : 17 ≤ steps) (hdepth : 40 < depth)
    (hfib : isSelfRecursiveFib functions (slots p.functionSlot) = true) {i l acc : Int} {n : Nat}
    (hsum : SumsTo p slots out i l acc n) (this : JSValue) (st : List JSValue) :
    CallSegment (callsOnly this (callFunction functions steps depth)) b target (source + 1)
      ⟨target, st, slots, ()⟩ ⟨out.resume, st, p.exact slots i acc n, ()⟩ := by
  obtain ⟨header, next, hh, hr, hv, ht, hle, hloop, hbody⟩ := detectFibSumLoop_parts hp
  have hind : p.induction = header.induction := by rw [hloop]
  have hlimit : p.limit = header.limit ∧ p.limitSlot = header.limitSlot := by
    rw [hloop]
    exact ⟨rfl, rfl⟩
  have hback : p.loopHeader = target ∧ p.resume = header.resume.toNat := by
    rw [hloop]
    exact ⟨rfl, rfl⟩
  have hstart : p.exact slots i acc 0 = slots := by
    rw [FibSumProgram.exact, FibSumProgram.total, Finset.sum_range_zero, Nat.cast_zero,
      Int.add_zero, Int.add_zero, ← hsum.accumulator, CountedLoop.frame_self hsum.induction]
  rw [hsum.resume, hback.1, hback.2]
  by_cases hapart : p.Apart
  · have hfun : ∀ v j, p.frame slots v j p.functionSlot = slots p.functionSlot := by
      obtain ⟨o, f, self, q, hv, -⟩ := isSelfRecursiveFib_parts hfib
      intro v j
      refine CountedLoop.frame_other ?_ ?_
      · intro he
        rw [he, hsum.accumulator] at hv
        cases hv
      · intro he
        rw [he, hsum.induction] at hv
        cases hv
    have hstep : ∀ j, i ≤ j → p.total i (j + 1 - i).toNat = p.total i (j - i).toNat + p.term j := by
      intro j hj
      rw [show (j + 1 - i).toNat = (j - i).toNat + 1 by omega, p.total_succ,
        show i + ((j - i).toNat : Int) = j by omega]
    have hframes : LoopFrames (callsOnly this (callFunction functions steps depth)) b header next
        st () i l (fun j => p.frame slots (.number (acc + p.total i (j - i).toNat)) j)
        (fun j => p.frame slots (.number (acc + p.total i (j + 1 - i).toNat)) j) := by
      constructor
      · intro j _ _
        rw [← hind]
        exact CountedLoop.frame_induction
      · intro j hj hjl
        rw [← hlimit.1, ← hlimit.2]
        exact CountedLoop.frame_limit hapart hsum.induction hsum.limit hj hjl
      · intro j hj hjl
        have hseg := hbody functions this steps depth st
          (p.frame slots (.number (acc + p.total i (j - i).toNat)) j) j _ hsteps hdepth
          (by rw [hfun]; exact hfib) (CountedLoop.frame_accumulator hapart)
          (by rw [← hind]; exact CountedLoop.frame_induction)
        rwa [CountedLoop.frame_store hapart, Int.add_assoc, ← hstep j hj] at hseg
      · intro j _ _
        rw [← hind]
        exact CountedLoop.frame_induction
      · intro j _ _
        rw [← hind]
        exact CountedLoop.frame_bump
    have hfirst : p.frame slots (.number (acc + p.total i (i - i).toNat)) i = slots := by
      rw [Int.sub_self]
      simpa [FibSumProgram.exact] using hstart
    have hlast : p.frame slots (.number (acc + p.total i (i + n - i).toNat)) (i + n) =
        p.exact slots i acc n := by
      rw [show (i + n - i).toNat = n by omega]
      rfl
    have hreach := hframes.reaches hh hr ht hle n hsum.le
    simp only [hfirst, hlast] at hreach
    split
    · exact hreach
    · have hleave := hframes.leaves hh hr ht hle (by have := hsum.le; omega)
      rw [show l = i + n by have := hsum.le; omega] at hleave
      simp only [hfirst, hlast] at hleave
      exact hleave
  · -- The limit is reached, and nothing is done.
    obtain rfl : n = 0 := not_not.mp (mt hsum.apart hapart)
    obtain ⟨j, hj, hlim⟩ := hfaithful.2.resolve_left hapart
    obtain rfl : j = i := by
      have hi := hsum.induction
      rw [hj] at hi
      cases hi
      rfl
    obtain rfl := hlim.unique hsum.limit
    have hframes : LoopFrames (callsOnly this (callFunction functions steps depth)) b header next
        st () j j (fun _ => slots) (fun _ => slots) := by
      constructor
      · intro k _ _
        rw [← hind, hj, show k = j by omega]
      · intro k _ _
        rw [← hlimit.1, ← hlimit.2]
        exact hlim
      all_goals
        intro k _ _
        omega
    rw [hstart, Nat.cast_zero, Int.add_zero, if_neg (Int.lt_irrefl j)]
    exact hframes.leaves hh hr ht hle (Int.le_refl j)

/-- Recursive Fibonacci sums: on faithful slots, entries made one after the other leave what the
interpreted loop leaves after the same iterations if and only if the exact sum is an int32. -/
theorem fibSum_loop_agrees_iff {target source : Nat}
    (hp : detectFibSumLoop b target source = some p) (hfaithful : p.Faithful b slots)
    {steps depth : Nat} (hsteps : 17 ≤ steps) (hdepth : 40 < depth)
    (hentries : Entries (runFibSum functions true b p) p.loopHeader slots out) (this : JSValue)
    (st : List JSValue) :
    ∃ (i acc : Int) (n : Nat), slots ⟨.local, p.induction⟩ = .number i ∧
      slots p.accumulatorSlot = .number acc ∧
      out.slots ⟨.local, p.induction⟩ = .number (i + n) ∧
      CallSegment (callsOnly this (callFunction functions steps depth)) b target (source + 1)
        ⟨target, st, slots, ()⟩ ⟨out.resume, st, p.exact slots i acc n, ()⟩ ∧
      (p.exact slots i acc n = out.slots ↔ acc + p.total i n ≤ int32Max) := by
  have hv : p.induction < b.varCount := by
    obtain ⟨header, next, -, -, hv, -, -, hloop, -⟩ := detectFibSumLoop_parts hp
    rw [hloop]
    exact hv
  obtain ⟨i, l, acc, n, hsum⟩ := fibSum_entries hfaithful hv hentries
  have hfib : isSelfRecursiveFib functions (slots p.functionSlot) = true := by
    cases hentries with
    | last hrun => exact (runFibSum_chunk hrun).1
    | next hrun _ _ => exact (runFibSum_chunk hrun).1
  refine ⟨i, acc, n, hsum.induction, hsum.accumulator, ?_,
    fibSum_interpreted hp hfaithful hsteps hdepth hfib hsum this st, ?_⟩
  · rw [hsum.slots]
    exact CountedLoop.frame_induction
  · rw [hsum.slots, FibSumProgram.exact]
    have hmin : int32Min ≤ acc + p.total i n := by
      have h0 := p.total_nonneg i n
      have h1 := hsum.int32.1
      omega
    constructor
    · intro he
      by_cases hapart : p.Apart
      · have hvalue := congrFun he p.accumulatorSlot
        rw [CountedLoop.frame_accumulator hapart, CountedLoop.frame_accumulator hapart, ofBits,
          JSValue.number.injEq] at hvalue
        rw [hvalue]
        exact (toInt_bounds _).2
      · obtain rfl : n = 0 := not_not.mp (mt hsum.apart hapart)
        rw [FibSumProgram.total, Finset.sum_range_zero, Int.add_zero]
        exact hsum.int32.2
    · intro hmax
      rw [ofBits_toBits ⟨hmin, hmax⟩]

end

/-- `for (; i < 1; i++) acc = acc + fib(1 + (i & 1));` -/
def fibLoop : FunctionBytecode where
  code := [97, 0, 0, 188, 166, 241, 31, 97, 1, 0, 97, 2, 0, 188, 97, 0, 0, 188, 162, 157, 246, 157,
    17, 98, 1, 0, 14, 97, 0, 0, 144, 98, 0, 0, 14, 243, 220]
  cpool := []
  argCount := 0
  varCount := 3

/-- `function fib(n) { return n < 2 ? n : fib(n - 1) + fib(n - 2); }`, as the object 0. -/
def fibOnly (o : Nat) : Option FunctionObject :=
  if o = 0 then some {
    bytecode := {
      code := [216, 189, 166, 241, 3, 216, 40, 228, 216, 188, 158, 246, 228, 216, 189, 158, 246,
        157, 40]
      cpool := []
      argCount := 1
      varCount := 0 }
    normal := true
    closureVarCount := 1
    varRefCount := 0
    varRefs := fun _ => some (.object 0) }
  else none

def fibSlots (acc : Int) : Slot → JSValue := fun slot =>
  if slot = ⟨.local, 0⟩ then .number 0 else if slot = ⟨.local, 1⟩ then .number acc
  else if slot = ⟨.local, 2⟩ then .object 0 else .undefined

def fibProgram : FibSumProgram := ⟨⟨0, 1, none, ⟨.local, 1⟩, 0, 37⟩, ⟨.local, 2⟩, 1, 1⟩

theorem fibLoop_detected : detectFibSumLoop fibLoop 0 35 = some fibProgram := by
  decide +kernel

theorem fibLoop_sum_agrees_iff :
    ∃ (out : OSRExit) (i acc : Int) (n : Nat),
      Entries (runFibSum fibOnly true fibLoop fibProgram) fibProgram.loopHeader (fibSlots 5) out ∧
      CallSegment (callsOnly .undefined (callFunction fibOnly 17 41)) fibLoop 0 36
        ⟨0, [], fibSlots 5, ()⟩ ⟨out.resume, [], fibProgram.exact (fibSlots 5) i acc n, ()⟩ ∧
      (fibProgram.exact (fibSlots 5) i acc n = out.slots ↔
        acc + fibProgram.total i n ≤ int32Max) := by
  obtain ⟨out, hrun⟩ : ∃ out, runFibSum fibOnly true fibLoop fibProgram (fibSlots 5) = some out :=
    ⟨_, rfl⟩
  obtain ⟨i, acc, n, -, -, -, hseg, hiff⟩ := fibSum_loop_agrees_iff fibLoop_detected
    ⟨by decide, .inl (by decide)⟩ (Nat.le_refl 17) (show 40 < 41 by decide) (.last hrun) .undefined
    []
  exact ⟨out, i, acc, n, .last hrun, hseg, hiff⟩

/-- The sum is computed modulo 2^32 although no addition of the loop is: from 2147483647 the
interpreted loop comes to 2147483648, the runner to -2147483648. -/
theorem exact_sum_is_wrapped :
    ¬ ∀ (functions : Nat → Option FunctionObject) (b : FunctionBytecode) (target source : Nat)
      (p : FibSumProgram) (slots : Slot → JSValue) (steps depth : Nat) (out : OSRExit),
      detectFibSumLoop b target source = some p → 17 ≤ steps → 40 < depth →
      Entries (runFibSum functions true b p) p.loopHeader slots out → out.resume = p.resume →
      CallAgrees (callsOnly .undefined (callFunction functions steps depth)) b target source
        ⟨target, [], slots, ()⟩ out := by
  intro hall
  let ops := callsOnly .undefined (callFunction fibOnly 17 41)
  obtain ⟨out, hrun⟩ : ∃ out, runFibSum fibOnly true fibLoop fibProgram (fibSlots 2147483647) =
      some out := ⟨_, rfl⟩
  have hvalue : (runFibSum fibOnly true fibLoop fibProgram (fibSlots 2147483647)).map
      (fun out => (out.resume, out.slots ⟨.local, 1⟩)) = some (37, .number (-2147483648)) := by
    decide +kernel
  simp only [hrun, Option.map_some, Option.some.injEq, Prod.mk.injEq] at hvalue
  obtain ⟨t, hseg, hpc, hslots⟩ := hall fibOnly fibLoop 0 35 fibProgram (fibSlots 2147483647) 17 41
    out fibLoop_detected (by decide) (by decide) (.last hrun) hvalue.1
  have hadvance := advance_runs (stepFunction ops fibLoop)
    (fun s => decide (0 ≤ s.pc ∧ s.pc < 36)) 30 ⟨0, [], fibSlots 2147483647, ()⟩
  simp only [decide_eq_true_eq] at hadvance
  have hend : (advance (stepFunction ops fibLoop) (fun s => decide (0 ≤ s.pc ∧ s.pc < 36)) 30
        ⟨0, [], fibSlots 2147483647, ()⟩).pc = 37 ∧
      (advance (stepFunction ops fibLoop) (fun s => decide (0 ≤ s.pc ∧ s.pc < 36)) 30
        ⟨0, [], fibSlots 2147483647, ()⟩).slots ⟨.local, 1⟩ = .number 2147483648 := by
    decide +kernel
  have hsame := Runs.exit_unique hseg hadvance (by rw [hpc, hvalue.1]; decide)
    (by rw [hend.1]; decide)
  rw [← hsame, hslots, hvalue.2] at hend
  exact absurd hend.2 (by decide)

end TurboJS.OSR
