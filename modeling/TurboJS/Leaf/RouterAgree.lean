import TurboJS.Leaf.Affine
import TurboJS.Leaf.RouterRun

namespace TurboJS.Leaf
open Bytecode Float64

/-! The closed form of a captured leaf gives the 32 bits of what the leaf returns. -/

/-- The closed form is exact: the affine one where nothing is rounded, the others when the
conversion of a negative constant wraps. -/
def Plan.FastExact (wrap : ℤ → BitVec 32) (plan : Plan) (x : ℤ) : Prop :=
  if plan.kind = .affine ∧ plan.affineArgument = 0 then AffineExact plan.instructions x
  else ∀ i ∈ plan.instructions, i.opcode = .constant → i.constant < 0 →
    wrap i.constant = toBits i.constant

instance (wrap : ℤ → BitVec 32) (plan : Plan) (x : ℤ) : Decidable (plan.FastExact wrap x) :=
  inferInstanceAs (Decidable (if plan.kind = .affine ∧ plan.affineArgument = 0 then
    AffineExact plan.instructions x
  else ∀ i ∈ plan.instructions, i.opcode = .constant → i.constant < 0 →
    wrap i.constant = toBits i.constant))

section

variable {is : List Instruction} {values ws : List (AffineValue ℤ)} {i : Instruction} {k : Nat}

theorem affineStep_arithmetic (h : affineStep i values = some ws) :
    i.opcode ∈ arithmeticOpcodes := by
  unfold affineStep at h
  split at h
  all_goals first | (rename_i hop; rw [hop]; decide) | cases h

theorem affineValues_arithmetic {last : AffineValue ℤ} {args : Nat → Option ℤ} {x : ℤ}
    (hx : args k = some x) (hlast : last.argument = some k)
    (h : affineValues is values = some [last]) : Arithmetic args is := by
  induction is generalizing values with
  | nil => exact fun i hi => absurd hi List.not_mem_nil
  | cons i is ih =>
    obtain ⟨ws, hws, hrest⟩ := Option.bind_eq_some_iff.mp h
    intro j hj
    rcases List.mem_cons.mp hj with rfl | hj
    · refine ⟨affineStep_arithmetic hws, fun hop => ?_⟩
      have hmem : some j.argument ∈ ws.map AffineValue.argument := by
        simp only [affineStep, hop] at hws
        split at hws
        · cases hws
          exact List.mem_cons_self
        · cases hws
      have hend := affineValues_argument hrest hmem
      rw [List.map_singleton, List.mem_singleton, hlast] at hend
      cases hend
      rw [hx]
      rfl
    · exact ih hrest j hj

end

section

variable {wrap : ℤ → BitVec 32} {plan : Plan} {fast : FastLeaf} {atoms : Atoms} {w w' : World}
  {leaf : LeafFunction} {x u : ℤ}

theorem singleton_argument (x : ℤ) : (fun k => [x][k]?) 0 = some x := rfl

theorem affine_fast_agrees (hb : buildTinyLeafPlan (w'.realm atoms) leaf = some plan)
    (hk : plan.kind = .affine) (harg : plan.affineArgument = 0)
    (hx : int32Min ≤ x ∧ x ≤ int32Max) (hl : plan.guard.isSome = true → w.YieldsBuiltin atoms)
    (hexact : AffineExact plan.instructions x)
    (hr : leaf.interpret w [.number x] = some (.number u)) :
    (FastLeaf.affine plan.affineMultiplier plan.affineAddend).execute (toBits x) = toBits u := by
  obtain ⟨m, a, hm, ha, hvalues, hmul, hadd⟩ := affinePlan_values hb hk hexact
  rw [harg] at hvalues
  have hargs := singleton_argument x
  have hne : plan.instructions ≠ [] := by
    intro hnil
    rw [hnil] at hvalues
    cases hvalues
  have hrun : exactRun (fun k => [x][k]?) plan.instructions ⟨[], fun _ => 0⟩ =
      some ⟨[u], fun _ => 0⟩ :=
    interpret_arithmetic hb hne (affineValues_arithmetic hargs rfl hvalues) hl hr
  obtain ⟨v, hv, hdenotes⟩ := affineValues_denotes (n := 2 ^ 32) (fun _ => 0) hargs rfl
    (fun _ => rfl) hvalues .nil
  rw [hrun] at hv
  cases hv
  have hbits : toBits u = toBits (x * m + a) := toBits_eq_iff.mpr hdenotes.linear
  rw [FastLeaf.execute, OSR.toInt_toBits hx, ← hm, ← ha, mul_intCast hmul, add_intCast hadd,
    toInt32_intCast, hbits]

theorem fastConstant_eq {c : ℤ} (h : c < 0 → wrap c = toBits c) : fastConstant wrap c = toBits c := by
  unfold fastConstant
  split
  · rfl
  · exact h (by omega)

theorem fast_agrees (hb : buildTinyLeafPlan (w'.realm atoms) leaf = some plan)
    (hfast : plan.fast wrap = some fast) (hx : int32Min ≤ x ∧ x ≤ int32Max)
    (hl : plan.guard.isSome = true → w.YieldsBuiltin atoms) (hexact : plan.FastExact wrap x)
    (hr : leaf.interpret w [.number x] = some (.number u)) :
    fast.execute (toBits x) = toBits u := by
  unfold Plan.fast at hfast
  unfold Plan.FastExact at hexact
  split at hfast
  · rename_i hk
    rw [if_pos hk] at hexact
    cases hfast
    exact affine_fast_agrees hb hk.1 hk.2 hx hl hexact hr
  · rename_i hk
    rw [if_neg hk] at hexact
    split at hfast
    · rename_i arg constant op zero or his
      split at hfast
      · rename_i hops
        obtain ⟨hargop, hargument, hconstant, hzero, hzeroval, hor, -, -⟩ := hops
        rw [his] at hexact
        have hwrap : fastConstant wrap constant.constant = toBits constant.constant :=
          fastConstant_eq (hexact constant (by simp) hconstant)
        have hrun : (op.opcode = .imul ∨ op.opcode = .xor) →
            exactRun (fun k => [x][k]?) plan.instructions ⟨[], fun _ => 0⟩ =
              some ⟨[u], fun _ => 0⟩ := by
          intro hop
          refine interpret_arithmetic hb (by rw [his]; simp) ?_ hl hr
          rw [his]
          intro i hi
          simp only [List.mem_cons, List.not_mem_nil, or_false] at hi
          rcases hi with rfl | rfl | rfl | rfl | rfl
          · exact ⟨by rw [hargop]; decide, fun _ => by rw [hargument]; rfl⟩
          · exact ⟨by rw [hconstant]; decide, by rw [hconstant]; nofun⟩
          · rcases hop with hop | hop <;> exact ⟨by rw [hop]; decide, by rw [hop]; nofun⟩
          · exact ⟨by rw [hzero]; decide, by rw [hzero]; nofun⟩
          · exact ⟨by rw [hor]; decide, by rw [hor]; nofun⟩
        rw [his] at hrun
        split at hfast
        · rename_i hop
          cases hfast
          have hvalue := hrun (.inl hop)
          simp only [exactRun, exactStep, exactBinary, hargop, hargument, hconstant, hop, hzero,
            hzeroval, hor, List.getElem?_cons_zero, Option.map_some, Option.bind_some] at hvalue
          cases hvalue
          rw [FastLeaf.execute, hwrap, OSR.toBits_toInt, OSR.toBits_toInt]
          simp [toBits]
        · rename_i hop
          cases hfast
          have hvalue := hrun (.inr hop)
          simp only [exactRun, exactStep, exactBinary, hargop, hargument, hconstant, hop, hzero,
            hzeroval, hor, List.getElem?_cons_zero, Option.map_some, Option.bind_some] at hvalue
          cases hvalue
          rw [FastLeaf.execute, hwrap, OSR.toBits_toInt, OSR.toBits_toInt]
          simp [toBits]
        · cases hfast
      · cases hfast
    · cases hfast

end

end TurboJS.Leaf

namespace TurboJS.Leaf
open Bytecode Foundation

def CapturedLeaves.Built (atoms : Atoms) (c : CapturedLeaves) : Prop :=
  ∀ f ∈ [c.first, c.second, c.replacement], ∀ plan ∈ f.plan,
    ∃ w : World, buildTinyLeafPlan (w.realm atoms) f.leaf = some plan

def CapturedLeaves.Found (c : CapturedLeaves) (functions : Nat → JSValue)
    (callees : Nat → Option LeafFunction) : Prop :=
  ∃ o o' o'', functions 0 = .object o ∧ functions 1 = .object o' ∧ functions 2 = .object o'' ∧
    callees o = some c.first.leaf ∧ callees o' = some c.second.leaf ∧
    callees o'' = some c.replacement.leaf

/-- A leaf on one argument: it returns an integer, the lookup of `Math.imul` that its plan stands
for yields the function of the engine, and its closed form is exact. -/
structure Captured.Meets (wrap : ℤ → BitVec 32) (atoms : Atoms) (w : World) (c : Captured)
    (x : ℤ) : Prop where
  returns : ∃ u, c.leaf.interpret w [.number x] = some (.number u)
  lookup : ∀ plan ∈ c.plan, plan.guard.isSome = true → w.YieldsBuiltin atoms
  exact : ∀ plan ∈ c.plan, plan.FastExact wrap x

structure RouterMeets (wrap : ℤ → BitVec 32) (atoms : Atoms) (w : World) (router : LeafFunction)
    (c : CapturedLeaves) (rounds : Nat) : Prop where
  ends : (displacements router.code).Ends
  loops : 0 < rounds → (displacements router.code).Loops
  calls : ∀ r, r < rounds → ∀ i : Nat, i < 20000 →
    (if i % 2 = 1 then c.second else c.first).Meets wrap atoms w (i + r)
  lastCalls : ∀ i : Nat, i < 5000 →
    (if i % 2 = 1 then c.replacement else c.first).Meets wrap atoms w i

section

variable {wrap : ℤ → BitVec 32} {atoms : Atoms} {w : World} {even odd : FastLeaf}

theorem toBits_natCast (n : Nat) : toBits (n : ℤ) = BitVec.ofNat 32 n := BitVec.ofInt_natCast 32 n

theorem alternate_eq {results : Nat → ℤ} {start n : Nat} {sum : BitVec 32}
    (h : ∀ i, i < n → (if i % 2 = 1 then odd else even).execute (BitVec.ofNat 32 (i + start)) =
      toBits (results i)) :
    alternate even odd start n sum = sumResults results n sum := by
  induction n with
  | zero => rfl
  | succ n ih =>
    rw [sumResults_succ, ← ih fun i hi => h i (Nat.lt_succ_of_lt hi), ← h n (Nat.lt_succ_self n),
      alternate, alternate, List.range_succ, List.foldl_append, List.foldl_cons, List.foldl_nil]

theorem routerRounds_eq {results : Nat → Nat → ℤ} {n : Nat}
    (h : ∀ r, r < n → ∀ i, i < 20000 →
      (if i % 2 = 1 then odd else even).execute (BitVec.ofNat 32 (i + r)) = toBits (results r i)) :
    routerRounds even odd n = sumRounds results n := by
  induction n with
  | zero => rw [routerRounds, sumRounds, List.range_zero, List.foldl_nil, List.foldl_nil]
  | succ n ih =>
    rw [sumRounds_succ, ← ih fun r hr => h r (Nat.lt_succ_of_lt hr),
      ← alternate_eq (h n (Nat.lt_succ_self n)), routerRounds, routerRounds, List.range_succ,
      List.foldl_append, List.foldl_cons, List.foldl_nil]

theorem Captured.Meets.agrees {c : Captured} {plan : Plan} {fast : FastLeaf} {n : Nat} {u : ℤ}
    {w' : World} (hm : c.Meets wrap atoms w n) (hplan : c.plan = some plan)
    (hb : buildTinyLeafPlan (w'.realm atoms) c.leaf = some plan)
    (hfast : plan.fast wrap = some fast) (hn : (n : ℤ) ≤ int32Max)
    (hr : c.leaf.interpret w [.number (n : ℤ)] = some (.number u)) :
    fast.execute (BitVec.ofNat 32 n) = toBits u := by
  rw [← toBits_natCast]
  have hmin : int32Min ≤ (n : ℤ) := by
    have hneg : int32Min ≤ 0 := by decide
    omega
  exact fast_agrees hb hfast ⟨hmin, hn⟩ (hm.lookup plan hplan) (hm.exact plan hplan) hr

theorem callRouter_handled {router : LeafFunction} {c : CapturedLeaves} {args : List LeafValue}
    {interrupted : Bool} {value : BitVec 32}
    (h : callRouter wrap atoms w router c args interrupted = .handled value) :
    ∃ rounds more first second replacement fast fast' fast'', args = .int rounds :: more ∧
      c.first.plan = some first ∧ c.second.plan = some second ∧
      c.replacement.plan = some replacement ∧ isCallbackRouterBytecode router ∧
      0 ≤ rounds.toInt ∧ rounds.toInt ≤ 100000 ∧ first.fast wrap = some fast ∧
      second.fast wrap = some fast' ∧ replacement.fast wrap = some fast'' ∧
      value = alternate fast fast'' 0 5000 (routerRounds fast fast' rounds.toInt.toNat) := by
  unfold callRouter at h
  split at h
  · rename_i rounds more first second replacement hfirst hsecond hreplacement
    split at h
    · rename_i hchecks
      split at h
      · rename_i fast fast' fast'' hfast hfast' hfast''
        split at h
        · cases h
        · have hvalue := RouterOutcome.handled.inj h
          exact ⟨rounds, more, first, second, replacement, fast, fast', fast'', rfl, hfirst, hsecond,
            hreplacement, hchecks.1, hchecks.2.1, hchecks.2.2.1, hfast, hfast', hfast'', hvalue.symm⟩
      · cases h
    · cases h
  · cases h

end

/-- Where the branches are those of the compiler and every leaf meets the condition on the arguments
that it is called with, the native run returns what the code returns. -/
theorem callbackRouter_returns {wrap : ℤ → BitVec 32} {atoms : Atoms} {w : World}
    {router : LeafFunction} {c : CapturedLeaves} {rounds value : BitVec 32}
    {more : List LeafValue} {others : List JSValue} {interrupted : Bool} {base : Nat}
    {functions : Nat → JSValue} {callees : Nat → Option LeafFunction}
    (hbuilt : c.Built atoms) (hfound : c.Found functions callees)
    (hm : RouterMeets wrap atoms w router c rounds.toInt.toNat)
    (hcall : callRouter wrap atoms w router c (.int rounds :: more) interrupted = .handled value) :
    Returns (routerOps w callees base) router.toFunctionBytecode
      (enterRouter (.number rounds.toInt :: others) functions) (ofBits value) := by
  obtain ⟨_, _, first, second, replacement, fast, fast', fast'', hargs, hfirst, hsecond,
    hreplacement, hrouter, hmin, hmax, hfast, hfast', hfast'', hvalue⟩ := callRouter_handled hcall
  cases hargs
  obtain ⟨w₁, hb⟩ := hbuilt c.first (by simp) first hfirst
  obtain ⟨w₂, hb'⟩ := hbuilt c.second (by simp) second hsecond
  obtain ⟨w₃, hb''⟩ := hbuilt c.replacement (by simp) replacement hreplacement
  obtain ⟨o, o', o'', h0, h1, h2, hcallee, hcallee', hcallee''⟩ := hfound
  generalize hn : rounds.toInt.toNat = n at hm
  have hrounds : rounds.toInt = (n : ℤ) := by omega
  have hsmall : ∀ r i : Nat, r < n → i < 20000 → ((i + r : Nat) : ℤ) ≤ int32Max := by
    intro r i hr hi
    have hint : int32Max = 2147483647 := by decide
    omega
  -- The results of the interpreted calls.
  have hresult : ∀ r i : Nat, ∃ u, r < n → i < 20000 →
      Answers w c.first.leaf c.second.leaf i (i + r) u := by
    intro r i
    by_cases h : r < n ∧ i < 20000
    · obtain ⟨u, hu⟩ := (hm.calls r h.1 i h.2).returns
      refine ⟨u, fun _ _ => ?_⟩
      rwa [apply_ite Captured.leaf] at hu
    · exact ⟨0, fun hr hi => absurd ⟨hr, hi⟩ h⟩
  have hlast : ∀ i : Nat, ∃ u, i < 5000 → Answers w c.first.leaf c.replacement.leaf i i u := by
    intro i
    by_cases h : i < 5000
    · obtain ⟨u, hu⟩ := (hm.lastCalls i h).returns
      refine ⟨u, fun _ => ?_⟩
      rwa [apply_ite Captured.leaf] at hu
    · exact ⟨0, fun hi => absurd hi h⟩
  choose results hresults using hresult
  choose lastResults hlastResults using hlast
  have hnative : routerRounds fast fast' n = sumRounds results n := by
    refine routerRounds_eq fun r hr i hi => ?_
    have hmeets := hm.calls r hr i hi
    have hanswer := hresults r i hr hi
    unfold Answers at hanswer
    split at hmeets
    · rename_i hodd
      rw [if_pos hodd] at hanswer ⊢
      exact Captured.Meets.agrees (n := i + r) (by exact_mod_cast hmeets) hsecond hb' hfast'
        (hsmall r i hr hi) (by exact_mod_cast hanswer)
    · rename_i heven
      rw [if_neg heven] at hanswer ⊢
      exact Captured.Meets.agrees (n := i + r) (by exact_mod_cast hmeets) hfirst hb hfast
        (hsmall r i hr hi) (by exact_mod_cast hanswer)
  have hnativeLast : ∀ sum, alternate fast fast'' 0 5000 sum = sumResults lastResults 5000 sum := by
    intro sum
    refine alternate_eq fun i hi => ?_
    have hmeets := hm.lastCalls i hi
    have hanswer := hlastResults i hi
    have hint : int32Max = 2147483647 := by decide
    unfold Answers at hanswer
    split at hmeets
    · rename_i hodd
      rw [if_pos hodd] at hanswer ⊢
      exact hmeets.agrees hreplacement hb'' hfast'' (by omega) hanswer
    · rename_i heven
      rw [if_neg heven] at hanswer ⊢
      exact hmeets.agrees hfirst hb hfast (by omega) hanswer
  rw [hvalue, hn, hnativeLast, hnative]
  refine router_returns (router_code hrouter) hm.ends hm.loops ⟨h0, h1, h2⟩ hcallee hcallee'
    hcallee'' ?_ (fun r hr i hi => hresults r i hr hi) (fun i hi => hlastResults i hi)
  rw [List.getElem?_cons_zero, hrounds]

def someRouter (d : Displacements) : LeafFunction :=
  { code := routerCode d, cpool := [], argCount := 1, varCount := 5, normal := true,
    varRefCount := 0, closureVarCount := 3, stackSize := 5 }

/-- `x => (x ^ 0) | 0`. -/
def convert : LeafFunction := oneArgument [216, 187, 163, 187, 164, 40]

/-- `x => Math.imul(x, 3) | 0`. -/
def tripleInt32 : LeafFunction :=
  { triple with code := [56, 1, 0, 0, 0, 65, 2, 0, 0, 0, 216, 190, 36, 2, 0, 187, 164, 40] }

def someCaptured : CapturedLeaves :=
  let planned (f : LeafFunction) : Captured :=
    ⟨f, buildTinyLeafPlan ((worldWith 6).realm someAtoms) f⟩
  ⟨planned convert, planned tripleInt32, planned convert⟩

def someCallees (o : Nat) : Option LeafFunction :=
  if o = 11 then some tripleInt32 else some convert

theorem someCaptured_built : someCaptured.Built someAtoms := by
  intro f hf plan hplan
  simp only [List.mem_cons, List.not_mem_nil, or_false] at hf
  rcases hf with rfl | rfl | rfl <;> exact ⟨worldWith 6, hplan⟩

theorem someCaptured_found : someCaptured.Found (fun k => .object (10 + k)) someCallees :=
  ⟨10, 11, 12, rfl, rfl, rfl, rfl, rfl, rfl⟩

theorem convert_returns (w : World) (x : ℤ) :
    convert.interpret w [.number x] = some (.number (toBits x).toInt) := by
  have hrun : convert.interpret w [.number x] =
      some (.number (toBits (toBits x ^^^ toBits 0).toInt ||| toBits 0).toInt) := by rfl
  rw [hrun, OSR.toBits_toInt]
  simp [toBits]

theorem tripleInt32_returns (x : ℤ) :
    tripleInt32.interpret (worldWith 6) [.number x] =
      some (.number (toBits (toBits x * toBits 3).toInt ||| toBits 0).toInt) := by rfl

theorem someCaptured_meets {c : Captured} (x : ℤ)
    (hc : c = someCaptured.first ∨ c = someCaptured.second) :
    c.Meets (fun _ => 0) someAtoms (worldWith 6) x := by
  have hplans : c.plan.all (fun plan => decide (plan.kind ≠ .affine ∧
      ∀ i ∈ plan.instructions, 0 ≤ i.constant)) = true := by
    rcases hc with rfl | rfl <;> decide +kernel
  refine ⟨?_, fun _ _ _ => ⟨6, rfl, rfl⟩, ?_⟩
  · rcases hc with rfl | rfl
    · exact ⟨_, convert_returns (worldWith 6) x⟩
    · exact ⟨_, tripleInt32_returns x⟩
  · intro plan hplan
    rw [Option.mem_def] at hplan
    rw [hplan, Option.all_some, decide_eq_true_eq] at hplans
    rw [Plan.FastExact, if_neg fun h => hplans.1 h.1]
    intro i hi _ hneg
    exact absurd (hplans.2 i hi) (by omega)

/-- One round of the router of the compiler. -/
theorem someRouter_returns : ∃ value,
    callRouter (fun _ => 0) someAtoms (worldWith 6) (someRouter ⟨65, 41, 208, 186, 4, 37, 212⟩)
        someCaptured [.int 1] false = .handled value ∧
      Returns (routerOps (worldWith 6) someCallees 20)
        (someRouter ⟨65, 41, 208, 186, 4, 37, 212⟩).toFunctionBytecode
        (enterRouter [.number 1] fun k => .object (10 + k)) (ofBits value) := by
  have hhandled : (match callRouter (fun _ => 0) someAtoms (worldWith 6)
      (someRouter ⟨65, 41, 208, 186, 4, 37, 212⟩) someCaptured [.int 1] false with
      | .handled _ => true
      | _ => false) = true := by decide +kernel
  split at hhandled
  · rename_i value hcall
    refine ⟨value, hcall, callbackRouter_returns someCaptured_built someCaptured_found ?_ hcall⟩
    refine ⟨⟨rfl, rfl, rfl⟩, fun _ => ⟨rfl, rfl, rfl⟩, ?_, ?_⟩
    · intro r _ i _
      refine someCaptured_meets _ ?_
      split
      · exact .inr rfl
      · exact .inl rfl
    · intro i _
      refine someCaptured_meets _ (.inl ?_)
      split <;> rfl
  · cases hhandled

theorem sumResults_identity (n : Nat) :
    sumResults (fun i => (i : ℤ)) n 0 = BitVec.ofNat 32 (n * (n - 1) / 2) := by
  induction n with
  | zero => rfl
  | succ n ih =>
    have hnext : (n + 1) * n = n * (n - 1) + 2 * n := by
      cases n with
      | zero => rfl
      | succ k => rw [Nat.add_sub_cancel]; ring
    rw [sumResults_succ, ih, toBits_natCast, ← BitVec.ofNat_add, Nat.add_sub_cancel, hnext]
    congr 1
    omega

theorem leavingRouter_returns :
    Returns (routerOps (worldWith 6) someCallees 20)
      (someRouter ⟨65, 41, 208, 186, 4, 37, 1⟩).toFunctionBytecode
      (enterRouter [.number 0] fun k => .object (10 + k)) (ofBits (0 + toBits 0)) := by
  have hb : (someRouter ⟨65, 41, 208, 186, 4, 37, 1⟩).toFunctionBytecode.code =
      routerCode ⟨65, 41, 208, 186, 4, 37, 1⟩ := rfl
  generalize hrouter : (someRouter ⟨65, 41, 208, 186, 4, 37, 1⟩).toFunctionBytecode = b at hb
  have hprologue : RouterRuns (worldWith 6) someCallees 20 b
      (enterRouter [.number 0] fun k => .object (10 + k))
      (routerAt [.number 0] (fun k => .object (10 + k)) (.object 10) (.object 11) 19
        (startLocals 20)) := piece_runs (hb ▸ spells_prologue _) rfl exec_prologue
  have hrounds : RouterRuns (worldWith 6) someCallees 20 b
      (routerAt [.number 0] (fun k => .object (10 + k)) (.object 10) (.object 11) 19
        (startLocals 20))
      (routerAt [.number 0] (fun k => .object (10 + k)) (.object 10) (.object 11) 90
        (roundLocals 20 (fun _ _ => 0) 0)) :=
    rounds_run (n := 0) hb rfl (rfl : someCallees 10 = some convert)
      (rfl : someCallees 11 = some tripleInt32) (by omega) rfl
      (fun r hr => absurd hr (Nat.not_lt_zero r))
  have hreplaced : RouterRuns (worldWith 6) someCallees 20 b
      (routerAt [.number 0] (fun k => .object (10 + k)) (.object 10) (.object 11) 90
        (roundLocals 20 (fun _ _ => 0) 0))
      (routerAt [.number 0] (fun k => .object (10 + k)) (.object 10) (.object 12) 114
        { roundLocals 20 (fun _ _ => 0) 0 with lastIndex := .number 0 }) :=
    replacement_runs hb rfl
  have hanswer : Answers (worldWith 6) convert convert 0 0 0 := convert_returns (worldWith 6) 0
  have hcall : RouterRuns (worldWith 6) someCallees 20 b
      (routerAt [.number 0] (fun k => .object (10 + k)) (.object 10) (.object 12) 114
        { roundLocals 20 (fun _ _ => 0) 0 with lastIndex := .number 0 })
      (routerAt [.number 0] (fun k => .object (10 + k)) (.object 10) (.object 12) 157
        ⟨.object 20, ofBits (0 + toBits 0), .number 0, .undefined, .number 1⟩) :=
    lastCall_runs hb rfl rfl rfl rfl rfl rfl (by decide) hanswer
  have hjump : decode b.code 157 = some (.goto (159 : Nat) .w8, 159) := by
    rw [hb]
    exact decode_goto8 1 rfl rfl (by decide)
  have hreturn : RouterRuns (worldWith 6) someCallees 20 b
      (routerAt [.number 0] (fun k => .object (10 + k)) (.object 10) (.object 12) 159
        ⟨.object 20, ofBits (0 + toBits 0), .number 0, .undefined, .number 1⟩)
      ⟨164, [ofBits (0 + toBits 0)], _, _⟩ :=
    piece_runs (hb ▸ spells_returnSum _) rfl (exec_returnSum rfl)
  refine ⟨_, 165, ((((hprologue.trans hrounds).trans hreplaced).trans hcall).trans
    (goto_runs hjump)).trans hreturn, ?_, rfl⟩
  rw [hb]
  rfl

theorem displacement_is_not_checked :
    ¬ ∀ (wrap : ℤ → BitVec 32) (atoms : Atoms) (w : World) (router : LeafFunction)
      (c : CapturedLeaves) (rounds value : BitVec 32) (base : Nat) (functions : Nat → JSValue)
      (callees : Nat → Option LeafFunction), c.Built atoms → c.Found functions callees →
      callRouter wrap atoms w router c [.int rounds] false = .handled value →
      Returns (routerOps w callees base) router.toFunctionBytecode
        (enterRouter [.number rounds.toInt] functions) (ofBits value) := by
  intro hall
  have hhandled : (match callRouter (fun _ => 0) someAtoms (worldWith 6)
      (someRouter ⟨65, 41, 208, 186, 4, 37, 1⟩) someCaptured [.int 0] false with
      | .handled _ => true
      | _ => false) = true := by decide +kernel
  split at hhandled
  · rename_i value hcall
    have hzero := (hall _ _ _ _ _ _ _ 20 _ _ someCaptured_built someCaptured_found hcall).unique
      leavingRouter_returns
    obtain ⟨_, _, _, _, _, fast, fast', fast'', hargs, hfirst, -, hreplacement, -, -, -, hfast, -,
      hfast'', hvalue⟩ := callRouter_handled hcall
    cases hargs
    have hforms : (someCaptured.first.plan.bind (Plan.fast fun _ => 0)) = some (.xor 0) := by
      decide +kernel
    have hxor : fast = .xor 0 ∧ fast'' = .xor 0 := by
      have hsame : someCaptured.replacement.plan = someCaptured.first.plan := rfl
      rw [hsame] at hreplacement
      have hforms' := hforms
      rw [hfirst, Option.bind_some, hfast] at hforms
      rw [hreplacement, Option.bind_some, hfast''] at hforms'
      exact ⟨Option.some.inj hforms, Option.some.inj hforms'⟩
    have hcalls : ∀ i, i < 5000 → (if i % 2 = 1 then FastLeaf.xor 0 else .xor 0).execute
        (BitVec.ofNat 32 (i + 0)) = toBits (i : ℤ) := by
      intro i _
      rw [ite_self, FastLeaf.execute, toBits_natCast, add_zero]
      exact BitVec.xor_zero
    have hsum : value = BitVec.ofNat 32 12497500 := by
      rw [hvalue, hxor.1, hxor.2, alternate_eq hcalls]
      exact sumResults_identity 5000
    rw [hsum] at hzero
    exact absurd hzero (by decide)
  · cases hhandled

end TurboJS.Leaf
