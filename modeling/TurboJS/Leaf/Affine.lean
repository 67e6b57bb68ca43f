import TurboJS.Leaf.Built
import TurboJS.OSR.Parse
import Mathlib.Data.Int.ModEq

namespace TurboJS.Leaf
open Bytecode Foundation Float64

/-! Affine plans against the meaning of their instructions. -/

/-! ## Without rounding -/

def AffineValue.cast (v : AffineValue ℤ) : AffineValue Float64 :=
  ⟨v.argument, v.multiplier, v.addend⟩

def AffineValue.Exact (v : AffineValue ℤ) : Prop :=
  Float64.Exact v.multiplier ∧ Float64.Exact v.addend

instance (v : AffineValue ℤ) : Decidable v.Exact := inferInstanceAs (Decidable (_ ∧ _))

def summaryExact : List Instruction → List (AffineValue ℤ) → Bool
  | [], _ => true
  | i :: is, values =>
    match affineStep i values with
    | some values => values.all (fun v => decide v.Exact) && summaryExact is values
    | none => true

section

variable {left right v : AffineValue ℤ} {values : List (AffineValue ℤ)} {i : Instruction}

theorem AffineValue.combine_cast {opℤ : ℤ → ℤ → ℤ} {op : Float64 → Float64 → Float64}
    (hop : ∀ {m n : ℤ}, Float64.Exact (opℤ m n) → op m n = ((opℤ m n : ℤ) : Float64))
    (h : ∀ v, left.combine opℤ right = some v → v.Exact) :
    left.cast.combine op right.cast = (left.combine opℤ right).map AffineValue.cast := by
  have hcast : left.cast.combine op right.cast =
      if left.argument.isSome ∧ right.argument.isSome ∧ left.argument ≠ right.argument then none
      else some ⟨left.argument <|> right.argument, op left.multiplier right.multiplier,
        op left.addend right.addend⟩ := rfl
  rw [hcast]
  unfold AffineValue.combine at h ⊢
  split
  · rfl
  · rename_i hc
    rw [if_neg hc] at h
    rw [hop (h _ rfl).1, hop (h _ rfl).2]
    rfl

theorem AffineValue.scale_cast (h : ∀ v, left.scale right = some v → v.Exact) :
    left.cast.scale right.cast = (left.scale right).map AffineValue.cast := by
  obtain ⟨argument, m, a⟩ := left
  obtain ⟨argument', m', a'⟩ := right
  cases argument' with
  | none =>
    have he := h ⟨argument, m * a', a * a'⟩ (by cases argument <;> rfl)
    cases argument <;>
      simp only [AffineValue.scale, AffineValue.cast, Option.map_some, mul_intCast he.1,
        mul_intCast he.2]
  | some k =>
    cases argument with
    | none =>
      have he := h ⟨some k, m' * a, a' * a⟩ rfl
      simp only [AffineValue.scale, AffineValue.cast, Option.map_some, mul_intCast he.1,
        mul_intCast he.2]
    | some k' => rfl

theorem affineStep_cast (h : ∀ ws, affineStep i values = some ws → ∀ w ∈ ws, w.Exact) :
    affineStep i (values.map AffineValue.cast) =
      (affineStep i values).map (List.map AffineValue.cast) := by
  have hcons : ∀ {o : Option (AffineValue ℤ)} {o' : Option (AffineValue Float64)}
      (rest : List (AffineValue ℤ)), o' = o.map AffineValue.cast →
      o'.map (· :: rest.map AffineValue.cast) =
        (o.map (· :: rest)).map (List.map AffineValue.cast) := by
    rintro o o' rest rfl
    cases o <;> rfl
  cases hop : i.opcode
  case arg =>
    simp only [affineStep, hop, List.length_map]
    split <;> rfl
  case constant =>
    simp only [affineStep, hop, List.length_map]
    split <;> rfl
  all_goals
    rcases values with _ | ⟨right, _ | ⟨left, rest⟩⟩ <;>
      simp only [affineStep, hop, List.map_nil, List.map_cons] at h ⊢
  case add.cons.cons =>
    refine hcons rest (AffineValue.combine_cast (fun he => add_intCast he) ?_)
    intro v hv
    exact h _ (by rw [hv]; rfl) v (List.mem_cons_self)
  case sub.cons.cons =>
    refine hcons rest (AffineValue.combine_cast (fun he => sub_intCast he) ?_)
    intro v hv
    exact h _ (by rw [hv]; rfl) v (List.mem_cons_self)
  case mul.cons.cons =>
    refine hcons rest (AffineValue.scale_cast ?_)
    intro v hv
    exact h _ (by rw [hv]; rfl) v (List.mem_cons_self)
  case neg.cons.nil => simp [AffineValue.cast, neg_intCast]
  case neg.cons.cons => simp [AffineValue.cast, neg_intCast]
  case or.cons.cons =>
    by_cases hz : right.argument.isSome ∨ right.addend ≠ (Int.cast (0 : ℤ) : ℤ)
    · have hz' : right.cast.argument.isSome ∨ right.cast.addend ≠ ((0 : ℤ) : Float64) :=
        hz.imp id (mt intCast_injective)
      rw [if_pos hz, if_pos hz']
      rfl
    · have hz' : ¬ (right.cast.argument.isSome ∨ right.cast.addend ≠ ((0 : ℤ) : Float64)) :=
        fun h => hz (h.imp id (mt (congrArg fun n : ℤ => (n : Float64))))
      rw [if_neg hz, if_neg hz']
      rfl
  all_goals rfl

theorem affineValues_cast {is : List Instruction} (h : summaryExact is values = true) :
    affineValues is (values.map AffineValue.cast) =
      (affineValues is values).map (List.map AffineValue.cast) := by
  induction is generalizing values with
  | nil => rfl
  | cons i is ih =>
    have hstep : affineStep i (values.map AffineValue.cast) =
        (affineStep i values).map (List.map AffineValue.cast) := by
      refine affineStep_cast ?_
      intro ws hws w hw
      simp only [summaryExact, hws, Bool.and_eq_true, List.all_eq_true, decide_eq_true_eq] at h
      exact h.1 w hw
    rw [affineValues, affineValues, hstep]
    cases hws : affineStep i values with
    | none => rfl
    | some ws =>
      simp only [summaryExact, hws, Bool.and_eq_true] at h
      exact ih h.2

theorem affineSummary_cast {is : List Instruction} (h : summaryExact is [] = true) :
    affineSummary (α := Float64) is =
      (affineSummary (α := ℤ) is).map fun s => (s.1, (s.2.1 : Float64), (s.2.2 : Float64)) := by
  have hvalues : affineValues is [] = (affineValues is []).map (List.map AffineValue.cast) :=
    affineValues_cast h
  unfold affineSummary
  rw [hvalues]
  rcases affineValues (α := ℤ) is [] with _ | values
  · rfl
  · rcases values with _ | ⟨⟨argument, m, a⟩, _ | ⟨w, rest⟩⟩
    · rfl
    · cases argument <;> rfl
    · cases argument <;> rfl

end

theorem toBits_eq_iff {m n : ℤ} : toBits m = toBits n ↔ m ≡ n [ZMOD 2 ^ 32] := by
  rw [toBits, toBits, ← BitVec.toNat_inj, BitVec.toNat_ofInt, BitVec.toNat_ofInt, Int.ModEq]
  omega

theorem toInt_toBits_modEq (n : ℤ) : (toBits n).toInt ≡ n [ZMOD 2 ^ 32] := by
  rw [← toBits_eq_iff, toBits, BitVec.ofInt_toInt]

/-- With the argument `x` the value stands for `v`, modulo `n`. -/
structure AffineValue.Denotes (n x : ℤ) (value : AffineValue ℤ) (v : ℤ) : Prop where
  linear : v ≡ x * value.multiplier + value.addend [ZMOD n]
  constant : value.argument = none → value.multiplier = 0

namespace AffineValue.Denotes

variable {n x v w : ℤ} {left right value : AffineValue ℤ}

theorem addend (h : left.Denotes n x v) (hc : left.argument = none) :
    v ≡ left.addend [ZMOD n] := by
  have hl := h.linear
  rwa [h.constant hc, mul_zero, zero_add] at hl

theorem combine {op : ℤ → ℤ → ℤ} (hzero : op 0 0 = 0)
    (hop : ∀ {a b c d : ℤ}, a ≡ b [ZMOD n] → c ≡ d [ZMOD n] → op a c ≡ op b d [ZMOD n])
    (hlinear : ∀ a b c d : ℤ, op (x * a + b) (x * c + d) = x * op a c + op b d)
    (hl : left.Denotes n x v) (hr : right.Denotes n x w)
    (h : left.combine op right = some value) : value.Denotes n x (op v w) := by
  unfold AffineValue.combine at h
  split at h
  · cases h
  · cases h
    refine ⟨?_, ?_⟩
    · exact (hop hl.linear hr.linear).trans (by rw [hlinear])
    · intro hnone
      obtain ⟨argument, m, a⟩ := left
      cases argument with
      | none =>
        obtain rfl : m = 0 := hl.constant rfl
        simp only [hr.constant hnone, hzero]
      | some k => cases hnone

theorem scale (hl : left.Denotes n x v) (hr : right.Denotes n x w)
    (h : left.scale right = some value) : value.Denotes n x (v * w) := by
  obtain ⟨argument, m, a⟩ := left
  obtain ⟨argument', m', a'⟩ := right
  cases argument' with
  | none =>
    obtain rfl : value = ⟨argument, m * a', a * a'⟩ := by
      cases argument <;> exact (Option.some.inj h).symm
    refine ⟨?_, ?_⟩
    · refine (hl.linear.mul (hr.addend rfl)).trans ?_
      simp only
      rw [show (x * m + a) * a' = x * (m * a') + a * a' by ring]
    · intro hnone
      obtain rfl : m = 0 := hl.constant hnone
      exact zero_mul a'
  | some k =>
    cases argument with
    | none =>
      cases h
      refine ⟨?_, nofun⟩
      refine ((hl.addend rfl).mul hr.linear).trans ?_
      simp only
      rw [show a * (x * m' + a') = x * (m' * a) + a' * a by ring]
    | some k' => cases h

theorem neg (h : left.Denotes n x v) :
    AffineValue.Denotes n x ⟨left.argument, -left.multiplier, -left.addend⟩ (-v) := by
  refine ⟨?_, ?_⟩
  · refine h.linear.neg.trans ?_
    simp only
    rw [show -(x * left.multiplier + left.addend) = x * -left.multiplier + -left.addend by ring]
  · intro hnone
    simp only [h.constant hnone, neg_zero]

theorem or (hl : left.Denotes (2 ^ 32) x v) (hr : right.Denotes (2 ^ 32) x w)
    (hnone : right.argument = none) (hzero : right.addend = 0) :
    left.Denotes (2 ^ 32) x (toBits v ||| toBits w).toInt := by
  have hw : toBits w = 0#32 := toBits_eq_iff.mpr (hzero ▸ hr.addend hnone)
  rw [hw, BitVec.or_zero]
  exact ⟨(toInt_toBits_modEq v).trans hl.linear, hl.constant⟩

end AffineValue.Denotes

theorem affineStep_denotes {n x : ℤ} {args : Nat → Option ℤ} {i : Instruction}
    {values ws : List (AffineValue ℤ)} {stack : List ℤ} (cells : Nat → ℤ)
    (h : affineStep i values = some ws) (hs : List.Forall₂ (AffineValue.Denotes n x) values stack)
    (harg : i.opcode = .arg → args i.argument = some x) (hor : i.opcode = .or → n = 2 ^ 32) :
    ∃ t, exactStep args i ⟨stack, cells⟩ = some ⟨t, cells⟩ ∧
      List.Forall₂ (AffineValue.Denotes n x) ws t := by
  unfold affineStep at h
  split at h
  · rename_i hop
    split at h
    · cases h
      refine ⟨x :: stack, by simp [exactStep, hop, harg hop], .cons ⟨?_, nofun⟩ hs⟩
      simp
    · cases h
  · rename_i hop
    split at h
    · cases h
      refine ⟨i.constant :: stack, by simp [exactStep, hop], .cons ⟨?_, fun _ => rfl⟩ hs⟩
      simp
    · cases h
  -- Two operands, the right one on top.
  · rename_i right left rest hop
    obtain ⟨v, hv, rfl⟩ := Option.map_eq_some_iff.mp h
    rcases hs with _ | ⟨hr, _ | ⟨hl, hrest⟩⟩
    rename_i b a st
    refine ⟨(a + b) :: st, by simp [exactStep, hop, exactBinary], .cons ?_ hrest⟩
    exact hl.combine (add_zero 0) (fun h h' => h.add h') (fun _ _ _ _ => by ring) hr hv
  · rename_i right left rest hop
    obtain ⟨v, hv, rfl⟩ := Option.map_eq_some_iff.mp h
    rcases hs with _ | ⟨hr, _ | ⟨hl, hrest⟩⟩
    rename_i b a st
    refine ⟨(a - b) :: st, by simp [exactStep, hop, exactBinary], .cons ?_ hrest⟩
    exact hl.combine (sub_zero 0) (fun h h' => h.sub h') (fun _ _ _ _ => by ring) hr hv
  · rename_i right left rest hop
    obtain ⟨v, hv, rfl⟩ := Option.map_eq_some_iff.mp h
    rcases hs with _ | ⟨hr, _ | ⟨hl, hrest⟩⟩
    rename_i b a st
    exact ⟨(a * b) :: st, by simp [exactStep, hop, exactBinary], .cons (hl.scale hr hv) hrest⟩
  · rename_i value rest hop
    cases h
    rcases hs with _ | ⟨hv, hrest⟩
    rename_i a st
    exact ⟨-a :: st, by simp [exactStep, hop], .cons hv.neg hrest⟩
  · rename_i right left rest hop
    obtain rfl := hor hop
    split at h
    · cases h
    · rename_i hzero
      cases h
      rw [not_or, Option.not_isSome_iff_eq_none, not_not] at hzero
      rcases hs with _ | ⟨hr, _ | ⟨hl, hrest⟩⟩
      rename_i b a st
      exact ⟨(toBits a ||| toBits b).toInt :: st, by simp [exactStep, hop, exactBinary],
        .cons (hl.or hr hzero.1 hzero.2) hrest⟩
  · cases h

theorem AffineValue.combine_argument {op : ℤ → ℤ → ℤ} {left right value : AffineValue ℤ} {k : Nat}
    (h : left.combine op right = some value)
    (hk : left.argument = some k ∨ right.argument = some k) : value.argument = some k := by
  unfold AffineValue.combine at h
  split at h
  · cases h
  · rename_i hc
    cases h
    rcases left with ⟨_ | j, m, a⟩
    · exact hk.resolve_left nofun
    · rcases hk with hk | hk
      · exact hk
      · simp only [Option.isSome_some, hk, true_and, not_not] at hc
        exact hc

theorem AffineValue.scale_argument {left right value : AffineValue ℤ} {k : Nat}
    (h : left.scale right = some value)
    (hk : left.argument = some k ∨ right.argument = some k) : value.argument = some k := by
  rcases left with ⟨_ | j, m, a⟩ <;> rcases right with ⟨_ | j', m', a'⟩ <;> cases h
  · exact hk.elim id id
  · exact hk.resolve_left nofun
  · exact hk.resolve_right nofun

theorem affineStep_argument {i : Instruction} {values ws : List (AffineValue ℤ)} {k : Nat}
    (h : affineStep i values = some ws) (hk : some k ∈ values.map AffineValue.argument) :
    some k ∈ ws.map AffineValue.argument := by
  have hpair : ∀ {right left w : AffineValue ℤ} {rest : List (AffineValue ℤ)},
      (left.argument = some k ∨ right.argument = some k → w.argument = some k) →
      some k ∈ (right :: left :: rest).map AffineValue.argument →
      some k ∈ (w :: rest).map AffineValue.argument := by
    intro right left w rest hw hmem
    simp only [List.map_cons, List.mem_cons] at hmem ⊢
    rcases hmem with hr | hl | hrest
    · exact .inl (hw (.inr hr.symm)).symm
    · exact .inl (hw (.inl hl.symm)).symm
    · exact .inr hrest
  unfold affineStep at h
  split at h
  · split at h
    · cases h
      exact List.mem_cons_of_mem _ hk
    · cases h
  · split at h
    · cases h
      exact List.mem_cons_of_mem _ hk
    · cases h
  · obtain ⟨v, hv, rfl⟩ := Option.map_eq_some_iff.mp h
    exact hpair (AffineValue.combine_argument hv) hk
  · obtain ⟨v, hv, rfl⟩ := Option.map_eq_some_iff.mp h
    exact hpair (AffineValue.combine_argument hv) hk
  · obtain ⟨v, hv, rfl⟩ := Option.map_eq_some_iff.mp h
    exact hpair (AffineValue.scale_argument hv) hk
  · cases h
    exact hk
  · split at h
    · cases h
    · rename_i hzero
      cases h
      rw [not_or, Option.not_isSome_iff_eq_none] at hzero
      refine hpair (fun h => h.resolve_right ?_) hk
      rw [hzero.1]
      exact nofun
  · cases h

theorem affineValues_argument {is : List Instruction} {values ws : List (AffineValue ℤ)} {k : Nat}
    (h : affineValues is values = some ws) (hk : some k ∈ values.map AffineValue.argument) :
    some k ∈ ws.map AffineValue.argument := by
  induction is generalizing values with
  | nil =>
    cases h
    exact hk
  | cons i is ih =>
    obtain ⟨mid, hmid, h⟩ := Option.bind_eq_some_iff.mp h
    exact ih h (affineStep_argument hmid hk)

theorem affineValues_denotes {n x : ℤ} {args : Nat → Option ℤ} {is : List Instruction} {k : Nat}
    {last : AffineValue ℤ} (cells : Nat → ℤ) (hx : args k = some x) (hlast : last.argument = some k)
    (hor : (∃ i ∈ is, i.opcode = .or) → n = 2 ^ 32)
    {values : List (AffineValue ℤ)} {stack : List ℤ} (h : affineValues is values = some [last])
    (hs : List.Forall₂ (AffineValue.Denotes n x) values stack) :
    ∃ v, exactRun args is ⟨stack, cells⟩ = some ⟨[v], cells⟩ ∧ last.Denotes n x v := by
  induction is generalizing values stack with
  | nil =>
    cases h
    rcases hs with _ | ⟨hv, ⟨⟩⟩
    exact ⟨_, rfl, hv⟩
  | cons i is ih =>
    obtain ⟨ws, hws, h⟩ := Option.bind_eq_some_iff.mp h
    have harg : i.opcode = .arg → args i.argument = some x := by
      intro hop
      -- An argument that is pushed is the argument of the summary.
      have hmem : some i.argument ∈ ws.map AffineValue.argument := by
        simp only [affineStep, hop] at hws
        split at hws
        · cases hws
          exact List.mem_cons_self
        · cases hws
      have hend := affineValues_argument h hmem
      rw [List.map_singleton, List.mem_singleton, hlast] at hend
      cases hend
      exact hx
    obtain ⟨t, ht, hs'⟩ := affineStep_denotes cells hws hs harg
      (fun hop => hor ⟨i, List.mem_cons_self, hop⟩)
    rw [exactRun_cons ht]
    exact ih (fun ⟨j, hj, hop⟩ => hor ⟨j, List.mem_cons_of_mem _ hj, hop⟩) h hs'

theorem affineStep_mark {i : Instruction} {values ws : List (AffineValue ℤ)}
    (h : affineStep i values = some ws) : marksInt32 i = decide (i.opcode = .or) := by
  unfold affineStep at h
  split at h
  all_goals first | (rename_i hop; simp [marksInt32, hop]; done) | cases h

theorem affineValues_mark {is : List Instruction} {values ws : List (AffineValue ℤ)}
    (h : affineValues is values = some ws) :
    is.any marksInt32 = true ↔ ∃ i ∈ is, i.opcode = .or := by
  induction is generalizing values with
  | nil => simp
  | cons i is ih =>
    obtain ⟨mid, hmid, h⟩ := Option.bind_eq_some_iff.mp h
    rw [List.any_cons, Bool.or_eq_true, ih h, affineStep_mark hmid, decide_eq_true_eq,
      List.exists_mem_cons_iff]

def intArguments (args : List LeafValue) (k : Nat) : Option ℤ :=
  match args[k]? with
  | some (.int n) => some n.toInt
  | _ => none

/-- Neither the summary nor its execution on `x` needs rounding. -/
def AffineExact (is : List Instruction) (x : ℤ) : Prop :=
  summaryExact is [] = true ∧ ∀ s ∈ affineSummary (α := ℤ) is,
    Float64.Exact (x * s.2.1) ∧ Float64.Exact (x * s.2.1 + s.2.2)

instance (is : List Instruction) (x : ℤ) : Decidable (AffineExact is x) :=
  inferInstanceAs (Decidable (_ ∧ _))

theorem affinePlan_values {realm : Realm} {f : LeafFunction} {plan : Plan} {x : ℤ}
    (hb : buildTinyLeafPlan realm f = some plan) (hk : plan.kind = .affine)
    (hexact : AffineExact plan.instructions x) :
    ∃ m a : ℤ, (m : Float64) = plan.affineMultiplier ∧ (a : Float64) = plan.affineAddend ∧
      affineValues plan.instructions [] = some [⟨some plan.affineArgument, m, a⟩] ∧
      Float64.Exact (x * m) ∧ Float64.Exact (x * m + a) := by
  have hsummary := (buildTinyLeafPlan_affine hb hk).1
  rw [affineSummary_cast hexact.1] at hsummary
  obtain ⟨⟨k, m, a⟩, hsum, he⟩ := Option.map_eq_some_iff.mp hsummary
  simp only [Prod.mk.injEq] at he
  obtain ⟨rfl, hm, ha⟩ := he
  obtain ⟨hmul, hadd⟩ := hexact.2 _ hsum
  refine ⟨m, a, hm, ha, ?_, hmul, hadd⟩
  unfold affineSummary at hsum
  split at hsum
  · rename_i hv
    cases hsum
    exact hv
  · cases hsum

/-- Affine leaves: where nothing is rounded, the plan gives the value of its instructions if and
only if they have no `| 0` or that value is an int32. -/
theorem affine_plan_agrees_iff {realm : Realm} {f : LeafFunction} {plan : Plan}
    (hb : buildTinyLeafPlan realm f = some plan) (hk : plan.kind = .affine)
    {args : List LeafValue} {x : BitVec 32} (hx : args[plan.affineArgument]? = some (.int x))
    (hexact : AffineExact plan.instructions x.toInt) (cells : Nat → ℤ) :
    ∃ v r, exactRun (intArguments args) plan.instructions ⟨[], cells⟩ = some ⟨[v], cells⟩ ∧
      plan.executeAffine args = some r ∧
      (r.number = some (v : Float64) ↔
        (∀ i ∈ plan.instructions, i.opcode ≠ .or) ∨ int32Min ≤ v ∧ v ≤ int32Max) := by
  obtain ⟨m, a, hm, ha, hvalues, hmul, hadd⟩ := affinePlan_values hb hk hexact
  have hmark := (buildTinyLeafPlan_affine hb hk).2
  have hrun : plan.executeAffine args =
      some (plan.result ((x.toInt * m + a : ℤ) : Float64)) := by
    simp only [Plan.executeAffine, hx, LeafValue.number, Option.bind_eq_bind, Option.bind_some,
      ← hm, ← ha, mul_intCast hmul, add_intCast hadd]
  have hargs : intArguments args plan.affineArgument = some x.toInt := by
    simp only [intArguments, hx]
  by_cases hor : ∃ i ∈ plan.instructions, i.opcode = .or
  · -- Modulo 2^32.
    obtain ⟨v, hv, hdenotes⟩ := affineValues_denotes (n := 2 ^ 32) cells hargs rfl (fun _ => rfl)
      hvalues .nil
    refine ⟨v, _, hv, hrun, ?_⟩
    have hbits : toBits v = toBits (x.toInt * m + a) := toBits_eq_iff.mpr hdenotes.linear
    have hreturns : plan.returnsInt32 = true := by
      rw [hmark]
      exact (affineValues_mark hvalues).mpr hor
    simp only [Plan.result, hreturns, if_true, LeafValue.number, toInt32_intCast, ← hbits,
      Option.some.injEq]
    constructor
    · intro h
      rw [← intCast_injective h]
      exact .inr (OSR.toInt_bounds _)
    · intro h
      have hint := h.resolve_left (by simpa using hor)
      rw [OSR.toInt_toBits hint]
  · obtain ⟨v, hv, hdenotes⟩ := affineValues_denotes (n := 0) cells hargs rfl
      (fun h => absurd h hor) hvalues .nil
    refine ⟨v, _, hv, hrun, ?_⟩
    have hvalue : v = x.toInt * m + a := Int.modEq_zero_iff.mp hdenotes.linear
    have hreturns : plan.returnsInt32 = false := by
      rw [hmark, Bool.eq_false_iff]
      exact mt (affineValues_mark hvalues).mp hor
    have hleft : ∀ i ∈ plan.instructions, i.opcode ≠ .or := by simpa using hor
    refine iff_of_true ?_ (.inl hleft)
    simp [Plan.result, hreturns, LeafValue.number, hvalue]

def oneArgument (code : List UInt8) : LeafFunction :=
  { code := code, cpool := [], argCount := 1, varCount := 0, normal := true, varRefCount := 0,
    closureVarCount := 0, stackSize := 2 }

/-- `x => (x | 0) + 1`. -/
def incrementInt32 : LeafFunction := oneArgument [216, 187, 164, 188, 157, 40]

def incrementPlan : Plan :=
  { Plan.empty with
    instructions := [.at 0 .arg 0 0, .at 1 .constant 0 0, .at 2 .or 0 0, .at 3 .constant 0 1,
      .at 4 .add 0 0]
    returnsInt32 := true
    kind := .affine
    affineMultiplier := .finite 1
    affineAddend := .finite 1 }

theorem incrementPlan_built : buildTinyLeafPlan bareRealm incrementInt32 = some incrementPlan := by
  decide +kernel

theorem incrementPlan_agrees_iff :
    ∃ v r, exactRun (intArguments [.int 5]) incrementPlan.instructions ⟨[], fun _ => 0⟩ =
        some ⟨[v], fun _ => 0⟩ ∧
      incrementPlan.executeAffine [.int 5] = some r ∧
      (r.number = some (v : Float64) ↔
        (∀ i ∈ incrementPlan.instructions, i.opcode ≠ .or) ∨ int32Min ≤ v ∧ v ≤ int32Max) :=
  affine_plan_agrees_iff incrementPlan_built rfl rfl (by decide +kernel) fun _ => 0

/-- The `| 0` of a plan is done once, at the end: `(2147483647 | 0) + 1` becomes -2147483648. -/
theorem inner_conversion_is_moved :
    ¬ ∀ (realm : Realm) (f : LeafFunction) (plan : Plan) (args : List LeafValue) (x : BitVec 32)
      (cells : Nat → ℤ) (v : ℤ) (r : LeafValue), buildTinyLeafPlan realm f = some plan →
      plan.kind = .affine → args[plan.affineArgument]? = some (.int x) →
      exactRun (intArguments args) plan.instructions ⟨[], cells⟩ = some ⟨[v], cells⟩ →
      plan.executeAffine args = some r → r.number = some (v : Float64) := by
  intro hall
  have hvalue := hall bareRealm incrementInt32 incrementPlan [.int 2147483647] 2147483647
    (fun _ => 0) 2147483648 (.int 2147483648) incrementPlan_built rfl rfl rfl (by decide +kernel)
  exact absurd hvalue (by decide +kernel)

end TurboJS.Leaf
