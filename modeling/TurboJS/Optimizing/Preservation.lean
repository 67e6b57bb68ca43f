import TurboJS.Optimizing.Sound

namespace TurboJS.Optimizing

open IR Foundation

section

variable {arguments : List Word} {w : Word} {ρ : Nat → Word} {g g' : Graph}

theorem checked_some {result : Int} {wrapped x : Word} (h : checked result wrapped = some x) :
    x = wrapped := by
  unfold checked at h
  split at h
  · exact (Option.some.inj h).symm
  · cases h

theorem foldBinary_eval {op : SSAOpcode} {l r x : Word} (h : foldBinary op l r = some x) :
    evalBinary op l r = some x := by
  unfold evalBinary
  split
  · rw [checked_some h]
  · rw [checked_some h]
  · rw [checked_some h]
  · exact h

theorem Equation.of_eval {v : Value} {x : Word} (he : Equation arguments w ρ v)
    (hb : evalBinary v.opcode (ρ v.left) (ρ v.right) = some x) : ρ v.id = x := by
  rw [equation_binary (evalBinary_isBinary hb), hb] at he
  exact (Option.some.inj he).symm

theorem Sound.inferValue (h : Sound arguments w ρ g) (i : Nat) :
    Sound arguments w ρ (inferValue i g) := by
  simp only [Optimizing.inferValue]
  split
  · exact h
  · exact h.setValue i fun _ => .of_meta rfl rfl rfl rfl rfl fun h => h

theorem Sound.ssaInferTypes {fuel : Nat} (h : Sound arguments w ρ g)
    (hr : ssaInferTypes fuel g = some g') : Sound arguments w ρ g' := by
  induction fuel generalizing g with
  | zero => cases hr
  | succ fuel ih =>
    simp only [Optimizing.ssaInferTypes] at hr
    split at hr
    · cases hr
      exact h
    · exact ih (forUp_invariant h fun i s _ hs => hs.inferValue i) hr

theorem Sound.foldValue (h : Sound arguments w ρ g) {i : Nat} (hi : i < g.valueCount)
    (hl : (g.value i).removed = false) : Sound arguments w ρ (foldValue i g) := by
  simp only [Optimizing.foldValue]
  cases hf : foldedConstant g (g.value i) with
  | none => exact h
  | some x =>
    have hx : ρ (g.value i).id = x := by
      unfold foldedConstant at hf
      split at hf
      · rename_i hc
        simp only [Bool.and_eq_true, decide_eq_true_eq] at hc
        obtain ⟨⟨⟨hcl, hcr⟩, hkl⟩, hkr⟩ := hc
        rw [← h.constant hcl hkl, ← h.constant hcr hkr] at hf
        exact (h.holds i hi hl).of_eval (foldBinary_eval hf)
      · cases hf
    have hd := (h.setValue (g.value i).left fun _ => .dropUse _).setValue (g.value i).right
      fun _ => .dropUse _
    refine hd.setValue i ?_
    intro hi'
    have hid := hd.ids i hi'
    rw [h.ids i hi] at hx
    refine ⟨rfl, ?_, fun h => h, ?_⟩
    · simp only [reduceCtorEq, false_iff]
      intro ha
      -- an argument never folds
      rw [Graph.setValue_value, Graph.setValue_value] at ha
      have ha' : (g.value i).opcode = .argument := by
        revert ha
        repeat' split
        all_goals exact fun ha => ha
      unfold foldedConstant at hf
      split at hf
      · rw [ha'] at hf
        cases hf
      · cases hf
    · intro _ _
      simp only [Equation]
      rw [hid, hx]

theorem Sound.foldBranch (h : Sound arguments w ρ g) (i : Nat) :
    Sound arguments w ρ (foldBranch i g) := by
  simp only [Optimizing.foldBranch]
  cases hc : chosenSuccessor g (g.value i) with
  | none => exact h
  | some chosen =>
    have hb : (g.value i).opcode ≠ .argument := by
      intro ha
      simp [chosenSuccessor, ha] at hc
    have hd := h.setValue (g.value i).left fun _ => .dropUse _
    refine Sound.of_values (g := _) (hd.setValue i ?_) rfl
    intro _
    refine ⟨rfl, ?_, fun h => h, fun _ _ => trivial⟩
    simp only [reduceCtorEq, false_iff]
    rw [Graph.setValue_value]
    split
    · exact hb
    · exact hb

theorem foldValue_valueCount (i : Nat) (g : Graph) : (foldValue i g).valueCount = g.valueCount := by
  simp only [foldValue]
  split <;> simp

theorem foldBranch_valueCount (i : Nat) (g : Graph) :
    (foldBranch i g).valueCount = g.valueCount := by
  simp only [foldBranch]
  split
  · rfl
  · simp [Graph.valueCount, Graph.setValue]

theorem Sound.foldConstants (h : Sound arguments w ρ g) : Sound arguments w ρ (foldConstants g) := by
  have hinv : Sound arguments w ρ (Optimizing.foldConstants g) ∧
      (Optimizing.foldConstants g).valueCount = g.valueCount := by
    refine forUp_invariant (P := fun s => Sound arguments w ρ s ∧ s.valueCount = g.valueCount)
      ⟨h, rfl⟩ ?_
    rintro i s hi ⟨hs, hc⟩
    split
    · exact ⟨hs, hc⟩
    · rename_i hl
      rw [Bool.not_eq_true] at hl
      refine ⟨(hs.foldValue (by rw [hc]; exact hi) hl).foldBranch i, ?_⟩
      rw [foldBranch_valueCount, foldValue_valueCount, hc]
  exact hinv.1

theorem replaceValueUses_valueCount (g : Graph) (source target : Nat) :
    (replaceValueUses g source target).valueCount = g.valueCount := by
  simp [replaceValueUses, Graph.valueCount, Graph.setValue]

theorem cseCandidate_cases {v : Value} (h : cseCandidate v = true) :
    v.opcode = .constantI64 ∨ isBinary v.opcode = true := by
  unfold cseCandidate at h
  cases ho : v.opcode <;> rw [ho] at h <;> first
    | exact .inl rfl
    | exact .inr rfl
    | cases h

theorem sameExpression_eq {a b : Value} (ha : Equation arguments w ρ a)
    (hb : Equation arguments w ρ b) (hc : cseCandidate a = true)
    (hs : sameExpression a b = true) : ρ a.id = ρ b.id := by
  simp only [sameExpression, Bool.and_eq_true, decide_eq_true_eq, beq_iff_eq] at hs
  obtain ⟨⟨⟨⟨⟨ho, -⟩, hl⟩, hr⟩, hm⟩, -⟩ := hs
  rcases cseCandidate_cases hc with hk | hk
  · rw [equation_constant hk] at ha
    rw [equation_constant (by rw [← ho]; exact hk)] at hb
    rw [ha, hb, hm]
  · have hkb : isBinary b.opcode = true := by rw [← ho]; exact hk
    rw [equation_binary hk, hl, hr, ho] at ha
    rw [equation_binary hkb, ha] at hb
    exact Option.some.inj hb

theorem Sound.reuseEarlier {candidate : Value → Bool} {same : Value → Value → Bool}
    (h : Sound arguments w ρ g)
    (hs : ∀ a b, Equation arguments w ρ a → Equation arguments w ρ b → candidate a = true →
      candidate b = true → same a b = true → ρ a.id = ρ b.id) :
    Sound arguments w ρ (reuseEarlier candidate same g) := by
  have hinv : Sound arguments w ρ (Optimizing.reuseEarlier candidate same g) ∧
      (Optimizing.reuseEarlier candidate same g).valueCount = g.valueCount := by
    refine forUp_invariant (P := fun s => Sound arguments w ρ s ∧ s.valueCount = g.valueCount)
      ⟨h, rfl⟩ ?_
    rintro i s hi ⟨h, hc⟩
    have hi' : i < s.valueCount := by rw [hc]; exact hi
    split
    · exact ⟨h, hc⟩
    · rename_i hl
      simp only [Bool.or_eq_true, Bool.not_eq_true', not_or, Bool.not_eq_true,
        Bool.not_eq_false] at hl
      split
      · exact ⟨h, hc⟩
      · rename_i j hj
        obtain ⟨m, hm, hj⟩ := searchUp_some hj
        split at hj
        · rename_i hp
          simp only [Bool.and_eq_true, Bool.not_eq_true'] at hp
          cases hj
          have hj' : j < s.valueCount := Nat.lt_trans hm hi'
          have he := hs _ _ (h.holds j hj' hp.1.1) (h.holds i hi' hl.1) hp.1.2 hl.2 hp.2
          rw [h.ids j hj', h.ids i hi'] at he
          refine ⟨h.reuse he.symm, ?_⟩
          rw [Graph.setValue_valueCount, replaceValueUses_valueCount, hc]
        · cases hj
  exact hinv.1

theorem Sound.eliminateLocalCommonExpressions (h : Sound arguments w ρ g) :
    Sound arguments w ρ (eliminateLocalCommonExpressions g) :=
  h.reuseEarlier fun _ _ ha hb hc _ hs => sameExpression_eq ha hb hc hs

theorem Sound.eliminateRedundantGuards (h : Sound arguments w ρ g) :
    Sound arguments w ρ (eliminateRedundantGuards g) := by
  refine h.reuseEarlier ?_
  intro a b ha hb hca hcb hs
  simp only [decide_eq_true_eq] at hca hcb
  simp only [Bool.and_eq_true, beq_iff_eq] at hs
  rw [equation_guard hca] at ha
  rw [equation_guard hcb] at hb
  rw [ha, hb, hs.2]

def isMemory (op : SSAOpcode) : Bool :=
  op = .propertyLoad || op = .propertyStore || op = .elementLoad || op = .elementStore

theorem Sound.no_memory (h : Sound arguments w ρ g) {i : Nat} (hi : i < g.valueCount)
    (hl : (g.value i).removed = false) : isMemory (g.value i).opcode = false := by
  have he := h.holds i hi hl
  unfold Equation at he
  cases ho : (g.value i).opcode <;> rw [ho] at he <;> first
    | rfl
    | cases he

theorem Sound.memory_removed (h : Sound arguments w ρ g) {i : Nat} (hi : i < g.valueCount) :
    (g.value i).removed = true ∨ (((g.value i).opcode ≠ .propertyLoad ∧
      (g.value i).opcode ≠ .propertyStore) ∧ (g.value i).opcode ≠ .elementLoad) ∧
      (g.value i).opcode ≠ .elementStore := by
  cases hl : (g.value i).removed with
  | true => exact .inl rfl
  | false =>
    have hm := h.no_memory hi hl
    simp only [isMemory, Bool.or_eq_false_iff, decide_eq_false_iff_not] at hm
    exact .inr hm

theorem Sound.not_propertyLoad (h : Sound arguments w ρ g) {i : Nat} (hi : i < g.valueCount) :
    isPropertyLoad (g.value i) = false := by
  rcases h.memory_removed hi with hl | hm
  · simp [isPropertyLoad, hl]
  · simp [isPropertyLoad, hm]

theorem Sound.scalarizeVirtualObjectLoads_eq (h : Sound arguments w ρ g) :
    scalarizeVirtualObjectLoads g = g := by
  refine forUp_id ?_
  intro i hi
  rcases h.memory_removed hi with hl | hm
  · simp [hl]
  · simp [hm]

theorem Sound.eliminateOverwrittenPropertyStores_eq (h : Sound arguments w ρ g) :
    eliminateOverwrittenPropertyStores g = g := by
  refine forUp_id ?_
  intro i hi
  rcases h.memory_removed hi with hl | hm
  · simp [hl]
  · simp [propertyStoreIsPlainWritable, hm]

theorem Sound.createPropertyStorePhis_eq (h : Sound arguments w ρ g) :
    createPropertyStorePhis g = g := by
  refine forUp_id ?_
  intro i hi
  simp [createStorePhi, h.not_propertyLoad hi]

theorem Sound.forwardPropertyStoresToLoads_eq (h : Sound arguments w ρ g) :
    forwardPropertyStoresToLoads g = some g := by
  refine forUpM_id ?_
  intro i hi
  simp [h.not_propertyLoad hi]

theorem Sound.eliminateRedundantPropertyLoads_eq (h : Sound arguments w ρ g) :
    eliminateRedundantPropertyLoads g = some g := by
  refine forUpM_id ?_
  intro i hi
  simp [h.not_propertyLoad hi]

theorem Sound.eliminateRedundantElementLoads_eq (h : Sound arguments w ρ g) :
    eliminateRedundantElementLoads g = g := by
  refine forUp_id ?_
  intro i hi
  rcases h.memory_removed hi with hl | hm
  · simp [hl]
  · simp [hm]

theorem Sound.recognizeElementLoopRanges_eq (h : Sound arguments w ρ g) :
    recognizeElementLoopRanges g = g := by
  refine forUp_id ?_
  intro i hi
  rcases h.memory_removed hi with hl | hm
  · simp [hl]
  · simp [hm]

theorem markReachable_values (g : Graph) : (markReachable g).values = g.values := by
  unfold markReachable
  split <;> rfl

theorem Sound.removeUnreachable (h : Sound arguments w ρ g) :
    Sound arguments w ρ (removeUnreachable g) :=
  h.of_values (markReachable_values g)

theorem Sound.releaseInput {s : Graph × List Nat} (h : Sound arguments w ρ s.1) (input : Nat) :
    Sound arguments w ρ (releaseInput input s).1 := by
  simp only [Optimizing.releaseInput]
  split
  · exact h.setValue input fun _ => .dropUse _
  · exact h

theorem Sound.sweepDead {fuel : Nat} {work : List Nat} (h : Sound arguments w ρ g) :
    Sound arguments w ρ (sweepDead fuel g work) := by
  induction fuel generalizing g work with
  | zero => exact h
  | succ fuel ih =>
    cases work with
    | nil => exact h
    | cons i work =>
      simp only [Optimizing.sweepDead]
      split
      · exact ih h
      · exact ih (Sound.releaseInput (Sound.releaseInput (s := (_, work))
          (h.setValue i fun _ => .remove _) _) _)

theorem Sound.ssaOptimize {fuel : Nat} (h : Sound arguments w ρ g)
    (hr : ssaOptimize fuel g = some g') : Sound arguments w ρ g' := by
  simp only [Optimizing.ssaOptimize, Option.bind_eq_bind, Option.bind_eq_some_iff,
    Option.some.injEq] at hr
  obtain ⟨g1, h1, g2, h2, hr⟩ := hr
  have s1 := h.ssaInferTypes h1
  have s2 := s1.foldConstants.ssaInferTypes h2
  have s3 := s2.eliminateLocalCommonExpressions
  rw [s3.scalarizeVirtualObjectLoads_eq, s3.eliminateOverwrittenPropertyStores_eq,
    s3.createPropertyStorePhis_eq] at hr
  obtain ⟨g3, h3, g4, h4, hr⟩ := hr
  rw [s3.forwardPropertyStoresToLoads_eq] at h3
  cases h3
  rw [s3.eliminateRedundantPropertyLoads_eq] at h4
  cases h4
  rw [s3.eliminateRedundantElementLoads_eq, s3.recognizeElementLoopRanges_eq] at hr
  rw [← hr]
  exact s3.eliminateRedundantGuards.removeUnreachable.sweepDead

end

section

variable {g g' : Graph} {n : Nat}

@[simp] theorem replaceValueUses_blockCount (g : Graph) (source target : Nat) :
    (replaceValueUses g source target).blockCount = g.blockCount := rfl

theorem forUp_blockCount {body : Nat → Graph → Graph}
    (h : ∀ i g, (body i g).blockCount = g.blockCount) (g : Graph) :
    (forUp n body g).blockCount = g.blockCount := by
  refine forUp_invariant (P := fun s : Graph => s.blockCount = g.blockCount) rfl ?_
  intro i s _ hs
  rw [h, hs]

theorem forUpM_blockCount {body : Nat → Graph → Option Graph}
    (h : ∀ i g g', body i g = some g' → g'.blockCount = g.blockCount)
    (hr : forUpM n body g = some g') : g'.blockCount = g.blockCount := by
  refine forUpM_invariant (P := fun s : Graph => s.blockCount = g.blockCount) rfl ?_ hr
  intro i s s' _ hs hb
  rw [h i s s' hb, hs]

theorem ssaInferTypes_blockCount {fuel : Nat} (h : ssaInferTypes fuel g = some g') :
    g'.blockCount = g.blockCount := by
  induction fuel generalizing g with
  | zero => cases h
  | succ fuel ih =>
    simp only [ssaInferTypes] at h
    split at h
    · cases h
      rfl
    · rw [ih h]
      refine forUp_blockCount ?_ g
      intro i g
      simp only [inferValue]
      split <;> rfl

theorem foldConstants_blockCount (g : Graph) : (foldConstants g).blockCount = g.blockCount := by
  refine forUp_blockCount ?_ g
  intro i g
  split
  · rfl
  · have hv : (foldValue i g).blockCount = g.blockCount := by
      simp only [foldValue]
      split <;> rfl
    have hb : ∀ g, (foldBranch i g).blockCount = g.blockCount := by
      intro g
      simp only [foldBranch]
      split <;> simp
    rw [hb, hv]

theorem reuseEarlier_blockCount (candidate : Value → Bool) (same : Value → Value → Bool)
    (g : Graph) : (reuseEarlier candidate same g).blockCount = g.blockCount := by
  refine forUp_blockCount ?_ g
  intro i g
  split
  · rfl
  · split <;> simp

theorem scalarizeVirtualObjectLoads_blockCount (g : Graph) :
    (scalarizeVirtualObjectLoads g).blockCount = g.blockCount := by
  refine forUp_blockCount ?_ g
  intro i g
  simp only
  repeat' split
  all_goals simp

theorem eliminateOverwrittenPropertyStores_blockCount (g : Graph) :
    (eliminateOverwrittenPropertyStores g).blockCount = g.blockCount := by
  have hd : ∀ (g : Graph) (i : Nat), (dropIfValue g i).blockCount = g.blockCount := by
    intro g i
    unfold dropIfValue
    split <;> simp
  refine forUp_blockCount ?_ g
  intro i g
  simp only
  repeat' split
  all_goals simp [hd]

theorem createPropertyStorePhis_blockCount (g : Graph) :
    (createPropertyStorePhis g).blockCount = g.blockCount := by
  refine forUp_blockCount ?_ g
  intro i g
  simp only [createStorePhi]
  repeat' split
  all_goals simp

theorem forwardPropertyStoresToLoads_blockCount (h : forwardPropertyStoresToLoads g = some g') :
    g'.blockCount = g.blockCount := by
  refine forUpM_blockCount ?_ h
  intro i g g' hb
  split at hb
  · cases hb
    rfl
  · simp only [Option.bind_eq_bind, Option.bind_eq_some_iff] at hb
    obtain ⟨r, -, hb⟩ := hb
    split at hb <;> cases hb <;> rfl

theorem eliminateRedundantPropertyLoads_blockCount
    (h : eliminateRedundantPropertyLoads g = some g') : g'.blockCount = g.blockCount := by
  refine forUpM_blockCount ?_ h
  intro i g g' hb
  split at hb
  · cases hb
    rfl
  · simp only [Option.bind_eq_bind, Option.bind_eq_some_iff] at hb
    obtain ⟨r, -, hb⟩ := hb
    split at hb <;> cases hb <;> rfl

theorem eliminateRedundantElementLoads_blockCount (g : Graph) :
    (eliminateRedundantElementLoads g).blockCount = g.blockCount := by
  refine forUp_blockCount ?_ g
  intro i g
  simp only
  repeat' split
  all_goals simp

theorem recognizeElementLoopRanges_blockCount (g : Graph) :
    (recognizeElementLoopRanges g).blockCount = g.blockCount := by
  refine forUp_blockCount ?_ g
  intro i g
  simp only
  repeat' split
  all_goals simp

theorem markQueue_length (fuel : Nat) (blocks : List Block) (queue : List Nat) (pushed : Nat) :
    (markQueue fuel blocks queue pushed).length = blocks.length := by
  induction fuel generalizing blocks queue pushed with
  | zero => rfl
  | succ fuel ih =>
    cases queue with
    | nil => rfl
    | cons b queue =>
      simp only [markQueue]
      rw [ih]
      generalize (blocks.getD b default).successors = targets
      induction targets generalizing blocks queue pushed with
      | nil => rfl
      | cons t targets iht =>
        rw [List.foldl_cons, iht]
        split
        · rfl
        · split <;> simp

theorem markReachable_blockCount (g : Graph) : (markReachable g).blockCount = g.blockCount := by
  unfold markReachable
  split
  · rfl
  · simp [Graph.blockCount, markQueue_length]

theorem sweepDead_blockCount (fuel : Nat) (g : Graph) (work : List Nat) :
    (sweepDead fuel g work).blockCount = g.blockCount := by
  induction fuel generalizing g work with
  | zero => rfl
  | succ fuel ih =>
    cases work with
    | nil => rfl
    | cons i work =>
      have hr : ∀ input (s : Graph × List Nat),
          (releaseInput input s).1.blockCount = s.1.blockCount := by
        intro input s
        simp only [releaseInput]
        split <;> rfl
      simp only [sweepDead]
      split
      · exact ih g work
      · rw [ih, hr, hr, Graph.setValue_blockCount]

theorem ssaOptimize_blockCount {fuel : Nat} (h : ssaOptimize fuel g = some g') :
    g'.blockCount = g.blockCount := by
  simp only [ssaOptimize, Option.bind_eq_bind, Option.bind_eq_some_iff, Option.some.injEq] at h
  obtain ⟨g1, h1, g2, h2, g3, h3, g4, h4, rfl⟩ := h
  have hu : ∀ g : Graph, (removeUnreachable g).blockCount = g.blockCount := by
    intro g
    have hm := markReachable_blockCount g
    simpa [removeUnreachable, Graph.blockCount] using hm
  unfold eliminateDeadValues
  rw [sweepDead_blockCount, hu, eliminateRedundantGuards, reuseEarlier_blockCount,
    recognizeElementLoopRanges_blockCount, eliminateRedundantElementLoads_blockCount,
    eliminateRedundantPropertyLoads_blockCount h4, forwardPropertyStoresToLoads_blockCount h3,
    createPropertyStorePhis_blockCount, eliminateOverwrittenPropertyStores_blockCount,
    scalarizeVirtualObjectLoads_blockCount, eliminateLocalCommonExpressions,
    reuseEarlier_blockCount, ssaInferTypes_blockCount h2, foldConstants_blockCount,
    ssaInferTypes_blockCount h1]

end

end TurboJS.Optimizing
