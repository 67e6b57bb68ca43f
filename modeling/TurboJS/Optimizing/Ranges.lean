import TurboJS.Optimizing.Correct
import TurboJS.Optimizing.NoDangling

namespace TurboJS.Optimizing

open IR Foundation

/-! The values of a block are read off its range, and new values go to the end of one array. -/

def Block.Covers (b : Block) (i : Nat) : Prop :=
  b.firstValue ≤ i ∧ i < b.firstValue + b.valueCount

structure RangesExact (g : Graph) : Prop where
  exact : ∀ b, b < g.blockCount → ∀ i,
    (i < g.valueCount ∧ (g.value i).block = b) ↔ (g.block b).Covers i
  disjoint : ∀ b c, b < g.blockCount → c < g.blockCount → b ≠ c → ∀ i,
    ¬ ((g.block b).Covers i ∧ (g.block c).Covers i)

def Graph.EndsAt (g : Graph) (b : Nat) : Prop :=
  (g.block b).firstValue + (g.block b).valueCount = g.valueCount

/-- `TurboJS_SSAAddPhi`; `none` is any status but OK, and leaves the graph alone. -/
def ssaAddPhi (g : Graph) (block left right : Nat) (type : SSAType) : Option Graph :=
  if g.blockCount ≤ block || g.valueCount ≤ left || g.valueCount ≤ right then none
  else emitValue g
    { opcode := .phi, type := type, block := block, left := left, right := right
      sourceInstruction := (g.block block).firstInstruction }

inductive GraphOp where
  | addPhi (block left right : Nat) (type : SSAType)
  | specialize (feedback : FeedbackVector)
  | optimize (fuel : Nat)

def Graph.perform (g : Graph) : GraphOp → Option Graph
  | .addPhi block left right type => ssaAddPhi g block left right type
  | .specialize feedback => ssaSpecializeFromFeedback g feedback
  | .optimize fuel => ssaOptimize fuel g

def Graph.Appends (g : Graph) : GraphOp → Prop
  | .addPhi block _ _ _ => g.EndsAt block
  | .specialize feedback => ∀ i, i < g.valueCount → wantsGuard feedback (g.value i) = true →
      g.EndsAt (g.value i).block
  | .optimize _ => True

def AppendsAlong : Graph → List GraphOp → Prop
  | _, [] => True
  | g, op :: rest => g.Appends op ∧ ∀ g', g.perform op = some g' → AppendsAlong g' rest

structure Ranged (g : Graph) : Prop extends RangesExact g where
  starts : ∀ b, b < g.blockCount → (g.block b).firstValue ≤ g.valueCount
  homed : ∀ i, i < g.valueCount → (g.value i).block < g.blockCount

def Misplaced (g : Graph) : Prop :=
  ∃ b i, b < g.blockCount ∧ i < g.valueCount ∧ (g.block b).Covers i ∧ (g.value i).block ≠ b

structure SameRanges (g g' : Graph) : Prop where
  values : g'.valueCount = g.valueCount
  home : ∀ i, (g'.value i).block = (g.value i).block
  blocks : g'.blockCount = g.blockCount
  range : ∀ b, (g'.block b).range = (g.block b).range

/-- A value of block `b` is added at the end. -/
structure Appended (g : Graph) (b : Nat) (g' : Graph) : Prop where
  values : g'.valueCount = g.valueCount + 1
  last : (g'.value g.valueCount).block = b
  home : ∀ i, i < g.valueCount → (g'.value i).block = (g.value i).block
  blocks : g'.blockCount = g.blockCount
  first : ∀ c, (g'.block c).firstValue = (g.block c).firstValue
  grown : ∀ c, c < g.blockCount →
    (g'.block c).valueCount = (g.block c).valueCount + if c = b then 1 else 0

section

variable {g g' g'' out : Graph} {b c i n : Nat} {v : Value}

theorem RangesExact.of_exact (h : ∀ b, b < g.blockCount → ∀ i,
    (i < g.valueCount ∧ (g.value i).block = b) ↔ (g.block b).Covers i) : RangesExact g := by
  refine ⟨h, ?_⟩
  rintro b c hb hc hne i ⟨hib, hic⟩
  exact hne (((h b hb i).mpr hib).2.symm.trans ((h c hc i).mpr hic).2)

theorem covers_of_range {b b' : Block} (h : b'.range = b.range) : b'.Covers i ↔ b.Covers i := by
  obtain ⟨hf, hc⟩ := Prod.mk.injEq .. ▸ h
  unfold Block.Covers
  rw [hf, hc]

theorem SameRanges.fields (h : SameRanges g g') (b : Nat) :
    (g'.block b).firstValue = (g.block b).firstValue ∧
      (g'.block b).valueCount = (g.block b).valueCount :=
  ⟨congrArg Prod.fst (h.range b), congrArg Prod.snd (h.range b)⟩

theorem SameRanges.refl (g : Graph) : SameRanges g g := ⟨rfl, fun _ => rfl, rfl, fun _ => rfl⟩

theorem SameRanges.trans (h : SameRanges g g') (h' : SameRanges g' g'') : SameRanges g g'' :=
  ⟨h'.values.trans h.values, fun i => (h'.home i).trans (h.home i), h'.blocks.trans h.blocks,
    fun b => (h'.range b).trans (h.range b)⟩

theorem SameRanges.setValue (g : Graph) (i : Nat) {f : Value → Value}
    (hf : ∀ v, (f v).block = v.block) : SameRanges g (g.setValue i f) := by
  refine ⟨Graph.setValue_valueCount g i f, ?_, rfl, fun _ => rfl⟩
  intro j
  rw [Graph.setValue_value]
  split
  · exact hf _
  · rfl

theorem SameRanges.setBlock (g : Graph) (b : Nat) {f : Block → Block}
    (hf : ∀ x, (f x).range = x.range) : SameRanges g (g.setBlock b f) := by
  refine ⟨rfl, fun _ => rfl, Graph.setBlock_blockCount g b f, ?_⟩
  intro c
  rw [Graph.setBlock_block]
  split
  · exact hf _
  · rfl

theorem SameRanges.of_values (hcount : g'.valueCount = g.valueCount)
    (hhome : ∀ i, (g'.value i).block = (g.value i).block) (hb : g'.blocks = g.blocks) :
    SameRanges g g' := by
  refine ⟨hcount, hhome, ?_, fun b => ?_⟩
  · rw [Graph.blockCount, hb]
    rfl
  · rw [Graph.block, hb]
    rfl

theorem SameLayout.sameRanges (h : SameLayout g g') : SameRanges g g' := by
  refine ⟨?_, ?_, h.count, h.range⟩
  · rw [Graph.valueCount, h.values]
    rfl
  · intro i
    rw [Graph.value, h.values]
    rfl

theorem Ranged.same (h : Ranged g) (hs : SameRanges g g') : Ranged g' := by
  refine ⟨.of_exact fun b hb i => ?_, fun b hb => ?_, fun i hi => ?_⟩
  · rw [hs.blocks] at hb
    rw [hs.values, hs.home, covers_of_range (hs.range b)]
    exact h.exact b hb i
  · rw [hs.blocks] at hb
    rw [(hs.fields b).1, hs.values]
    exact h.starts b hb
  · rw [hs.values] at hi
    rw [hs.home, hs.blocks]
    exact h.homed i hi

theorem Misplaced.same (h : Misplaced g) (hs : SameRanges g g') : Misplaced g' := by
  obtain ⟨b, i, hb, hi, hcover, hne⟩ := h
  refine ⟨b, i, hs.blocks ▸ hb, hs.values ▸ hi, (covers_of_range (hs.range b)).mpr hcover, ?_⟩
  rw [hs.home]
  exact hne

theorem Misplaced.not_exact (h : Misplaced g) : ¬ RangesExact g := by
  obtain ⟨b, i, hb, -, hcover, hne⟩ := h
  intro hg
  exact hne ((hg.exact b hb i).mpr hcover).2

theorem emitValue_appended (h : emitValue g v = some g') : Appended g v.block g' := by
  have hem := emitValue_emitted h
  have hblock (c : Nat) : g'.block c =
      if v.block = c ∧ c < g.blockCount then
        { g.block c with valueCount := (g.block c).valueCount + 1 } else g.block c := by
    unfold emitValue at h
    split at h
    · cases h
    · simp only [Option.some.injEq] at h
      rw [← h, Graph.setBlock_block]
      have hsame (g₂ : Graph) (hg : g₂.blocks = g.blocks) (vs : List Value) :
          ({ g₂ with values := vs } : Graph).block c = g.block c ∧
            ({ g₂ with values := vs } : Graph).blockCount = g.blockCount := by
        unfold Graph.block Graph.blockCount
        rw [hg]
        exact ⟨rfl, rfl⟩
      have hs := hsame (if v.right ≠ noValue then
        (if v.left ≠ noValue then g.setValue v.left addUse else g).setValue v.right addUse
        else if v.left ≠ noValue then g.setValue v.left addUse else g)
        (by split <;> split <;> rfl)
      rw [(hs _).1, (hs _).2]
  refine ⟨hem.count, ?_, ?_, hem.blocks, ?_, ?_⟩
  · rw [hem.last]
    rfl
  · intro i hi
    obtain ⟨n, hn⟩ := hem.others i hi
    rw [hn]
    rfl
  · intro c
    rw [hblock]
    split <;> rfl
  · intro c hc
    rw [hblock]
    by_cases hcb : c = v.block
    · rw [if_pos ⟨hcb.symm, hc⟩, if_pos hcb]
    · rw [if_neg fun h => hcb h.1.symm, if_neg hcb]
      rfl

theorem Appended.covers (h : Appended g b g') (hc : c < g.blockCount) (hne : c ≠ b) :
    (g'.block c).Covers i ↔ (g.block c).Covers i := by
  unfold Block.Covers
  rw [h.first, h.grown c hc, if_neg hne]
  rfl

theorem Appended.endsAt (h : Appended g b g') (hb : b < g.blockCount) (he : g.EndsAt b) :
    g'.EndsAt b := by
  unfold Graph.EndsAt at *
  rw [h.first, h.grown b hb, if_pos rfl, h.values]
  omega

theorem Appended.homed (h : Appended g b g')
    (hg : ∀ i, i < g.valueCount → (g.value i).block < g.blockCount) (hb : b < g.blockCount)
    (hi : i < g'.valueCount) : (g'.value i).block < g'.blockCount := by
  rw [h.values] at hi
  rw [h.blocks]
  rcases Nat.lt_succ_iff_lt_or_eq.mp hi with hi | rfl
  · rw [h.home i hi]
    exact hg i hi
  · rw [h.last]
    exact hb

theorem Ranged.append (hg : Ranged g) (h : Appended g b g') (hb : b < g.blockCount)
    (he : g.EndsAt b) : Ranged g' := by
  refine ⟨.of_exact fun c hc i => ?_, fun c hc => ?_, fun i hi => h.homed hg.homed hb hi⟩
  · rw [h.blocks] at hc
    have hold := hg.exact c hc i
    rw [h.values]
    by_cases hcb : c = b
    · subst hcb
      unfold Graph.EndsAt at he
      unfold Block.Covers at hold ⊢
      rw [h.first, h.grown c hc, if_pos rfl]
      rcases Nat.lt_trichotomy i g.valueCount with hi | rfl | hi
      · rw [h.home i hi]
        constructor
        · rintro ⟨-, hhome⟩
          have := hold.mp ⟨hi, hhome⟩
          omega
        · rintro ⟨hfirst, -⟩
          exact ⟨by omega, (hold.mpr ⟨hfirst, by omega⟩).2⟩
      · have := hg.starts c hc
        exact iff_of_true ⟨by omega, h.last⟩ ⟨this, by omega⟩
      · exact iff_of_false (by omega) (by omega)
    · rw [h.covers hc hcb, ← hold]
      rcases Nat.lt_trichotomy i g.valueCount with hi | rfl | hi
      · rw [h.home i hi]
        exact and_congr_left fun _ => iff_of_true (by omega) hi
      · rw [h.last]
        exact iff_of_false (fun hx => hcb hx.2.symm) (by omega)
      · exact iff_of_false (by omega) (by omega)
  · rw [h.blocks] at hc
    have := hg.starts c hc
    rw [h.first, h.values]
    omega

theorem Ranged.append_misplaced (hg : Ranged g) (h : Appended g b g') (hb : b < g.blockCount)
    (he : ¬ g.EndsAt b) : Misplaced g' := by
  have hstart := hg.starts b hb
  have hexact := hg.exact b hb
  have hlt : (g.block b).firstValue + (g.block b).valueCount < g.valueCount := by
    unfold Graph.EndsAt at he
    rcases Nat.eq_zero_or_pos (g.block b).valueCount with hzero | hpos
    · omega
    · have := ((hexact ((g.block b).firstValue + (g.block b).valueCount - 1)).mpr
        ⟨by omega, by omega⟩).1
      omega
  refine ⟨b, (g.block b).firstValue + (g.block b).valueCount, h.blocks ▸ hb, ?_, ?_, ?_⟩
  · rw [h.values]
    omega
  · unfold Block.Covers
    rw [h.first, h.grown b hb, if_pos rfl]
    omega
  · rw [h.home _ hlt]
    intro hhome
    have := (hexact _).mp ⟨hlt, hhome⟩
    unfold Block.Covers at this
    omega

theorem Misplaced.append (hg : Misplaced g) (h : Appended g b g') : Misplaced g' := by
  obtain ⟨c, i, hc, hi, hcover, hne⟩ := hg
  refine ⟨c, i, h.blocks ▸ hc, ?_, ?_, ?_⟩
  · rw [h.values]
    omega
  · unfold Block.Covers at hcover ⊢
    rw [h.first, h.grown c hc]
    omega
  · rw [h.home i hi]
    exact hne

theorem SameRanges.mapValues (g : Graph) {f : Value → Value} (hf : ∀ v, (f v).block = v.block) :
    SameRanges g { g with values := g.values.map f } := by
  refine .of_values (by simp [Graph.valueCount]) (fun i => ?_) rfl
  unfold Graph.value
  rw [List.getD_eq_getElem?_getD, List.getD_eq_getElem?_getD, List.getElem?_map]
  cases g.values[i]? with
  | none => rfl
  | some v => exact hf v

theorem replaceValueUses_sameRanges (g : Graph) (i j : Nat) :
    SameRanges g (replaceValueUses g i j) := by
  unfold replaceValueUses
  have hmap : SameRanges g { g with values := g.values.map (substitute i j) } := by
    refine .mapValues g fun v => ?_
    unfold substitute
    split <;> rfl
  exact (hmap.trans (.setValue _ j (by intro _; rfl))).trans (.setValue _ i (by intro _; rfl))

theorem inferValue_sameRanges (i : Nat) (g : Graph) : SameRanges g (inferValue i g) := by
  unfold inferValue
  dsimp only
  split
  · exact .refl g
  · exact .setValue g i (by intro _; rfl)

theorem ssaInferTypes_sameRanges {fuel : Nat} (h : ssaInferTypes fuel g = some out) :
    SameRanges g out := by
  induction fuel generalizing g with
  | zero => cases h
  | succ fuel ih =>
    unfold ssaInferTypes at h
    dsimp only at h
    split at h
    · cases h
      exact .refl _
    · have hround : SameRanges g (forUp g.valueCount inferValue g) :=
        forUp_invariant (P := SameRanges g) (.refl g)
          fun i s _ hs => hs.trans (inferValue_sameRanges i s)
      exact hround.trans (ih h)

theorem foldValue_sameRanges (i : Nat) (g : Graph) : SameRanges g (foldValue i g) := by
  unfold foldValue
  dsimp only
  cases foldedConstant g (g.value i) with
  | none => exact .refl g
  | some folded =>
    have hdrop := (SameRanges.setValue g (g.value i).left (f := dropUse) (by intro _; rfl)).trans
      (.setValue _ (g.value i).right (f := dropUse) (by intro _; rfl))
    exact hdrop.trans (.setValue _ i (by intro _; rfl))

theorem foldBranch_sameRanges (i : Nat) (g : Graph) : SameRanges g (foldBranch i g) := by
  unfold foldBranch
  dsimp only
  cases chosenSuccessor g (g.value i) with
  | none => exact .refl g
  | some chosen =>
    have hdrop := SameRanges.setValue g (g.value i).left (f := dropUse) (by intro _; rfl)
    refine (hdrop.trans (.setValue _ i ?_)).trans (.setBlock _ _ ?_) <;> (intro _; rfl)

theorem foldConstants_sameRanges (g : Graph) : SameRanges g (foldConstants g) := by
  refine forUp_invariant (P := SameRanges g) (.refl g) ?_
  intro i s _ hs
  split
  · exact hs
  · exact (hs.trans (foldValue_sameRanges i s)).trans (foldBranch_sameRanges i _)

theorem Action.perform_sameRanges (i : Nat) (g : Graph) (a : Action) :
    SameRanges g (a.perform i g) := by
  have hredirect (j : Nat) : SameRanges g (redirect g i j) :=
    (replaceValueUses_sameRanges g i j).trans (.setValue _ i (by intro _; rfl))
  cases a with
  | keep => exact .refl g
  | takeOver j => exact hredirect j
  | takeOverOnce j => exact (hredirect j).trans (.setValue _ j (by intro _; rfl))
  | takeOverById j =>
    exact (replaceValueUses_sameRanges g _ j).trans (.setValue _ i (by intro _; rfl))
  | drop =>
    unfold Action.perform
    dsimp only
    rw [dropIfValue_eq, dropIfValue_eq]
    have hdrop := (SameRanges.setValue g (g.value i).left (f := dropUse) (by intro _; rfl)).trans
      (.setValue _ (g.value i).right (f := dropUse) (by intro _; rfl))
    exact hdrop.trans (.setValue _ i (by intro _; rfl))
  | merge l r =>
    have hdrop : SameRanges g (if (g.value i).left < g.valueCount then
        g.setValue (g.value i).left dropUse else g) := by
      split
      · exact .setValue g _ (by intro _; rfl)
      · exact .refl g
    refine ((hdrop.trans (.setValue _ l ?_)).trans (.setValue _ r ?_)).trans
      (.setValue _ i ?_) <;> (intro _; rfl)
  | annotate limit => exact .setValue g i (by intro _; rfl)

theorem sameRanges_of_skeletons (hvalues : g'.values = g.values)
    (hblocks : g'.blocks.map skeleton = g.blocks.map skeleton) : SameRanges g g' := by
  refine ⟨congrArg List.length hvalues, fun i => ?_, ?_, fun b => ?_⟩
  · rw [Graph.value, hvalues]
    rfl
  · simpa [Graph.blockCount] using congrArg List.length hblocks
  · change (skeleton (g'.block b)).range = (skeleton (g.block b)).range
    rw [skeleton_block hblocks]

theorem removeUnreachable_sameRanges (g : Graph) : SameRanges g (removeUnreachable g) := by
  by_cases hne : g.blocks = []
  · have hnil : (removeUnreachable g).blocks = [] := by
      simp [removeUnreachable, markReachable, hne]
    exact sameRanges_of_skeletons (markReachable_values g) (by rw [hnil, hne])
  · exact sameRanges_of_skeletons (markReachable_values g) (removeUnreachable_skeletons hne)

theorem eliminateDeadValues_sameRanges (g : Graph) : SameRanges g (eliminateDeadValues g) := by
  have hrelease (a : Nat) (s : Graph × List Nat) : SameRanges s.1 (releaseInput a s).1 := by
    rcases releaseInput_graph a s with h | ⟨h, -⟩
    · rw [h]
      exact .setValue _ a (by intro _; rfl)
    · rw [h]
      exact .refl _
  obtain ⟨w, hw, he⟩ := eliminateDeadValues_runs g
  rw [he]
  refine hw.keeps (P := fun w => SameRanges g w.1) ?_ (.refl g)
  intro s t hs hstep
  unfold sweepStep at hstep
  split at hstep
  · cases hstep
  · cases hstep
    split
    · refine hs.trans (.trans ?_ (hrelease _ _))
      exact (SameRanges.setValue s.1 _ (f := remove) (by intro _; rfl)).trans (hrelease _ (_, _))
    · exact hs

theorem ssaOptimize_sameRanges {fuel : Nat} (h : ssaOptimize fuel g = some out) :
    SameRanges g out := by
  rw [ssaOptimize_eq_passes] at h
  obtain ⟨g₁, h₁, h⟩ := Option.bind_eq_some_iff.mp h
  obtain ⟨g₂, h₂, h⟩ := Option.bind_eq_some_iff.mp h
  obtain ⟨g₃, h₃, rfl⟩ := Option.map_eq_some_iff.mp h
  have hfolded := ((ssaInferTypes_sameRanges h₁).trans (foldConstants_sameRanges g₁)).trans
    (ssaInferTypes_sameRanges h₂)
  have hpasses := (runPasses_invariant (P := SameRanges g) hfolded
    (fun _ i s a _ hs _ _ => hs.trans (a.perform_sameRanges i s)) h₃).1
  exact (hpasses.trans (removeUnreachable_sameRanges g₃)).trans (eliminateDeadValues_sameRanges _)

/-- The values of block `bi` are those from `n` on, and its range is not set yet. -/
structure Filling (g : Graph) (bi n : Nat) : Prop where
  within : bi < g.blockCount
  own : ∀ i, i < g.valueCount → ((g.value i).block = bi ↔ n ≤ i)
  count : n + (g.block bi).valueCount = g.valueCount
  others : ∀ b, b < g.blockCount → b ≠ bi → ∀ i,
    (i < g.valueCount ∧ (g.value i).block = b) ↔ (g.block b).Covers i
  starts : ∀ b, b < g.blockCount → b ≠ bi → (g.block b).firstValue ≤ g.valueCount
  homed : ∀ i, i < g.valueCount → (g.value i).block < g.blockCount

/-- The blocks from `n` on are empty. -/
def EmptyFrom (g : Graph) (n : Nat) : Prop :=
  ∀ c, n ≤ c → c < g.blockCount → (g.block c).valueCount = 0

theorem EmptyFrom.append {bi : Nat} (he : EmptyFrom g n) (h : Appended g bi g') (hn : bi < n) :
    EmptyFrom g' n := by
  intro c hle hc
  rw [h.blocks] at hc
  rw [h.grown c hc, if_neg (by omega), he c hle hc]

theorem Ranged.filling {bi : Nat} (hg : Ranged g) (hb : bi < g.blockCount)
    (hzero : (g.block bi).valueCount = 0) : Filling g bi g.valueCount := by
  refine ⟨hb, fun i hi => ?_, by rw [hzero]; rfl, fun b hb _ => hg.exact b hb,
    fun b hb _ => hg.starts b hb, hg.homed⟩
  refine iff_of_false (fun hhome => ?_) (by omega)
  have := (hg.exact bi hb i).mp ⟨hi, hhome⟩
  unfold Block.Covers at this
  omega

theorem Filling.append {bi : Nat} (hg : Filling g bi n) (h : Appended g bi g') :
    Filling g' bi n := by
  have hle : n ≤ g.valueCount := by
    have := hg.count
    omega
  refine ⟨h.blocks ▸ hg.within, fun i hi => ?_, ?_, fun b hb hne i => ?_, fun b hb hne => ?_,
    fun i hi => h.homed hg.homed hg.within hi⟩
  · rw [h.values] at hi
    rcases Nat.lt_succ_iff_lt_or_eq.mp hi with hi | rfl
    · rw [h.home i hi]
      exact hg.own i hi
    · exact iff_of_true h.last hle
  · rw [h.grown bi hg.within, if_pos rfl, h.values, ← hg.count]
    rfl
  · rw [h.blocks] at hb
    rw [h.covers hb hne, ← hg.others b hb hne, h.values]
    rcases Nat.lt_trichotomy i g.valueCount with hi | rfl | hi
    · rw [h.home i hi]
      exact and_congr_left fun _ => iff_of_true (by omega) hi
    · rw [h.last]
      exact iff_of_false (fun hx => hne hx.2.symm) (by omega)
    · exact iff_of_false (by omega) (by omega)
  · rw [h.blocks] at hb
    have := hg.starts b hb hne
    rw [h.first, h.values]
    omega

theorem Filling.close {bi : Nat} (hg : Filling g bi n) :
    let g' := g.setBlock bi fun b => { b with firstValue := g.valueCount - b.valueCount }
    Ranged g' ∧ g'.EndsAt bi := by
  have hcount := hg.count
  have hblock (b : Nat) : (g.setBlock bi fun b =>
      { b with firstValue := g.valueCount - b.valueCount }).block b =
      if b = bi then { g.block b with firstValue := n } else g.block b := by
    rw [Graph.setBlock_block]
    by_cases hbi : b = bi
    · subst hbi
      rw [if_pos ⟨rfl, hg.within⟩, if_pos rfl]
      congr 1
      omega
    · rw [if_neg fun h => hbi h.1.symm, if_neg hbi]
  refine ⟨⟨.of_exact fun b hb i => ?_, fun b hb => ?_, fun i hi => ?_⟩, ?_⟩
  · rw [Graph.setBlock_blockCount] at hb
    rw [hblock, Graph.setBlock_valueCount, setBlock_value]
    by_cases hbi : b = bi
    · subst hbi
      rw [if_pos rfl]
      unfold Block.Covers
      constructor
      · rintro ⟨hi, hhome⟩
        have := (hg.own i hi).mp hhome
        simp only
        omega
      · simp only
        rintro ⟨hfirst, hlt⟩
        have hi : i < g.valueCount := by omega
        exact ⟨hi, (hg.own i hi).mpr hfirst⟩
    · rw [if_neg hbi]
      exact hg.others b hb hbi i
  · rw [Graph.setBlock_blockCount] at hb
    rw [hblock, Graph.setBlock_valueCount]
    by_cases hbi : b = bi
    · rw [if_pos hbi]
      simp only
      omega
    · rw [if_neg hbi]
      exact hg.starts b hb hbi
  · rw [Graph.setBlock_blockCount]
    exact hg.homed i hi
  · unfold Graph.EndsAt
    rw [hblock, if_pos rfl, Graph.setBlock_valueCount]
    exact hcount

theorem mergeRegister_appended {exits : Exits} {bi r v : Nat}
    (h : mergeRegister exits bi r g = some (g', v)) : g' = g ∨ Appended g bi g' := by
  simp only [mergeRegister] at h
  split at h
  · split at h
    · simp only [Option.bind_eq_bind, Option.bind_eq_some_iff, Option.some.injEq,
        Prod.mk.injEq] at h
      obtain ⟨t, ht, rfl, -⟩ := h
      exact .inr (emitValue_appended ht)
    · cases h
      exact .inl rfl
  · cases h
    exact .inl rfl

theorem translate_appended {bi ii : Nat} {insn : Instruction} {s s' : Graph × (Nat → Nat)}
    (h : translate bi ii insn s = some s') : s'.1 = s.1 ∨ Appended s.1 bi s'.1 := by
  unfold translate at h
  dsimp only at h
  split at h
  · cases h
    exact .inl rfl
  · simp only [Option.bind_eq_bind, Option.bind_eq_some_iff, Option.some.injEq] at h
    obtain ⟨t, ht, rfl⟩ := h
    exact .inr (emitValue_appended ht)

theorem Ranged.buildBlock {f : Function} {bi : Nat} {s s' : Graph × Exits} (hg : Ranged s.1)
    (he : EmptyFrom s.1 bi) (hb : bi < s.1.blockCount) (h : buildBlock f bi s = some s') :
    Ranged s'.1 ∧ EmptyFrom s'.1 (bi + 1) := by
  simp only [Optimizing.buildBlock, Option.bind_eq_bind, Option.bind_eq_some_iff,
    Option.some.injEq] at h
  obtain ⟨⟨g₁, reg⟩, h₁, ⟨g₂, reg'⟩, h₂, rfl⟩ := h
  have hlater : EmptyFrom s.1 (bi + 1) := fun c hle hc => he c (by omega) hc
  have hmerged : Filling g₁ bi s.1.valueCount ∧ EmptyFrom g₁ (bi + 1) := by
    refine forUpM_invariant (P := fun t : Graph × (Nat → Nat) =>
      Filling t.1 bi s.1.valueCount ∧ EmptyFrom t.1 (bi + 1))
      ⟨hg.filling hb (he bi (Nat.le_refl bi) hb), hlater⟩ ?_ h₁
    intro r t t' _ ht hstep
    simp only [Option.bind_eq_bind, Option.bind_eq_some_iff, Option.some.injEq] at hstep
    obtain ⟨⟨u, v⟩, hu, rfl⟩ := hstep
    rcases mergeRegister_appended hu with rfl | happ
    · exact ht
    · exact ⟨ht.1.append happ, ht.2.append happ (Nat.lt_succ_self bi)⟩
  obtain ⟨hranged, hends⟩ := hmerged.1.close
  have hempty : EmptyFrom (g₁.setBlock bi fun b =>
      { b with firstValue := g₁.valueCount - b.valueCount }) (bi + 1) := by
    intro c hle hc
    rw [Graph.setBlock_blockCount] at hc
    rw [Graph.setBlock_block, if_neg (by omega)]
    exact hmerged.2 c hle hc
  have hbound : bi < (g₁.setBlock bi fun b =>
      { b with firstValue := g₁.valueCount - b.valueCount }).blockCount := by
    rw [Graph.setBlock_blockCount]
    exact hmerged.1.within
  dsimp only at h₂ ⊢
  clear h₁
  revert h₂ hranged hends hempty hbound
  generalize (g₁.setBlock bi fun b =>
    { b with firstValue := g₁.valueCount - b.valueCount }) = t
  intro h₂ hranged hends hempty hbound
  generalize (f.instructions.zipIdx.drop (t.block bi).firstInstruction).take
    (t.block bi).instructionCount = insns at h₂
  induction insns generalizing t reg with
  | nil =>
    cases h₂
    exact ⟨hranged, hempty⟩
  | cons p rest ih =>
    simp only [List.foldlM_cons, Option.bind_eq_bind, Option.bind_eq_some_iff] at h₂
    obtain ⟨⟨u, reg''⟩, hu, h₂⟩ := h₂
    rcases translate_appended hu with rfl | happ
    · exact ih _ _ hranged hends hempty hbound h₂
    · exact ih _ _ (hranged.append happ hbound hends) (happ.endsAt hbound hends)
        (hempty.append happ (Nat.lt_succ_self bi)) (happ.blocks ▸ hbound) h₂

theorem ssaBuildFromIR_ranged {f : Function} {fuel : Nat} (h : ssaBuildFromIR fuel f = some g) :
    Ranged g := by
  simp only [ssaBuildFromIR, Option.bind_eq_bind, Option.bind_eq_some_iff] at h
  obtain ⟨g₀, h₀, ⟨g₁, exits⟩, h₁, g₂, h₂, g₃, h₃, h⟩ := h
  obtain ⟨hne, hlayout⟩ := buildBlocks_layout h₀
  have hrange (b : Nat) : (g₀.block b).range = (0, 0) := by
    rw [hlayout.range]
    unfold Graph.block initialBlocks
    rw [List.getD_eq_getElem?_getD, List.getElem?_map]
    cases (blockStarts f).zipIdx[b]? <;> rfl
  have hnone : g₀.valueCount = 0 := by
    rw [Graph.valueCount, hlayout.values]
    rfl
  have hfirst (b : Nat) : (g₀.block b).firstValue = 0 ∧ (g₀.block b).valueCount = 0 :=
    ⟨congrArg Prod.fst (hrange b), congrArg Prod.snd (hrange b)⟩
  have hstart : Ranged g₀ := by
    refine ⟨.of_exact fun b _ i => ?_, fun b _ => ?_, fun i hi => ?_⟩
    · unfold Block.Covers
      rw [hnone, (hfirst b).1, (hfirst b).2]
      exact iff_of_false (by omega) (by omega)
    · rw [(hfirst b).1]
      exact Nat.zero_le _
    · rw [hnone] at hi
      exact absurd hi (Nat.not_lt_zero i)
  have hbuilt := forUpM_induction (P := fun n (s : Graph × Exits) =>
      Ranged s.1 ∧ EmptyFrom s.1 n ∧ s.1.blockCount = g₀.blockCount)
    ⟨hstart, fun c _ _ => (hfirst c).2, rfl⟩ (by
      intro n s s' hn hs hstep
      obtain ⟨hr, he⟩ := hs.1.buildBlock hs.2.1 (hs.2.2 ▸ hn) hstep
      refine ⟨hr, he, ?_⟩
      simp only [buildBlock, Option.bind_eq_bind, Option.bind_eq_some_iff,
        Option.some.injEq] at hstep
      obtain ⟨⟨t, reg⟩, ht, ⟨u, reg'⟩, hu, rfl⟩ := hstep
      have hmerge := mergeRegisters_blockCount ht
      have htranslate := translate_foldlM_blockCount hu
      rw [Graph.setBlock_blockCount] at htranslate
      exact htranslate.trans (hmerge.trans hs.2.2)) h₁
  have hmark : SameRanges g₁ (markReachable g₁) := by
    by_cases hnil : g₁.blocks = []
    · rw [markReachable, if_pos hnil]
      exact .refl g₁
    · exact sameRanges_of_skeletons (markReachable_values g₁) (markReachable_skeletons hnil)
  split at h
  · cases h
    exact (((hbuilt.1.same hmark).same (ssaComputeDominators_sameLayout h₂).sameRanges).same
      (ssaComputeDominanceFrontiers_sameLayout h₃).sameRanges).same
      (ssaDetectLoops_sameLayout g₃).sameRanges
  · cases h

theorem Ranged.endsAt_unique (hg : Ranged g) (hb : g.EndsAt b) (hc : g.EndsAt c) {j : Nat}
    (hi : i < g.valueCount) (hib : (g.value i).block = b) (hj : j < g.valueCount)
    (hjc : (g.value j).block = c) : b = c := by
  have hbound : b < g.blockCount := hib ▸ hg.homed i hi
  have hbound' : c < g.blockCount := hjc ▸ hg.homed j hj
  have hcover := (hg.exact b hbound i).mp ⟨hi, hib⟩
  have hcover' := (hg.exact c hbound' j).mp ⟨hj, hjc⟩
  unfold Graph.EndsAt Block.Covers at *
  -- Both ranges hold the last value.
  by_contra hne
  refine hg.disjoint b c hbound hbound' hne (g.valueCount - 1) ⟨⟨?_, ?_⟩, ?_, ?_⟩ <;> omega

/-- The graph at visit `i` of the specialisation of `g`. -/
structure Specializing (feedback : FeedbackVector) (g : Graph) (i : Nat) (s : Graph) : Prop where
  count : g.valueCount ≤ s.valueCount
  wants : ∀ j, j < g.valueCount →
    wantsGuard feedback (s.value j) = wantsGuard feedback (g.value j)
  home : ∀ j, j < g.valueCount → (s.value j).block = (g.value j).block
  good : (∀ j, j < i → wantsGuard feedback (g.value j) = true → g.EndsAt (g.value j).block) →
    Ranged s ∧ ∀ j, j < g.valueCount →
      (s.EndsAt (g.value j).block ↔ g.EndsAt (g.value j).block)
  bad : ¬ (∀ j, j < i → wantsGuard feedback (g.value j) = true → g.EndsAt (g.value j).block) →
    Misplaced s

theorem specializeValue_appended {feedback : FeedbackVector}
    (h : specializeValue feedback i g = some g') :
    (wantsGuard feedback (g.value i) = false ∧ g' = g) ∨
      (wantsGuard feedback (g.value i) = true ∧ ∃ t, SameRanges g t ∧
        Appended t (g.value i).block g' ∧ ∀ j, j < g.valueCount →
          wantsGuard feedback (g'.value j) = wantsGuard feedback (g.value j)) := by
  unfold specializeValue at h
  cases hw : wantsGuard feedback (g.value i) with
  | false =>
    simp only [hw, Bool.not_false, if_true, Option.some.injEq] at h
    exact .inl ⟨rfl, h.symm⟩
  | true =>
    simp only [hw, Bool.not_true, Bool.false_eq_true, if_false, Option.bind_eq_bind,
      Option.bind_eq_some_iff, Option.some.injEq] at h
    obtain ⟨u, hu, rfl⟩ := h
    have htyped : SameRanges g (g.setValue i fun v => { v with type := .int32 }) :=
      .setValue g i (by intro _; rfl)
    have happ := emitValue_appended hu
    simp only [htyped.home] at happ
    refine .inr ⟨rfl, _, htyped, ⟨happ.1, happ.2, happ.3, happ.4, happ.5, happ.6⟩, ?_⟩
    intro j hj
    obtain ⟨n, hn⟩ := (emitValue_emitted hu).others j (htyped.values ▸ hj)
    change wantsGuard feedback (u.value j) = _
    rw [hn, Graph.setValue_value]
    split <;> rfl

theorem Specializing.step {feedback : FeedbackVector} {s s' : Graph}
    (h : Specializing feedback g i s) (hi : i < g.valueCount)
    (hs : specializeValue feedback i s = some s') : Specializing feedback g (i + 1) s' := by
  have hsplit : (∀ j, j < i + 1 → wantsGuard feedback (g.value j) = true →
      g.EndsAt (g.value j).block) ↔
      (∀ j, j < i → wantsGuard feedback (g.value j) = true → g.EndsAt (g.value j).block) ∧
        (wantsGuard feedback (g.value i) = true → g.EndsAt (g.value i).block) := by
    constructor
    · intro hall
      exact ⟨fun j hj => hall j (by omega), hall i (by omega)⟩
    · rintro ⟨hbefore, hhere⟩ j hj
      rcases Nat.lt_succ_iff_lt_or_eq.mp hj with hj | rfl
      · exact hbefore j hj
      · exact hhere
  rcases specializeValue_appended hs with ⟨hw, rfl⟩ | ⟨hw, t, hsame, happ, hwants⟩
  · rw [h.wants i hi] at hw
    refine ⟨h.count, h.wants, h.home, fun hall => h.good (hsplit.mp hall).1, fun hno => ?_⟩
    refine h.bad fun hall => hno (hsplit.mpr ⟨hall, fun hx => ?_⟩)
    rw [hw] at hx
    cases hx
  · rw [h.wants i hi] at hw
    rw [h.home i hi] at happ
    have hcount : g.valueCount ≤ t.valueCount := hsame.values ▸ h.count
    have hends (c : Nat) : t.EndsAt c ↔ s.EndsAt c := by
      unfold Graph.EndsAt
      rw [hsame.values, (hsame.fields c).1, (hsame.fields c).2]
    have hhome : ∀ j, j < g.valueCount → (s'.value j).block = (g.value j).block := by
      intro j hj
      rw [happ.home j (by omega), hsame.home, h.home j hj]
    have htyped (hranged : Ranged s) : Ranged t ∧ (g.value i).block < t.blockCount := by
      have hranged' := hranged.same hsame
      have hbound := hranged'.homed i (by omega)
      rw [hsame.home, h.home i hi] at hbound
      exact ⟨hranged', hbound⟩
    refine ⟨?_, ?_, hhome, ?_, ?_⟩
    · rw [happ.values]
      omega
    · intro j hj
      rw [hwants j (Nat.lt_of_lt_of_le hj h.count), h.wants j hj]
    · intro hall
      obtain ⟨hbefore, hhere⟩ := hsplit.mp hall
      obtain ⟨hranged, hiff⟩ := h.good hbefore
      obtain ⟨hranged', hbound⟩ := htyped hranged
      have hend : t.EndsAt (g.value i).block := (hends _).mpr ((hiff i hi).mpr (hhere hw))
      have hnew := hranged'.append happ hbound hend
      have hend' := happ.endsAt hbound hend
      refine ⟨hnew, fun j hj => ?_⟩
      -- Only one block with a value ends at the end of the array.
      constructor
      · intro hj'
        rw [hnew.endsAt_unique hj' hend' (i := j) (j := i) (by rw [happ.values]; omega)
          (hhome j hj) (by rw [happ.values]; omega) (hhome i hi)]
        exact hhere hw
      · intro hj'
        have hj'' : t.EndsAt (g.value j).block := (hends _).mpr ((hiff j hj).mpr hj')
        rw [hranged'.endsAt_unique hj'' hend (i := j) (j := i) (by omega)
          (by rw [hsame.home, h.home j hj]) (by omega) (by rw [hsame.home, h.home i hi])]
        exact hend'
    · intro hno
      by_cases hbefore : ∀ j, j < i → wantsGuard feedback (g.value j) = true →
          g.EndsAt (g.value j).block
      · obtain ⟨hranged, hiff⟩ := h.good hbefore
        obtain ⟨hranged', hbound⟩ := htyped hranged
        refine hranged'.append_misplaced happ hbound fun hend => hno (hsplit.mpr ⟨hbefore, ?_⟩)
        exact fun _ => (hiff i hi).mp ((hends _).mp hend)
      · exact ((h.bad hbefore).same hsame).append happ

theorem Specializing.run {feedback : FeedbackVector} (hg : Ranged g)
    (h : ssaSpecializeFromFeedback g feedback = some g') :
    Specializing feedback g g.valueCount g' := by
  unfold ssaSpecializeFromFeedback at h
  split at h
  · cases h
  · refine forUpM_induction (P := fun i s => Specializing feedback g i s) ?_ ?_ h
    · refine ⟨Nat.le_refl _, fun _ _ => rfl, fun _ _ => rfl, fun _ => ⟨hg, fun _ _ => Iff.rfl⟩,
        fun hno => absurd ?_ hno⟩
      intro j hj
      exact absurd hj (Nat.not_lt_zero j)
    · intro i s s' hi hs hstep
      exact hs.step hi hstep

theorem Misplaced.specialize {feedback : FeedbackVector} (hg : Misplaced g)
    (h : ssaSpecializeFromFeedback g feedback = some g') : Misplaced g' := by
  unfold ssaSpecializeFromFeedback at h
  split at h
  · cases h
  · refine forUpM_invariant (P := Misplaced) hg ?_ h
    intro i s s' _ hs hstep
    rcases specializeValue_appended hstep with ⟨-, rfl⟩ | ⟨-, t, hsame, happ, -⟩
    · exact hs
    · exact (hs.same hsame).append happ

theorem ssaAddPhi_appended {block left right : Nat} {type : SSAType}
    (h : ssaAddPhi g block left right type = some g') :
    block < g.blockCount ∧ Appended g block g' := by
  unfold ssaAddPhi at h
  split at h
  · cases h
  · rename_i hvalid
    simp only [Bool.or_eq_true, decide_eq_true_eq, not_or, Nat.not_le] at hvalid
    exact ⟨hvalid.1.1, emitValue_appended h⟩

theorem Ranged.perform {op : GraphOp} (hg : Ranged g) (h : g.perform op = some g') :
    (g.Appends op → Ranged g') ∧ (¬ g.Appends op → Misplaced g') := by
  cases op with
  | addPhi block left right type =>
    obtain ⟨hb, happ⟩ := ssaAddPhi_appended h
    exact ⟨hg.append happ hb, hg.append_misplaced happ hb⟩
  | specialize feedback =>
    have hrun := Specializing.run hg h
    exact ⟨fun hall => (hrun.good hall).1, hrun.bad⟩
  | optimize fuel =>
    exact ⟨fun _ => hg.same (ssaOptimize_sameRanges h), fun hno => absurd trivial hno⟩

theorem Misplaced.perform {op : GraphOp} (hg : Misplaced g) (h : g.perform op = some g') :
    Misplaced g' := by
  cases op with
  | addPhi block left right type => exact hg.append (ssaAddPhi_appended h).2
  | specialize feedback => exact hg.specialize h
  | optimize fuel => exact hg.same (ssaOptimize_sameRanges h)

theorem Misplaced.run {ops : List GraphOp} (hg : Misplaced g)
    (h : ops.foldlM Graph.perform g = some out) : Misplaced out := by
  induction ops generalizing g with
  | nil =>
    cases h
    exact hg
  | cons op rest ih =>
    obtain ⟨g', hg', h⟩ := Option.bind_eq_some_iff.mp h
    exact ih (hg.perform hg') h

theorem Ranged.run_iff {ops : List GraphOp} (hg : Ranged g)
    (h : ops.foldlM Graph.perform g = some out) : RangesExact out ↔ AppendsAlong g ops := by
  induction ops generalizing g with
  | nil =>
    cases h
    exact iff_of_true hg.toRangesExact trivial
  | cons op rest ih =>
    obtain ⟨g', hg', h⟩ := Option.bind_eq_some_iff.mp h
    obtain ⟨hgood, hbad⟩ := hg.perform hg'
    by_cases happ : g.Appends op
    · rw [ih (hgood happ) h]
      constructor
      · intro hrest
        refine ⟨happ, fun g'' hg'' => ?_⟩
        rw [hg'] at hg''
        cases hg''
        exact hrest
      · intro hall
        exact hall.2 g' hg'
    · exact iff_of_false ((hbad happ).run h).not_exact fun hall => happ hall.1

end

/-- After the builder and any operations the ranges of the blocks are exact if and only if each
operation put its values only into blocks that end at the end of the array. -/
theorem block_ranges_exact_iff {f : Function} {fuel : Nat} {g out : Graph}
    (hbuild : ssaBuildFromIR fuel f = some g) (ops : List GraphOp)
    (hrun : ops.foldlM Graph.perform g = some out) : RangesExact out ↔ AppendsAlong g ops :=
  (ssaBuildFromIR_ranged hbuild).run_iff hrun

def jumping : Function where
  instructions :=
    [{ opcode := .argument, destination := 0, immediate := 0 },
     { opcode := .jump, target := 2 },
     { opcode := .returnI64, left := 0 }]
  registerCount := 1
  argumentCount := 1
  localCount := 0

/-- A phi in the last block, and the optimiser behind it. -/
theorem last_block_takes_a_phi :
    ∃ g out, ssaBuildFromIR 4 jumping = some g ∧
      [.addPhi 1 0 0 .int64, .optimize 8].foldlM Graph.perform g = some out ∧
      RangesExact out := by
  have hends : (ssaBuildFromIR 4 jumping).any (fun g =>
      (g.block 1).firstValue + (g.block 1).valueCount = g.valueCount &&
        ([.addPhi 1 0 0 .int64, .optimize 8].foldlM Graph.perform g).isSome) = true := by
    decide +kernel
  obtain ⟨g, hg, hends⟩ := (Option.any_eq_true _ _).mp hends
  rw [Bool.and_eq_true, decide_eq_true_eq] at hends
  obtain ⟨out, hout⟩ := Option.isSome_iff_exists.mp hends.2
  exact ⟨g, out, hg, hout,
    (block_ranges_exact_iff hg _ hout).mpr ⟨hends.1, fun _ _ => ⟨trivial, fun _ _ => trivial⟩⟩⟩

/-- The guard of the argument goes behind the return of the other block: the range of the first
block then holds that return, and the guard is in no range. -/
theorem guard_is_in_no_range :
    (irVerify jumping).status = .ok ∧ ∃ g out, ssaBuildFromIR 4 jumping = some g ∧
      [.specialize [⟨1, 1⟩]].foldlM Graph.perform g = some out ∧ ¬ RangesExact out := by
  have hwrong : ((ssaBuildFromIR 4 jumping).bind fun g =>
      [.specialize [⟨1, 1⟩]].foldlM Graph.perform g).any (fun out =>
        decide (0 < out.blockCount ∧ (out.block 0).firstValue ≤ 2 ∧
          2 < (out.block 0).firstValue + (out.block 0).valueCount ∧ (out.value 2).block ≠ 0)) =
      true := by
    decide +kernel
  obtain ⟨out, hout, hwrong⟩ := (Option.any_eq_true _ _).mp hwrong
  obtain ⟨g, hg, hout⟩ := Option.bind_eq_some_iff.mp hout
  obtain ⟨hb, hfirst, hlast, hblock⟩ := of_decide_eq_true hwrong
  refine ⟨by decide, g, out, hg, hout, fun hexact => hblock ?_⟩
  exact ((hexact.exact 0 hb 2).mpr ⟨hfirst, hlast⟩).2

end TurboJS.Optimizing
