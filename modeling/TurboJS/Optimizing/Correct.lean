import TurboJS.Optimizing.Tracks

namespace TurboJS.Optimizing

open IR Foundation

def Block.range (b : Block) : Nat × Nat := (b.firstValue, b.valueCount)

structure SameLayout (g g' : Graph) : Prop where
  values : g'.values = g.values
  count : g'.blockCount = g.blockCount
  extent : ∀ b, (g'.block b).firstInstruction = (g.block b).firstInstruction ∧
    (g'.block b).instructionCount = (g.block b).instructionCount
  range : ∀ b, (g'.block b).range = (g.block b).range

section

variable {g g' g'' : Graph}

theorem SameLayout.refl (g : Graph) : SameLayout g g :=
  ⟨rfl, rfl, fun _ => ⟨rfl, rfl⟩, fun _ => rfl⟩

theorem SameLayout.trans (h : SameLayout g g') (h' : SameLayout g' g'') : SameLayout g g'' := by
  refine ⟨h'.values.trans h.values, h'.count.trans h.count, ?_,
    fun b => (h'.range b).trans (h.range b)⟩
  intro b
  exact ⟨(h'.extent b).1.trans (h.extent b).1, (h'.extent b).2.trans (h.extent b).2⟩

theorem SameLayout.setBlock (g : Graph) (b : Nat) {u : Block → Block}
    (hf : ∀ x, (u x).firstInstruction = x.firstInstruction)
    (hc : ∀ x, (u x).instructionCount = x.instructionCount)
    (hr : ∀ x, (u x).range = x.range) :
    SameLayout g (g.setBlock b u) := by
  refine ⟨rfl, Graph.setBlock_blockCount g b u, ?_, ?_⟩
  · intro c
    rw [Graph.setBlock_block]
    split
    · exact ⟨hf _, hc _⟩
    · exact ⟨rfl, rfl⟩
  · intro c
    rw [Graph.setBlock_block]
    split
    · exact hr _
    · rfl

theorem SameLayout.map (g : Graph) {u : Block → Block}
    (hf : ∀ x, (u x).firstInstruction = x.firstInstruction)
    (hc : ∀ x, (u x).instructionCount = x.instructionCount)
    (hr : ∀ x, (u x).range = x.range) :
    SameLayout g { g with blocks := g.blocks.map u } := by
  have hblock (b : Nat) : ({ g with blocks := g.blocks.map u } : Graph).block b = g.block b ∨
      ({ g with blocks := g.blocks.map u } : Graph).block b = u (g.block b) := by
    unfold Graph.block
    rw [List.getD_eq_getElem?_getD, List.getD_eq_getElem?_getD, List.getElem?_map]
    cases g.blocks[b]? with
    | none => exact .inl rfl
    | some x => exact .inr rfl
  refine ⟨rfl, by simp [Graph.blockCount], fun b => ?_, fun b => ?_⟩
  · rcases hblock b with h | h
    · rw [h]
      exact ⟨rfl, rfl⟩
    · rw [h]
      exact ⟨hf _, hc _⟩
  · rcases hblock b with h | h
    · rw [h]
    · rw [h]
      exact hr _

theorem forUp_sameLayout {n : Nat} {body : Nat → Graph → Graph}
    (h : ∀ i g, SameLayout g (body i g)) (g : Graph) : SameLayout g (forUp n body g) := by
  refine forUp_invariant (P := fun s => SameLayout g s) (.refl g) ?_
  intro i s _ hs
  exact hs.trans (h i s)

theorem forUpM_sameLayout {n : Nat} {body : Nat → Graph → Option Graph}
    (h : ∀ i g g', body i g = some g' → SameLayout g g') (hr : forUpM n body g = some g') :
    SameLayout g g' := by
  refine forUpM_invariant (P := fun s => SameLayout g s) (.refl g) ?_ hr
  intro i s s' _ hs hb
  exact hs.trans (h i s s' hb)

theorem foldlM_sameLayout {α : Type} {body : Graph → α → Option Graph} {xs : List α}
    (h : ∀ x g g', body g x = some g' → SameLayout g g') (hr : xs.foldlM body g = some g') :
    SameLayout g g' := by
  induction xs generalizing g with
  | nil =>
    simp only [List.foldlM_nil, Option.pure_def, Option.some.injEq] at hr
    subst hr
    exact .refl g
  | cons x xs ih =>
    simp only [List.foldlM_cons, Option.bind_eq_bind, Option.bind_eq_some_iff] at hr
    obtain ⟨t, ht, hr⟩ := hr
    exact (h x g t ht).trans (ih hr)

theorem foldl_sameLayout {α : Type} {body : Graph → α → Graph}
    (h : ∀ x g, SameLayout g (body g x)) (xs : List α) (g : Graph) :
    SameLayout g (xs.foldl body g) := by
  induction xs generalizing g with
  | nil => exact .refl g
  | cons x xs ih => exact (h x g).trans (ih _)

theorem blockAddSuccessor_sameLayout {source target : Nat}
    (h : blockAddSuccessor g source target = some g') : SameLayout g g' := by
  unfold blockAddSuccessor at h
  split at h
  · cases h
  · split at h
    · cases h
      exact .refl g
    · split at h
      · cases h
      · simp only [Option.some.injEq] at h
        subst h
        refine (SameLayout.setBlock g source ?_ ?_ ?_).trans (.setBlock _ target ?_ ?_ ?_) <;>
          (intro _; rfl)

theorem blockEdges_sameLayout {f : Function} {i : Nat} (h : blockEdges f i g = some g') :
    SameLayout g g' := by
  simp only [blockEdges] at h
  split at h
  · cases h
  · split at h
    · split at h
      · cases h
      · exact blockAddSuccessor_sameLayout h
    · split at h
      · split at h
        · cases h
        · simp only [Option.bind_eq_bind, Option.bind_eq_some_iff] at h
          obtain ⟨t, ht, h⟩ := h
          have hfirst := blockAddSuccessor_sameLayout ht
          split at h
          · exact hfirst.trans (blockAddSuccessor_sameLayout h)
          · cases h
            exact hfirst
      · split at h
        · exact blockAddSuccessor_sameLayout h
        · cases h
          exact .refl g

theorem ssaComputeDominators_sameLayout {fuel : Nat} (h : ssaComputeDominators fuel g = some g') :
    SameLayout g g' := by
  unfold ssaComputeDominators at h
  split at h
  · cases h
    exact .refl g
  · simp only [Option.bind_eq_bind, Option.bind_eq_some_iff, Option.some.injEq] at h
    obtain ⟨dom, -, h⟩ := h
    subst h
    exact forUp_sameLayout (fun i s =>
      .setBlock s i (by intro _; rfl) (by intro _; rfl) (by intro _; rfl)) g

theorem frontierWalk_sameLayout {i stop fuel runner : Nat}
    (h : frontierWalk i stop fuel runner g = some g') : SameLayout g g' := by
  induction fuel generalizing runner g with
  | zero => cases h
  | succ fuel ih =>
    simp only [frontierWalk] at h
    split at h
    · cases h
      exact .refl _
    · refine (SameLayout.setBlock g runner ?_ ?_ ?_).trans (ih h) <;> (intro _; rfl)

theorem ssaComputeDominanceFrontiers_sameLayout {fuel : Nat}
    (h : ssaComputeDominanceFrontiers fuel g = some g') : SameLayout g g' := by
  simp only [ssaComputeDominanceFrontiers] at h
  split at h
  · cases h
    exact .refl g
  · refine (SameLayout.map g (by intro _; rfl) (by intro _; rfl) (by intro _; rfl)).trans
      (forUpM_sameLayout ?_ h)
    intro i s s' hb
    split at hb
    · cases hb
      exact .refl s
    · exact foldlM_sameLayout (fun _ _ _ hw => frontierWalk_sameLayout hw) hb

theorem floodLoop_sameLayout (header fuel : Nat) (work seen : List Nat) (count : Nat) (g : Graph) :
    SameLayout g (floodLoop header fuel work seen count g) := by
  induction fuel generalizing work seen count g with
  | zero => exact .refl g
  | succ fuel ih =>
    cases work with
    | nil => exact .refl g
    | cons b work =>
      simp only [floodLoop]
      exact (SameLayout.setBlock g b (by intro _; rfl) (by intro _; rfl) (by intro _; rfl)).trans
        (ih _ _ _ _)

theorem ssaDetectLoops_sameLayout (g : Graph) : SameLayout g (ssaDetectLoops g) := by
  refine (SameLayout.map g (by intro _; rfl) (by intro _; rfl) (by intro _; rfl)).trans
    (forUp_sameLayout ?_ _)
  intro i s
  refine foldl_sameLayout ?_ _ s
  intro header s
  split
  · exact .refl s
  · exact (floodLoop_sameLayout ..).trans
      (.setBlock _ header (by intro _; rfl) (by intro _; rfl) (by intro _; rfl))

end

section

variable {f : Function}

theorem blockStarts_zero (h : f.instructions ≠ []) : 0 ∈ blockStarts f := by
  have hl : 0 < f.instructions.length := List.length_pos_iff.mpr h
  simp [blockStarts, leaders, hl]

theorem single_block (h : (blockStarts f).length = 1) {i : Nat} {insn : Instruction}
    (hi : f.instructions[i]? = some insn) (hlt : i + 1 < f.instructions.length) :
    isBranch insn.opcode = false ∧ insn.opcode ≠ .returnI64 := by
  have hne : f.instructions ≠ [] := by
    intro he
    rw [he] at hlt
    simp at hlt
  have hno : (i + 1) ∉ leadersOf f.instructions.length i insn := by
    intro hm
    have hlead : i + 1 ∈ blockStarts f := by
      simp only [blockStarts, List.mem_filter, List.mem_range, List.contains_iff_mem]
      refine ⟨hlt, List.mem_cons_of_mem _ (List.mem_flatMap.mpr ⟨(insn, i), ?_, hm⟩)⟩
      rw [List.mem_zipIdx_iff_getElem?]
      exact hi
    obtain ⟨a, ha⟩ := List.length_eq_one_iff.mp h
    have h0 := blockStarts_zero hne
    rw [ha, List.mem_singleton] at h0 hlead
    omega
  constructor
  · by_contra hb
    rw [Bool.not_eq_false] at hb
    simp [leadersOf, hb, hlt] at hno
  · intro hr
    simp [leadersOf, hr, hlt, isBranch] at hno

theorem single_extent (h : (blockStarts f).length = 1) (hne : f.instructions ≠ []) :
    initialBlocks f = [{ id := 0, firstInstruction := 0
                         instructionCount := f.instructions.length, reachable := true }] := by
  obtain ⟨a, ha⟩ := List.length_eq_one_iff.mp h
  have h0 := blockStarts_zero hne
  rw [ha, List.mem_singleton] at h0
  subst h0
  simp [initialBlocks, ha]

theorem buildBlocks_layout {g : Graph} (h : buildBlocks f = some g) :
    f.instructions ≠ [] ∧ SameLayout { blocks := initialBlocks f, entryBlock := 0 } g := by
  unfold buildBlocks at h
  split at h
  · cases h
  · rename_i hne
    exact ⟨hne, forUpM_sameLayout (fun _ _ _ hb => blockEdges_sameLayout hb) h⟩

theorem buildBlocks_single {g : Graph} (h : buildBlocks f = some g)
    (hlen : (blockStarts f).length = 1) :
    g.values = [] ∧ g.blockCount = 1 ∧ (g.block 0).firstInstruction = 0 ∧
      (g.block 0).instructionCount = f.instructions.length := by
  obtain ⟨hne, hs⟩ := buildBlocks_layout h
  have hext := single_extent hlen hne
  refine ⟨hs.values, ?_, ?_, ?_⟩
  · rw [hs.count]
    simp [Graph.blockCount, hext]
  · rw [(hs.extent 0).1]
    simp [Graph.block, hext]
  · rw [(hs.extent 0).2]
    simp [Graph.block, hext]

theorem mergeRegisters_first (g : Graph) (bi : Nat) :
    mergeRegisters (fun _ _ => noValue) bi g = some (g, fun _ => noValue) := by
  refine forUpM_id ?_
  intro r _
  have hf : ∀ preds : List Nat,
      (preds.map fun _ => noValue).filter (fun x => decide (x ≠ noValue)) = [] := by
    intro preds
    simp
  have hm : mergeRegister (fun _ _ => noValue) bi r g = some (g, noValue) := by
    simp only [mergeRegister, hf]
    rfl
  simp [hm]

variable {arguments : List Word} {w : Word} {ρ : Nat → Word}

theorem Tracks.foldlM {pre is : List Instruction} {k bi : Nat} {s s' : Graph × (Nat → Nat)}
    (h : Tracks arguments w ρ pre s) (hf : f.registerCount ≤ maxRegisters)
    (hc : ∀ i ∈ is, checkInstruction f i = none)
    (hw : ReturnsOnly arguments w (pre ++ is) fun _ => 0) (ha : ArgumentsFirst (pre ++ is))
    (ht : (is.zipIdx k).foldlM (fun s p => Optimizing.translate bi p.2 p.1 s) s = some s') :
    ∃ ρ, Tracks arguments w ρ (pre ++ is) s' := by
  induction is generalizing pre k s ρ with
  | nil =>
    simp only [List.zipIdx_nil, List.foldlM_nil, Option.pure_def, Option.some.injEq] at ht
    subst ht
    rw [List.append_nil]
    exact ⟨ρ, h⟩
  | cons i is ih =>
    simp only [List.zipIdx_cons, List.foldlM_cons, Option.bind_eq_bind,
      Option.bind_eq_some_iff] at ht
    obtain ⟨t, hstep, ht⟩ := ht
    have hfirst : i.opcode = .argument → ∀ j ∈ pre, j.opcode = .argument := by
      intro ho j hj
      exact (List.pairwise_append.mp ha).2.2 j hj i List.mem_cons_self ho
    obtain ⟨ρ', ht'⟩ := h.translate (hc i List.mem_cons_self) hf (hw pre i is rfl) hfirst hstep
    rw [List.append_cons] at hw ha ⊢
    exact ih ht' (fun j hj => hc j (List.mem_cons_of_mem _ hj)) hw ha ht

theorem Tracks.start {g : Graph} (hv : g.values = []) :
    Tracks arguments w (fun _ => 0) [] (g, fun _ => noValue) := by
  have hn : ∀ i, ¬ i < g.valueCount := by
    intro i
    simp [Graph.valueCount, hv]
  have hsound : Sound arguments w (fun _ => 0) g :=
    ⟨fun i hi => absurd hi (hn i), fun i hi => absurd hi (hn i),
      fun _ j _ hj => absurd hj (hn j)⟩
  refine ⟨⟨hsound, fun i hi => absurd hi (hn i), ?_, rfl⟩, fun _ => .inl rfl, fun _ => rfl,
    fun _ i hi => absurd hi (hn i)⟩
  simp [Graph.valueCount, hv]

theorem mergeRegister_blockCount {exits : Exits} {bi r v : Nat} {g g' : Graph}
    (h : mergeRegister exits bi r g = some (g', v)) : g'.blockCount = g.blockCount := by
  simp only [mergeRegister] at h
  split at h
  · split at h
    · simp only [Option.bind_eq_bind, Option.bind_eq_some_iff, Option.some.injEq,
        Prod.mk.injEq] at h
      obtain ⟨t, ht, rfl, -⟩ := h
      exact (emitValue_emitted ht).blocks
    · cases h
      rfl
  · cases h
    rfl

theorem mergeRegisters_blockCount {exits : Exits} {bi : Nat} {g : Graph}
    {s : Graph × (Nat → Nat)} (h : mergeRegisters exits bi g = some s) :
    s.1.blockCount = g.blockCount := by
  refine forUpM_invariant (P := fun s : Graph × (Nat → Nat) => s.1.blockCount = g.blockCount)
    rfl ?_ h
  intro r s s' _ hs hb
  simp only [Option.bind_eq_bind, Option.bind_eq_some_iff, Option.some.injEq] at hb
  obtain ⟨⟨t, v⟩, ht, rfl⟩ := hb
  exact (mergeRegister_blockCount ht).trans hs

theorem translate_blockCount {bi ii : Nat} {i : Instruction} {s s' : Graph × (Nat → Nat)}
    (h : Optimizing.translate bi ii i s = some s') : s'.1.blockCount = s.1.blockCount := by
  by_cases hn : mapOp i.opcode = .nop
  · simp only [Optimizing.translate, hn, if_true, Option.some.injEq] at h
    rw [h]
  · exact (translate_some hn h).1.blocks

theorem translate_foldlM_blockCount {bi : Nat} {is : List (Instruction × Nat)}
    {s s' : Graph × (Nat → Nat)}
    (h : is.foldlM (fun s p => Optimizing.translate bi p.2 p.1 s) s = some s') :
    s'.1.blockCount = s.1.blockCount := by
  induction is generalizing s with
  | nil =>
    simp only [List.foldlM_nil, Option.pure_def, Option.some.injEq] at h
    rw [h]
  | cons p is ih =>
    simp only [List.foldlM_cons, Option.bind_eq_bind, Option.bind_eq_some_iff] at h
    obtain ⟨t, ht, h⟩ := h
    rw [ih h, translate_blockCount ht]

theorem buildBlock_blockCount {n : Nat} {s s' : Graph × Exits}
    (h : forUpM n (buildBlock f) s = some s') : s'.1.blockCount = s.1.blockCount := by
  refine forUpM_invariant (P := fun t : Graph × Exits => t.1.blockCount = s.1.blockCount) rfl ?_ h
  intro i t t' _ hs hb
  simp only [buildBlock, Option.bind_eq_bind, Option.bind_eq_some_iff, Option.some.injEq] at hb
  obtain ⟨⟨g1, reg⟩, h1, ⟨g2, reg'⟩, h2, rfl⟩ := hb
  have hm := mergeRegisters_blockCount h1
  have ht := translate_foldlM_blockCount h2
  rw [Graph.setBlock_blockCount] at ht
  exact ht.trans (hm.trans hs)

theorem ssaBuildFromIR_stages {fuel : Nat} {g : Graph} (h : ssaBuildFromIR fuel f = some g) :
    ∃ g0 s, buildBlocks f = some g0 ∧
      forUpM g0.blockCount (buildBlock f) (g0, fun _ _ => noValue) = some s ∧
      g.values = s.1.values ∧ g.blockCount = (blockStarts f).length := by
  simp only [ssaBuildFromIR, Option.bind_eq_bind, Option.bind_eq_some_iff] at h
  obtain ⟨g0, h0, s, h1, g2, h2, g3, h3, h⟩ := h
  split at h
  · simp only [Option.some.injEq] at h
    have hl2 := ssaComputeDominators_sameLayout h2
    have hl3 := ssaComputeDominanceFrontiers_sameLayout h3
    have hl4 := ssaDetectLoops_sameLayout g3
    rw [h] at hl4
    refine ⟨g0, s, h0, h1, ?_, ?_⟩
    · rw [hl4.values, hl3.values, hl2.values, markReachable_values]
    · rw [hl4.count, hl3.count, hl2.count, markReachable_blockCount, buildBlock_blockCount h1,
        (buildBlocks_layout h0).2.count]
      simp [Graph.blockCount, initialBlocks]
  · cases h

theorem ssaBuildFromIR_built {fuel : Nat} {g : Graph} (hv : (irVerify f).status = .ok)
    (ha : ArgumentsFirst f.instructions) (hw : ReturnsOnly arguments w f.instructions fun _ => 0)
    (hb : g.blockCount = 1) (h : ssaBuildFromIR fuel f = some g) :
    ∃ ρ, Built arguments w ρ g := by
  obtain ⟨hcount, hcheck, -⟩ := irVerify_ok.mp hv
  obtain ⟨g0, ⟨g1, exits⟩, h0, h1, hvals, hlen⟩ := ssaBuildFromIR_stages h
  rw [hb] at hlen
  obtain ⟨hvals0, hg0, hfirst, hextent⟩ := buildBlocks_single h0 hlen.symm
  rw [hg0, forUpM_succ] at h1
  obtain ⟨s, hs, h1⟩ := Option.bind_eq_some_iff.mp h1
  have hs' : s = (g0, fun _ _ => noValue) := by
    simpa [forUpM] using hs.symm
  subst hs'
  simp only [buildBlock, Option.bind_eq_bind, Option.bind_eq_some_iff, mergeRegisters_first,
    Option.some.injEq, Prod.mk.injEq, exists_eq_left'] at h1
  obtain ⟨⟨g4, reg⟩, h4, hg4, -⟩ := h1
  simp only at hg4
  subst hg4
  have hext : ∀ u : Block → Block, (∀ x, (u x).firstInstruction = x.firstInstruction) →
      (∀ x, (u x).instructionCount = x.instructionCount) →
      ((g0.setBlock 0 u).block 0).firstInstruction = 0 ∧
      ((g0.setBlock 0 u).block 0).instructionCount = f.instructions.length := by
    intro u hu hu'
    rw [Graph.setBlock_block]
    split
    · exact ⟨(hu _).trans hfirst, (hu' _).trans hextent⟩
    · exact ⟨hfirst, hextent⟩
  obtain ⟨he1, he2⟩ := hext (fun b => { b with firstValue := g0.valueCount - b.valueCount })
    (fun _ => rfl) (fun _ => rfl)
  rw [he1, he2] at h4
  have hlist : (f.instructions.zipIdx.drop 0).take f.instructions.length =
      f.instructions.zipIdx := by
    rw [List.drop_zero, List.take_of_length_le]
    simp
  rw [hlist] at h4
  obtain ⟨ρ, ht⟩ := (Tracks.start (g := g0.setBlock 0 _) hvals0).foldlM hcount hcheck hw ha h4
  exact ⟨ρ, ht.built.of_values hvals⟩

theorem single_block_return (h : (blockStarts f).length = 1) {pre post : List Instruction}
    {i : Instruction} (hs : f.instructions = pre ++ i :: post) (hr : i.opcode = .returnI64) :
    post = [] := by
  by_contra hp
  have hi : f.instructions[pre.length]? = some i := by simp [hs]
  have hlt : pre.length + 1 < f.instructions.length := by
    have hpos : 0 < post.length := List.length_pos_iff.mpr hp
    simp [hs]
    omega
  exact (single_block h hi hlt).2 hr

theorem optimizingPipeline_stages {fuel : Nat} {feedback : Option FeedbackVector} {out : Function}
    (h : optimizingPipeline fuel f feedback = some out) :
    ∃ g g1 g2, ssaBuildFromIR fuel f = some g ∧ specializeWith feedback g = some g1 ∧
      ssaOptimize fuel g1 = some g2 ∧ lowerGraph g2 f.argumentCount = some out ∧
      g.blockCount = 1 := by
  simp only [optimizingPipeline, Option.bind_eq_bind, Option.bind_eq_some_iff] at h
  obtain ⟨g, hg, g1, h1, g2, h2, h⟩ := h
  refine ⟨g, g1, g2, hg, h1, h2, h, ?_⟩
  rw [← specializeWith_blockCount h1, ← ssaOptimize_blockCount h2]
  unfold lowerGraph at h
  split at h
  · cases h
  · rename_i hb
    exact Decidable.not_not.mp hb

theorem optimizingPipeline_returns {fuel : Nat} {feedback : Option FeedbackVector} {out : Function}
    (env : Env) (hv : (irVerify f).status = .ok) (hn : f.argumentCount ≤ arguments.length)
    (ha : ArgumentsFirst f.instructions) (h : optimizingPipeline fuel f feedback = some out)
    (hw : ReturnsOnly arguments w f.instructions fun _ => 0) :
    irExecute env out arguments = .ok w := by
  obtain ⟨g, g1, g2, hg, h1, h2, h, hone⟩ := optimizingPipeline_stages h
  obtain ⟨ρ, hb⟩ := ssaBuildFromIR_built hv ha hw hone hg
  obtain ⟨ρ, hb⟩ := hb.specialize h1
  exact (hb.toSound.ssaOptimize h2).lowerGraph hn h

def translatedResult (arguments : List Word) (f : Function) : Word :=
  match f.instructions.getLast? with
  | some i => translatedRegisters arguments f.instructions (fun _ => 0) i.left
  | none => 0

theorem translatedResult_returns {pre : List Instruction} {i : Instruction}
    (hs : f.instructions = pre ++ [i]) (hr : i.opcode = .returnI64) :
    translatedResult arguments f = translatedRegisters arguments pre (fun _ => 0) i.left := by
  have hstep : ∀ m, translatedStep arguments m i = m := by
    intro m
    simp [translatedStep, translatedWord, hr, mapOp, evalBinary, foldBinary]
  unfold translatedResult
  rw [hs, List.getLast?_concat]
  simp only [translatedRegisters_append]
  exact congrFun (hstep _) i.left

/-- A function that the pipeline compiles ends in its only `RETURN_I64`. Without one the
lowered code would return every word at once. -/
theorem optimizingPipeline_last {fuel : Nat} {feedback : Option FeedbackVector} {out : Function}
    (env : Env) (hv : (irVerify f).status = .ok) (hn : f.argumentCount ≤ arguments.length)
    (ha : ArgumentsFirst f.instructions) (h : optimizingPipeline fuel f feedback = some out) :
    ∃ pre i, f.instructions = pre ++ [i] ∧ i.opcode = .returnI64 := by
  obtain ⟨g, -, -, hg, -, -, -, hone⟩ := optimizingPipeline_stages h
  obtain ⟨-, -, -, -, -, hlen⟩ := ssaBuildFromIR_stages hg
  rw [hone] at hlen
  by_contra hno
  have hall : ∀ w, ReturnsOnly arguments w f.instructions fun _ => 0 := by
    intro w pre i post hs hr
    have hpost := single_block_return hlen.symm hs hr
    subst hpost
    exact absurd ⟨pre, i, hs, hr⟩ hno
  have h0 := optimizingPipeline_returns env hv hn ha h (hall 0)
  have h1 := optimizingPipeline_returns env hv hn ha h (hall 1)
  rw [h0] at h1
  cases h1

theorem optimizingPipeline_straight {fuel : Nat} {feedback : Option FeedbackVector}
    {out : Function} (env : Env) (hv : (irVerify f).status = .ok)
    (hn : f.argumentCount ≤ arguments.length) (ha : ArgumentsFirst f.instructions)
    (h : optimizingPipeline fuel f feedback = some out) :
    (∀ i ∈ f.instructions, ¬ Jumps i) ∧
      ReturnsOnly arguments (translatedResult arguments f) f.instructions fun _ => 0 := by
  obtain ⟨pre, last, hs, hr⟩ := optimizingPipeline_last env hv hn ha h
  obtain ⟨g, -, -, hg, -, -, -, hone⟩ := optimizingPipeline_stages h
  obtain ⟨-, -, -, -, -, hlen⟩ := ssaBuildFromIR_stages hg
  rw [hone] at hlen
  constructor
  · intro i hi hj
    obtain ⟨k, hki⟩ := List.mem_iff_getElem?.mp hi
    by_cases hlt : k + 1 < f.instructions.length
    · have hb := (single_block hlen.symm hki hlt).1
      rcases hj with hj | hj | hj <;> rw [hj] at hb <;> cases hb
    · have hkl : k = pre.length := by
        have hbound := (List.getElem?_eq_some_iff.mp hki).1
        rw [hs] at hbound hlt
        simp at hbound hlt
        omega
      rw [hs, hkl] at hki
      simp only [List.getElem?_concat_length, Option.some.injEq] at hki
      subst hki
      rcases hj with hj | hj | hj <;> rw [hr] at hj <;> cases hj
  · intro pre' i post hs' hr'
    have hpost := single_block_return hlen.symm hs' hr'
    subst hpost
    rw [translatedResult_returns hs' hr']

/-- Whether the optimiser may drop what it drops: the interpreter's run of `f` reaches a
return, and it returns the word that the translated instructions alone leave in the register
of the final `RETURN_I64`. -/
def KeepsResult (env : Env) (f : Function) (arguments : List Word) : Prop :=
  straightRun env f arguments f.instructions .zero = some (translatedResult arguments f)

end

def binaryFunction (op : Opcode) : Function where
  instructions :=
    [{ opcode := .argument, destination := 0, immediate := 0 },
     { opcode := .argument, destination := 1, immediate := 1 },
     { opcode := op, destination := 2, left := 0, right := 1 },
     { opcode := .returnI64, left := 2 }]
  registerCount := 3
  argumentCount := 2
  localCount := 0

def integerEnv : Env where
  addF64 _ _ := 0
  subF64 _ _ := 0
  mulF64 _ _ := 0
  divF64 _ _ := 0
  lessThanF64 _ _ := false
  lessEqualF64 _ _ := false
  equalF64 _ _ := false
  i64ToF64 _ := 0
  f64ToI64 _ := 0
  arity _ := 0
  native _ _ := none

end TurboJS.Optimizing
