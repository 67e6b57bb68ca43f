import TurboJS.Optimizing.PassRuns
import TurboJS.Foundation.Run
import Mathlib.Data.List.Perm.Subperm
import Mathlib.Data.List.Range
import Mathlib.Data.List.Nodup

namespace TurboJS.Optimizing

open IR Foundation

/-! No value that survives the optimiser refers to one that does not. -/

def deadValues (g : Graph) : List Nat :=
  ((List.range g.valueCount).filter fun i => isDead (g.value i)).reverse

def sweepStep (s : Graph × List Nat) : Option (Graph × List Nat) :=
  match s.2 with
  | [] => none
  | i :: work => some (if isDead (s.1.value i) then
      releaseInput (s.1.value i).right
        (releaseInput (s.1.value i).left (s.1.setValue i remove, work))
    else (s.1, work))

def folded (fuel : Nat) (g : Graph) : Option Graph :=
  (ssaInferTypes fuel g).bind fun g₁ => ssaInferTypes fuel (foldConstants g₁)

/-- The blocks pass their part of `TurboJS_SSAVerify`. -/
def BlocksVerified (g : Graph) : Prop :=
  g.blocks ≠ [] ∧ g.entryBlock < g.blockCount ∧
    ∀ i, i < g.blockCount → verifyBlock g i (g.block i) = true

section

variable {g g' s t out : Graph} {i j x fuel : Nat} {a : Action}

theorem ssaVerify_iff : ssaVerify g = true ↔
    BlocksVerified g ∧ ∀ i, i < g.valueCount → verifyValue g i (g.value i) = true := by
  simp [ssaVerify, BlocksVerified, and_assoc]

theorem BlocksVerified.congr (h : BlocksVerified g) (hb : g'.blocks = g.blocks)
    (he : g'.entryBlock = g.entryBlock) : BlocksVerified g' := by
  unfold BlocksVerified verifyBlock Graph.block Graph.blockCount at *
  rwa [hb, he]

theorem Good.inferValue (h : Good g) (i : Nat) : Good (inferValue i g) := by
  unfold Optimizing.inferValue
  dsimp only
  split
  · exact h
  · exact h.retag (fun _ => rfl) (fun _ => rfl) (fun _ => rfl) (fun _ => rfl) fun _ => Nat.le_refl _

theorem inferValue_frame (i : Nat) (g : Graph) :
    (inferValue i g).blocks = g.blocks ∧ (inferValue i g).entryBlock = g.entryBlock := by
  unfold inferValue
  dsimp only
  split <;> exact ⟨rfl, rfl⟩

theorem Good.ssaInferTypes (h : Good g) (hb : BlocksVerified g)
    (hr : ssaInferTypes fuel g = some out) : Good out ∧ BlocksVerified out := by
  induction fuel generalizing g with
  | zero => cases hr
  | succ fuel ih =>
    unfold Optimizing.ssaInferTypes at hr
    dsimp only at hr
    split at hr
    · cases hr
      exact ⟨h, hb⟩
    · have hround : Good (forUp g.valueCount Optimizing.inferValue g) ∧
          BlocksVerified (forUp g.valueCount Optimizing.inferValue g) :=
        forUp_invariant (P := fun s => Good s ∧ BlocksVerified s) ⟨h, hb⟩ fun i s _ hs =>
          ⟨hs.1.inferValue i, hs.2.congr (inferValue_frame i s).1 (inferValue_frame i s).2⟩
      exact ih hround.1 hround.2 hr

theorem Good.detach (h : Good g) (hi : i < g.valueCount) (hlive : (g.value i).removed = false)
    (drops : Nat → Nat) (f : Value → Value)
    (hf : ∀ v, uncounted (f v) = uncounted (f (uncounted v)))
    (hcount : s.valueCount = g.valueCount) (hblocks : s.blockCount = g.blockCount)
    (hsame : ∀ x, uncounted (s.value x) = uncounted (g.value x))
    (hkeep : ∀ v, (f v).useCount = v.useCount ∧ (f v).removed = v.removed ∧ (f v).id = v.id ∧
      (f v).block = v.block ∧ (f v).left = noValue ∧ (f v).right = noValue ∧
      (f v).opcode ≠ .elementStore ∧ (f v).opcode ≠ .phi ∧ (f v).opcode ≠ .guardInt32)
    (hdrops : ∀ x, x < g.valueCount → (s.value x).useCount = (g.value x).useCount - drops x)
    (hle : ∀ x, drops x ≤ (if (g.value i).left = x then 1 else 0) +
      (if (g.value i).right = x then 1 else 0)) : Good (s.setValue i f) := by
  obtain ⟨huse, hrem, hid, hblock, hl, hr, hop, hphi, hguard⟩ := hkeep (g.value i)
  have hb := h.bound
  refine h.edit hi (f (g.value i)) (by simp [hcount]) (by simp [hblocks]) ?_ ?_ ?_ ?_ ?_
  · intro x hx
    exact uncounted_setValue hf hcount hsame hx
  · intro x hx
    have hcounted := h.counted x hx
    have := hle x
    rw [useCount_setValue i x fun v => (hkeep v).1, hdrops x hx, count_references hlive,
      count_references (hrem.trans hlive), hl, hr, if_neg (by omega)]
    simp only [hop, false_and, if_false]
    omega
  · intro x hx hmem
    rw [references_live (hrem.trans hlive)] at hmem
    simp only [operands, hl, hr, hop, if_false, List.mem_cons, List.not_mem_nil, or_false,
      or_self] at hmem
    omega
  · intro hremoved
    rw [hrem, hlive] at hremoved
    cases hremoved
  · obtain ⟨hgid, hgblock, -⟩ := h.fields hi
    refine verifyValue_iff.mpr
      ⟨hid.trans hgid, hblock ▸ hgblock, ?_, ?_, fun hg => absurd hg hguard⟩
    · rw [operandOk, if_neg hphi]
      exact .inl hl
    · rw [operandOk, if_neg hphi]
      exact .inl hr

theorem Good.foldValue (h : Good g) (hi : i < g.valueCount)
    (hlive : (g.value i).removed = false) : Good (foldValue i g) := by
  unfold Optimizing.foldValue
  dsimp only
  split
  · exact h
  · refine h.detach hi hlive (fun x => (if (g.value i).left = x then 1 else 0) +
      (if (g.value i).right = x then 1 else 0)) _ (fun _ => rfl) (by simp) (by simp) ?_ ?_ ?_ ?_
    · intro x
      rw [uncounted_dropUse, uncounted_dropUse]
    · intro v
      simp
    · intro x hx
      rw [Graph.useCount_dropUse _ (by simpa using hx), Graph.useCount_dropUse _ hx]
      omega
    · exact fun _ => Nat.le_refl _

theorem foldValue_frame (i : Nat) (g : Graph) :
    (foldValue i g).blocks = g.blocks ∧ (foldValue i g).entryBlock = g.entryBlock := by
  unfold foldValue
  dsimp only
  split <;> exact ⟨rfl, rfl⟩

theorem foldValue_removed (i : Nat) (g : Graph) (x : Nat) :
    ((foldValue i g).value x).removed = (g.value x).removed := by
  unfold foldValue
  dsimp only
  split
  · rfl
  · rw [Graph.setValue_field Value.removed, Graph.setValue_field Value.removed,
      Graph.setValue_field Value.removed] <;> exact fun _ => rfl

theorem Good.of_values (h : Good g) (hv : g'.values = g.values)
    (hb : g'.blockCount = g.blockCount) : Good g' := by
  have hcount : g'.valueCount = g.valueCount := congrArg List.length hv
  have hvalue (x : Nat) : g'.value x = g.value x := by
    unfold Graph.value
    rw [hv]
  have huses (x : Nat) : g'.uses x = g.uses x := by
    unfold Graph.uses
    rw [hv]
  refine { bound := ?_, ids := ?_, counted := ?_, unused := ?_, verified := ?_ }
  · rw [hcount]
    exact h.bound
  · intro i hi
    rw [hvalue]
    exact h.ids i (hcount ▸ hi)
  · intro x hx
    rw [hvalue, huses]
    exact h.counted x (hcount ▸ hx)
  · intro x hx hr
    rw [hvalue] at hr
    rw [huses]
    exact h.unused x (hcount ▸ hx) hr
  · intro i hi
    rw [hvalue, show verifyValue g' i (g.value i) = verifyValue g i (g.value i) by
      unfold verifyValue; rw [hcount, hb]]
    exact h.verified i (hcount ▸ hi)

theorem Good.foldBranch (h : Good g) (hi : i < g.valueCount)
    (hlive : (g.value i).removed = false) : Good (foldBranch i g) := by
  unfold Optimizing.foldBranch
  dsimp only
  split
  · exact h
  · refine Good.of_values (g := _) (h.detach (s := g.setValue (g.value i).left dropUse) hi hlive
      (fun x => if (g.value i).left = x then 1 else 0) _ (fun _ => rfl) (by simp) (by simp)
      ?_ ?_ ?_ ?_) rfl (by simp)
    · intro x
      rw [uncounted_dropUse]
    · intro v
      simp
    · intro x hx
      rw [Graph.useCount_dropUse _ hx]
    · intro x
      exact Nat.le_add_right _ _

/-- What `TurboJS_SSAVerify` reads of a block. -/
def skeleton (b : Block) : Block := { b with reachable := false, removed := false }

theorem verifyBlock_skeleton (g : Graph) (i : Nat) (b : Block) :
    verifyBlock g i (skeleton b) = verifyBlock g i b := rfl

theorem skeleton_block (hb : g'.blocks.map skeleton = g.blocks.map skeleton) (b : Nat) :
    skeleton (g'.block b) = skeleton (g.block b) := by
  have hat := congrArg (fun l : List Block => l[b]?) hb
  simp only [List.getElem?_map] at hat
  unfold Graph.block
  rw [List.getD_eq_getElem?_getD, List.getD_eq_getElem?_getD]
  cases h : g.blocks[b]? with
  | none =>
    cases h' : g'.blocks[b]? with
    | none => rfl
    | some y =>
      rw [h, h'] at hat
      cases hat
  | some x =>
    cases h' : g'.blocks[b]? with
    | none =>
      rw [h, h'] at hat
      cases hat
    | some y =>
      rw [h, h'] at hat
      exact Option.some.inj hat

theorem BlocksVerified.of_skeletons (h : BlocksVerified g)
    (hb : g'.blocks.map skeleton = g.blocks.map skeleton) (he : g'.entryBlock = g.entryBlock) :
    BlocksVerified g' := by
  have hlen : g'.blocks.length = g.blocks.length := by simpa using congrArg List.length hb
  obtain ⟨hne, hentry, hblocks⟩ := h
  refine ⟨?_, ?_, ?_⟩
  · intro hnil
    rw [hnil, List.length_nil] at hlen
    exact hne (List.length_eq_zero_iff.mp hlen.symm)
  · unfold Graph.blockCount at *
    rwa [he, hlen]
  · intro i hi
    have hi' : i < g.blocks.length := hlen ▸ hi
    have hcount (v : Block) : verifyBlock g' i v = verifyBlock g i v := by
      unfold verifyBlock Graph.blockCount
      rw [hlen]
    rw [hcount, ← verifyBlock_skeleton, skeleton_block hb, verifyBlock_skeleton]
    exact hblocks i hi'

theorem map_skeleton_modify (l : List Block) (k : Nat) (f : Block → Block)
    (hf : ∀ b, skeleton (f b) = skeleton b) : (l.modify k f).map skeleton = l.map skeleton := by
  induction l generalizing k with
  | nil => simp
  | cons b l ih => cases k <;> simp [hf, ih]

theorem markQueue_skeleton (fuel : Nat) (blocks : List Block) (queue : List Nat) (pushed : Nat) :
    (markQueue fuel blocks queue pushed).map skeleton = blocks.map skeleton := by
  induction fuel generalizing blocks queue pushed with
  | zero => rfl
  | succ fuel ih =>
    cases queue with
    | nil => rfl
    | cons b queue =>
      simp only [markQueue]
      rw [ih]
      generalize (blocks.getD b default).successors = targets
      induction targets generalizing blocks queue pushed with
      | nil => rfl
      | cons t targets iht =>
        rw [List.foldl_cons, iht]
        split
        · rfl
        · split <;> exact map_skeleton_modify _ _ _ fun _ => rfl

theorem markReachable_skeletons (hne : g.blocks ≠ []) :
    (markReachable g).blocks.map skeleton = g.blocks.map skeleton := by
  unfold markReachable
  rw [if_neg hne, markQueue_skeleton, map_skeleton_modify, List.map_map]
  · rfl
  · exact fun _ => rfl

theorem removeUnreachable_skeletons (hne : g.blocks ≠ []) :
    (removeUnreachable g).blocks.map skeleton = g.blocks.map skeleton := by
  unfold removeUnreachable
  dsimp only
  rw [← markReachable_skeletons hne, List.map_map]
  apply List.map_congr_left
  intro b _
  dsimp only [Function.comp_apply]
  split <;> rfl

theorem removeUnreachable_entryBlock (g : Graph) :
    (removeUnreachable g).entryBlock = g.entryBlock := by
  unfold removeUnreachable markReachable
  dsimp only
  split <;> rfl

theorem BlocksVerified.removeUnreachable (h : BlocksVerified g) :
    BlocksVerified (removeUnreachable g) :=
  h.of_skeletons (removeUnreachable_skeletons h.1) (removeUnreachable_entryBlock g)

theorem BlocksVerified.foldBranch (h : BlocksVerified g) (i : Nat) :
    BlocksVerified (foldBranch i g) := by
  unfold Optimizing.foldBranch
  dsimp only
  split
  · exact h
  · rename_i chosen hc
    have hchosen : chosen < g.blockCount := by
      simp only [chosenSuccessor, Option.ite_none_right_eq_some, Option.some.injEq] at hc
      obtain ⟨-, hlt, rfl⟩ := hc
      exact hlt
    obtain ⟨hne, hentry, hblocks⟩ := h
    refine ⟨?_, ?_, ?_⟩
    · intro hnil
      apply hne
      have := congrArg List.length hnil
      simpa [Graph.setBlock] using this
    · rw [Graph.setBlock_blockCount]
      exact hentry
    · intro k hk
      rw [Graph.setBlock_blockCount] at hk
      have hk : k < g.blockCount := hk
      have hold := hblocks k hk
      rw [Graph.setBlock_block]
      show verifyBlock _ k (if _ then _ else g.block k) = true
      have hsame (b : Block) : verifyBlock (((g.setValue (g.value i).left dropUse).setValue i
          fun v => { v with opcode := .jump, left := noValue, right := noValue
                            immediate := BitVec.ofNat 64 chosen }).setBlock (g.value i).block
          fun b => { b with successors := [chosen] }) k b = verifyBlock g k b := by
        unfold verifyBlock
        rw [Graph.setBlock_blockCount]
        rfl
      rw [hsame]
      split
      · simp only [verifyBlock, Bool.and_eq_true, decide_eq_true_eq, beq_iff_eq] at hold ⊢
        refine ⟨⟨hold.1.1, by simp [maxBlockEdges]⟩, ?_⟩
        simpa using hchosen
      · exact hold

theorem Good.foldConstants (h : Good g) (hb : BlocksVerified g) :
    Good (foldConstants g) ∧ BlocksVerified (foldConstants g) := by
  have hinv : Good (Optimizing.foldConstants g) ∧ BlocksVerified (Optimizing.foldConstants g) ∧
      (Optimizing.foldConstants g).valueCount = g.valueCount := by
    refine forUp_invariant (P := fun s : Graph => Good s ∧ BlocksVerified s ∧
      s.valueCount = g.valueCount) ⟨h, hb, rfl⟩ ?_
    rintro i s hi ⟨hs, hsb, hc⟩
    split
    · exact ⟨hs, hsb, hc⟩
    · rename_i hlive
      rw [Bool.not_eq_true] at hlive
      have hi : i < s.valueCount := hc ▸ hi
      have hvalue := hs.foldValue hi hlive
      have hlive' : ((Optimizing.foldValue i s).value i).removed = false := by
        rw [foldValue_removed]
        exact hlive
      have hcount : (Optimizing.foldValue i s).valueCount = s.valueCount := foldValue_valueCount i s
      refine ⟨hvalue.foldBranch (hcount ▸ hi) hlive', ?_, ?_⟩
      · exact (hsb.congr (foldValue_frame i s).1 (foldValue_frame i s).2).foldBranch i
      · rw [foldBranch_valueCount, hcount, hc]
  exact ⟨hinv.1, hinv.2.1⟩

theorem Good.folded (h : Good g) (hb : BlocksVerified g) (hf : folded fuel g = some s) :
    Good s ∧ BlocksVerified s := by
  obtain ⟨g₁, h₁, h₂⟩ := Option.bind_eq_some_iff.mp hf
  obtain ⟨hg₁, hb₁⟩ := h.ssaInferTypes hb h₁
  obtain ⟨hg₂, hb₂⟩ := hg₁.foldConstants hb₁
  exact hg₂.ssaInferTypes hb₂ h₂

theorem Action.perform_frame (i : Nat) (g : Graph) (a : Action) :
    (a.perform i g).blocks = g.blocks ∧ (a.perform i g).entryBlock = g.entryBlock := by
  cases a with
  | drop =>
    unfold Action.perform
    dsimp only
    rw [dropIfValue_eq, dropIfValue_eq]
    exact ⟨rfl, rfl⟩
  | merge l r =>
    unfold Action.perform
    dsimp only
    split <;> exact ⟨rfl, rfl⟩
  | _ => exact ⟨rfl, rfl⟩

theorem isDead_iff {v : Value} : isDead v = true ↔
    v.removed = false ∧ v.useCount = 0 ∧ removableValue v = true := by
  simp [isDead, and_assoc]

theorem removableValue_opcode {v : Value} (h : removableValue v = true) :
    v.opcode ≠ .elementStore := by
  intro he
  rw [removableValue, he] at h
  cases h

theorem releaseInput_graph (a : Nat) (s : Graph × List Nat) :
    (releaseInput a s).1 = s.1.setValue a dropUse ∨
    (releaseInput a s).1 = s.1 ∧ (a < s.1.valueCount → (s.1.value a).useCount = 0) := by
  unfold releaseInput
  split
  · exact .inl rfl
  · rename_i hno
    right
    refine ⟨rfl, ?_⟩
    intro ha
    simpa [ha] using hno

theorem releaseInput_spec (a : Nat) (s : Graph × List Nat) :
    (releaseInput a s).1.valueCount = s.1.valueCount ∧
    (releaseInput a s).1.blocks = s.1.blocks ∧
    (releaseInput a s).1.entryBlock = s.1.entryBlock ∧
    (∀ x, uncounted ((releaseInput a s).1.value x) = uncounted (s.1.value x)) ∧
    (∀ x, x < s.1.valueCount → ((releaseInput a s).1.value x).useCount =
      (s.1.value x).useCount - if a = x then 1 else 0) := by
  rcases releaseInput_graph a s with h | ⟨h, hzero⟩
  · rw [h]
    exact ⟨Graph.setValue_valueCount _ _ _, rfl, rfl, uncounted_dropUse _ _,
      fun x hx => Graph.useCount_dropUse _ hx⟩
  · rw [h]
    refine ⟨rfl, rfl, rfl, fun _ => rfl, ?_⟩
    intro x hx
    split
    · rename_i hax
      have := hzero (hax ▸ hx)
      rw [← hax]
      omega
    · rfl

theorem Good.sweepStep {w : Graph × List Nat} {w' : Graph × List Nat} (h : Good w.1)
    (hwork : ∀ i ∈ w.2, i < w.1.valueCount) (hs : sweepStep w = some w') : Good w'.1 := by
  unfold Optimizing.sweepStep at hs
  split at hs
  · cases hs
  · rename_i i work hw
    cases hs
    split
    · rename_i hdead
      obtain ⟨hlive, hzero, hremovable⟩ := isDead_iff.mp hdead
      have hi : i < w.1.valueCount := hwork i (by rw [hw]; exact List.mem_cons_self)
      obtain ⟨hc₁, hb₁, -, hv₁, hu₁⟩ :=
        releaseInput_spec (w.1.value i).left (w.1.setValue i remove, work)
      obtain ⟨hc₂, hb₂, -, hv₂, hu₂⟩ := releaseInput_spec (w.1.value i).right
        (releaseInput (w.1.value i).left (w.1.setValue i remove, work))
      have hunused : w.1.uses i = 0 := by
        have := h.counted i hi
        omega
      refine h.edit hi (remove (w.1.value i)) ?_ ?_ ?_ ?_ (by simp) (fun _ => hunused)
        (h.verified i hi)
      · rw [hc₂, hc₁, Graph.setValue_valueCount]
      · unfold Graph.blockCount
        rw [hb₂, hb₁]
        rfl
      · intro x hx
        rw [hv₂, hv₁]
        show uncounted ((w.1.setValue i remove).value x) = _
        rw [Graph.setValue_value]
        by_cases hxi : x = i
        · rw [if_pos ⟨hxi.symm, hx⟩, if_pos hxi, hxi]
        · rw [if_neg fun hix => hxi hix.1.symm, if_neg hxi]
      · intro x hx
        have hcounted := h.counted x hx
        rw [hu₂ x (by rw [hc₁]; simpa using hx), hu₁ x (by simpa using hx)]
        show _ ≤ ((w.1.setValue i remove).value x).useCount - _ - _ + _
        rw [useCount_setValue (f := remove) i x fun _ => rfl, count_references hlive,
          references_remove, List.count_nil]
        omega
    · exact h

theorem Stays.releaseInput (a : Nat) (w : Graph × List Nat) : Stays w.1 (releaseInput a w).1 := by
  rcases releaseInput_graph a w with h | ⟨h, -⟩
  · rw [h]
    exact .annotate _ _ fun _ => ⟨rfl, rfl, rfl⟩
  · rw [h]
    exact .refl _

theorem Stays.sweepStep {w w' : Graph × List Nat} (hs : sweepStep w = some w') :
    Stays w.1 w'.1 := by
  unfold Optimizing.sweepStep at hs
  split at hs
  · cases hs
  · rename_i i work hw
    cases hs
    split
    · rename_i hdead
      obtain ⟨-, -, hremovable⟩ := isDead_iff.mp hdead
      have hremove : Stays w.1 (w.1.setValue i remove) :=
        .other _ _ (fun _ _ => rfl) (removableValue_opcode hremovable)
      exact (hremove.trans (.releaseInput _ (w.1.setValue i remove, work))).trans
        (.releaseInput _ _)
    · exact .refl _

structure WorkInv (w : Graph × List Nat) : Prop where
  nodup : w.2.Nodup
  dead : ∀ i ∈ w.2, i < w.1.valueCount ∧ isDead (w.1.value i) = true

theorem WorkInv.length_le {w : Graph × List Nat} (h : WorkInv w) :
    w.2.length ≤ w.1.valueCount := by
  have hsub : w.2 ⊆ List.range w.1.valueCount := fun i hi => List.mem_range.mpr (h.dead i hi).1
  simpa using (h.nodup.subperm hsub).length_le

theorem WorkInv.deadValues (g : Graph) : WorkInv (g, deadValues g) where
  nodup := List.nodup_reverse.mpr (List.nodup_range.filter _)
  dead := by
    intro i hi
    have hi := List.mem_filter.mp (List.mem_reverse.mp hi)
    exact ⟨List.mem_range.mp hi.1, hi.2⟩

theorem WorkInv.releaseInput {w : Graph × List Nat} (h : WorkInv w) (a : Nat) :
    WorkInv (releaseInput a w) := by
  unfold Optimizing.releaseInput
  split
  · rename_i hcond
    simp only [Bool.and_eq_true, decide_eq_true_eq, bne_iff_ne, ne_eq] at hcond
    have hnot : a ∉ w.2 := by
      intro ha
      exact hcond.2 (isDead_iff.mp (h.dead a ha).2).2.1
    have hrest : ∀ i ∈ w.2, i < (w.1.setValue a dropUse).valueCount ∧
        isDead ((w.1.setValue a dropUse).value i) = true := by
      intro i hi
      rw [Graph.setValue_valueCount, Graph.setValue_other (by rintro rfl; exact hnot hi)]
      exact h.dead i hi
    dsimp only
    split
    · rename_i hdead
      refine ⟨List.nodup_cons.mpr ⟨hnot, h.nodup⟩, ?_⟩
      intro i hi
      rcases List.mem_cons.mp hi with rfl | hi
      · exact ⟨by simpa using hcond.1, hdead⟩
      · exact hrest i hi
    · exact ⟨h.nodup, hrest⟩
  · exact h

theorem WorkInv.sweepStep {w w' : Graph × List Nat} (h : WorkInv w)
    (hs : sweepStep w = some w') : WorkInv w' := by
  unfold Optimizing.sweepStep at hs
  split at hs
  · cases hs
  · rename_i i work hw
    have hnodup := h.nodup
    rw [hw, List.nodup_cons] at hnodup
    have hdead (k : Nat) (hk : k ∈ work) : k < w.1.valueCount ∧ isDead (w.1.value k) = true :=
      h.dead k (by rw [hw]; exact List.mem_cons_of_mem i hk)
    cases hs
    split
    · apply WorkInv.releaseInput
      apply WorkInv.releaseInput
      refine ⟨hnodup.2, ?_⟩
      intro k hk
      rw [Graph.setValue_valueCount, Graph.setValue_other (by rintro rfl; exact hnodup.1 hk)]
      exact hdead k hk
    · exact ⟨hnodup.2, hdead⟩

theorem sweepDead_runs (fuel : Nat) (g : Graph) (work : List Nat) :
    ∃ w, Runs sweepStep (fun _ => True) (g, work) w ∧ sweepDead fuel g work = w.1 := by
  induction fuel generalizing g work with
  | zero => exact ⟨_, .refl _, rfl⟩
  | succ fuel ih =>
    cases work with
    | nil => exact ⟨_, .refl _, rfl⟩
    | cons i work =>
      by_cases hd : isDead (g.value i) = true
      · obtain ⟨w, hw, he⟩ := ih (releaseInput (g.value i).right
          (releaseInput (g.value i).left (g.setValue i remove, work))).1
          (releaseInput (g.value i).right
            (releaseInput (g.value i).left (g.setValue i remove, work))).2
        refine ⟨w, .head trivial ?_ hw, ?_⟩
        · simp only [sweepStep, hd, if_true]
        · simpa [sweepDead, hd] using he
      · obtain ⟨w, hw, he⟩ := ih g work
        refine ⟨w, .head trivial ?_ hw, ?_⟩
        · simp only [sweepStep, hd]
          rfl
        · simpa [sweepDead, hd] using he

theorem eliminateDeadValues_runs (g : Graph) :
    ∃ w, Runs sweepStep (fun _ => True) (g, deadValues g) w ∧ eliminateDeadValues g = w.1 :=
  sweepDead_runs (3 * g.valueCount + 1) g (deadValues g)

theorem sweepStep_frame {w w' : Graph × List Nat} (hs : sweepStep w = some w') :
    w'.1.blocks = w.1.blocks ∧ w'.1.entryBlock = w.1.entryBlock := by
  unfold sweepStep at hs
  split at hs
  · cases hs
  · cases hs
    split
    · obtain ⟨-, hb₁, he₁, -⟩ := releaseInput_spec (w.1.value _).left (w.1.setValue _ remove, _)
      obtain ⟨-, hb₂, he₂, -⟩ := releaseInput_spec (w.1.value _).right
        (releaseInput (w.1.value _).left (w.1.setValue _ remove, _))
      exact ⟨hb₂.trans hb₁, he₂.trans he₁⟩
    · exact ⟨rfl, rfl⟩

theorem Good.removeUnreachable (h : Good g) : Good (removeUnreachable g) := by
  refine h.of_values (markReachable_values g) ?_
  have := markReachable_blockCount g
  unfold Graph.blockCount Optimizing.removeUnreachable at *
  dsimp only
  rw [List.length_map, this]

theorem Good.finish (h : Good g) (hb : BlocksVerified g) :
    Good (eliminateDeadValues (Optimizing.removeUnreachable g)) ∧
    BlocksVerified (eliminateDeadValues (Optimizing.removeUnreachable g)) := by
  obtain ⟨w, hw, he⟩ := eliminateDeadValues_runs (Optimizing.removeUnreachable g)
  have hend := hw.keeps (P := fun w => Good w.1 ∧ BlocksVerified w.1 ∧ WorkInv w)
    (fun w w' hP hs => ⟨hP.1.sweepStep (fun i hi => (hP.2.2.dead i hi).1) hs,
      hP.2.1.congr (sweepStep_frame hs).1 (sweepStep_frame hs).2, hP.2.2.sweepStep hs⟩)
    ⟨h.removeUnreachable, hb.removeUnreachable, .deadValues _⟩
  rw [he]
  exact ⟨hend.1, hend.2.1⟩

theorem Stays.finish (g : Graph) :
    Stays g (eliminateDeadValues (Optimizing.removeUnreachable g)) := by
  have hmarked : Stays g (Optimizing.removeUnreachable g) := by
    have hv : (Optimizing.removeUnreachable g).values = g.values := markReachable_values g
    have hvalue (x : Nat) : (Optimizing.removeUnreachable g).value x = g.value x := by
      unfold Graph.value
      rw [hv]
    refine ⟨congrArg List.length hv, ?_, ?_⟩
    · intro x _ hr
      rwa [hvalue]
    · intro k _ hlive hop
      rw [hvalue]
      exact ⟨hlive, hop, rfl⟩
  obtain ⟨w, hw, he⟩ := eliminateDeadValues_runs (Optimizing.removeUnreachable g)
  have hend := hw.keeps (P := fun w => Stays (Optimizing.removeUnreachable g) w.1)
    (fun w w' hP hs => hP.trans (.sweepStep hs)) (.refl _)
  rw [he]
  exact hmarked.trans hend

theorem Action.perform_removes (hi : i < g.valueCount)
    (ha : (∃ j, a = .takeOver j) ∨ (∃ j, a = .takeOverOnce j) ∨ ∃ j, a = .takeOverById j) :
    ((a.perform i g).value i).removed = true := by
  have hmoved (k j : Nat) : (((replaceValueUses g k j).setValue i remove).value i).removed =
      true := by
    rw [Graph.setValue_self (by rwa [replaceValueUses_valueCount])]
    rfl
  rcases ha with ⟨j, rfl⟩ | ⟨j, rfl⟩ | ⟨j, rfl⟩
  · exact hmoved i j
  · show (((redirect g i j).setValue j addUse).value i).removed = true
    rw [Graph.setValue_field (f := addUse) Value.removed fun _ => rfl]
    exact hmoved i j
  · exact hmoved _ j

theorem sparesStored_of_noDangling (hd : NoDangling out) (hi : i < s.valueCount)
    (hstays : Stays (a.perform i s) out) (hfits : a.Fits s i) : a.SparesStored s i := by
  have hspares (ha : (∃ j, a = .takeOver j) ∨ (∃ j, a = .takeOverOnce j) ∨
      ∃ j, a = .takeOverById j) : NotStored s i := by
    intro k hk hlive hop hm
    have hall := (Stays.perform hfits).trans hstays
    obtain ⟨hlive', hop', hm'⟩ := hall.stores k hk hlive hop
    have hremoved := hstays.removed i (by rwa [Action.perform_valueCount])
      (Action.perform_removes hi ha)
    have hmem : i ∈ references (out.value k) := by
      rw [references_live hlive', operands, if_pos hop', hm', hm]
      simp
    rw [hd k i (hall.count ▸ hk) hmem (hall.count ▸ hi)] at hremoved
    cases hremoved
  cases a with
  | takeOver j => exact hspares (.inl ⟨j, rfl⟩)
  | takeOverOnce j => exact hspares (.inr (.inl ⟨j, rfl⟩))
  | takeOverById j => exact hspares (.inr (.inr ⟨j, rfl⟩))
  | _ => trivial

theorem Visits.mem {ps : List Pass} {p : Pass} (h : Visits ps g p i s) : p ∈ ps := by
  obtain ⟨before, after, t, rfl, -⟩ := h
  simp

theorem Visits.lt {ps : List Pass} {p : Pass} (h : Visits ps g p i s) : i < s.valueCount := by
  obtain ⟨before, after, t, -, -, hi, hs⟩ := h
  have hcount := forUpM_invariant (P := fun s : Graph => s.valueCount = t.valueCount) rfl
    (fun j u u' _ hu hvisit => by
      obtain ⟨b, -, rfl⟩ := Option.map_eq_some_iff.mp hvisit
      exact (Action.perform_valueCount j u b).trans hu) hs
  rw [hcount]
  exact hi

/-- In a graph whose counts are right, where each load that two stores of one value feed gives way
to a value before its users and each store that is dropped is no operand, the optimised graph has
no dangling reference and passes `TurboJS_SSAVerify` exactly when no value whose uses a pass moves
is kept by an element store; and the worklist never holds more than the number of values. -/
theorem ssaOptimize_references_iff (hbound : g.valueCount ≤ noValue) (hv : ssaVerify g = true)
    (hc : CountsUses g) (hd : NoDangling g) (h : ssaOptimize fuel g = some out)
    (hsteps : ∀ g₂, folded fuel g = some g₂ → ∀ p i s a, Visits rewritingPasses g₂ p i s →
      p s i = some a → a.KeepsOrder s i ∧ a.DropsUnused s i) :
    ((NoDangling out ∧ ssaVerify out = true) ↔
      ∀ g₂, folded fuel g = some g₂ → ∀ p i s a, Visits rewritingPasses g₂ p i s →
        p s i = some a → a.SparesStored s i) ∧
    ∀ s w, Runs sweepStep (fun _ => True) (s, deadValues s) w → w.2.length ≤ s.valueCount := by
  obtain ⟨hblocks, hvalues⟩ := ssaVerify_iff.mp hv
  have hg : Good g := { Accounted.of_counts hbound hv hc hd with verified := hvalues }
  rw [ssaOptimize_eq_passes] at h
  obtain ⟨g₁, h₁, h⟩ := Option.bind_eq_some_iff.mp h
  obtain ⟨g₂, h₂, h⟩ := Option.bind_eq_some_iff.mp h
  obtain ⟨g₃, h₃, rfl⟩ := Option.map_eq_some_iff.mp h
  have hf : folded fuel g = some g₂ := by
    rw [folded, h₁]
    exact h₂
  obtain ⟨hg₂, hb₂⟩ := hg.folded hblocks hf
  refine ⟨⟨?_, ?_⟩, ?_⟩
  · rintro ⟨hnone, -⟩ g₂' hf' p i s a hvisit ha
    rw [hf] at hf'
    cases hf'
    have hstays := (hvisit.stays ha (fun q hq => rewritingPasses_fit hq) h₃).trans (.finish g₃)
    exact sparesStored_of_noDangling hnone hvisit.lt hstays
      (rewritingPasses_fit hvisit.mem s i a ha)
  · intro hspares
    have hpasses := runPasses_invariant (P := fun s => Good s ∧ BlocksVerified s) ⟨hg₂, hb₂⟩
      (fun p i s a hvisit hs hi ha => by
        obtain ⟨hord, hdrop⟩ := hsteps g₂ hf p i s a hvisit ha
        exact ⟨hs.1.perform hi (rewritingPasses_fit hvisit.mem s i a ha)
          (hspares g₂ hf p i s a hvisit ha) hord hdrop,
          hs.2.congr (Action.perform_frame i s a).1 (Action.perform_frame i s a).2⟩) h₃
    obtain ⟨hgood, hverified⟩ := hpasses.1.1.finish hpasses.1.2
    exact ⟨hgood.noDangling, ssaVerify_iff.mpr ⟨hverified, hgood.verified⟩⟩
  · intro s w hw
    have hinv := hw.keeps (P := fun w => WorkInv w ∧ w.1.valueCount = s.valueCount)
      (fun u u' hu hs => ⟨hu.1.sweepStep hs, (Stays.sweepStep hs).count.trans hu.2⟩)
      ⟨.deadValues s, rfl⟩
    exact hinv.2 ▸ hinv.1.length_le

end

/-- `a[0] = 7`, with the constant 7 twice; `stored` is the one that the store keeps. -/
def constantStore (stored : Nat) : Graph :=
  { values :=
      [{ opcode := .argument, id := 0, useCount := 1 },
       { opcode := .constantI64, type := .int32, id := 1, immediate := 0, useCount := 2 },
       { opcode := .constantI64, type := .int32, id := 2, immediate := 7
         useCount := if stored = 2 then 1 else 0 },
       { opcode := .constantI64, type := .int32, id := 3, immediate := 7
         useCount := if stored = 3 then 1 else 0 },
       { opcode := .elementStore, id := 4, left := 0, right := 1, metadata := stored },
       { opcode := .ret, id := 5, left := 1 }]
    blocks := [{ id := 0, valueCount := 6 }]
    entryBlock := 0 }

theorem constantStore_scalar {stored : Nat} {g₂ : Graph} (hs : stored = 2 ∨ stored = 3)
    (h : folded 2 (constantStore stored) = some g₂) : NoProperties g₂ := by
  have hall : (folded 2 (constantStore stored)).all (fun g => g.values.all fun v =>
      v.opcode ≠ .propertyLoad && v.opcode ≠ .propertyStore) = true := by
    rcases hs with rfl | rfl <;> decide +kernel
  rw [h] at hall
  intro k
  rcases Nat.lt_or_ge k g₂.valueCount with hk | hk
  · have := List.all_eq_true.mp hall _ (Graph.value_mem hk)
    simpa using this
  · have hnone : g₂.values[k]? = none := List.getElem?_eq_none hk
    simp [Graph.value, List.getD_eq_getElem?_getD, hnone, default]

/-- A store of the first of the two constants keeps its value. -/
theorem first_constant_is_kept : ∃ out, ssaOptimize 2 (constantStore 2) = some out ∧
    ((NoDangling out ∧ ssaVerify out = true) ↔
      ∀ g₂, folded 2 (constantStore 2) = some g₂ → ∀ p i s a, Visits rewritingPasses g₂ p i s →
        p s i = some a → a.SparesStored s i) := by
  have hsome : (ssaOptimize 2 (constantStore 2)).isSome = true := by decide +kernel
  obtain ⟨out, hout⟩ := Option.isSome_iff_exists.mp hsome
  refine ⟨out, hout, (ssaOptimize_references_iff (by decide) (by decide +kernel) ?_ ?_ hout ?_).1⟩
  · unfold CountsUses
    decide +kernel
  · rw [noDangling_iff]
    decide +kernel
  · intro g₂ hf p i s a hv ha
    exact (constantStore_scalar (.inl rfl) hf).visits hv ha

/-- A store of the second constant is left with a value that is gone. -/
theorem second_constant_is_lost :
    ssaVerify (constantStore 3) = true ∧ CountsUses (constantStore 3) ∧
    NoDangling (constantStore 3) ∧
    ∃ out, ssaOptimize 2 (constantStore 3) = some out ∧ ¬ NoDangling out := by
  refine ⟨by decide +kernel, ?_, ?_, ?_⟩
  · unfold CountsUses
    decide +kernel
  · rw [noDangling_iff]
    decide +kernel
  · have hlost : (ssaOptimize 2 (constantStore 3)).any (fun out => out.valueCount = 6 &&
        (references (out.value 4)).contains 3 && (out.value 3).removed) = true := by
      decide +kernel
    cases hout : ssaOptimize 2 (constantStore 3) with
    | none =>
      rw [hout] at hlost
      cases hlost
    | some out =>
      rw [hout] at hlost
      simp only [Option.any_some, Bool.and_eq_true, decide_eq_true_eq, List.contains_iff_mem]
        at hlost
      refine ⟨out, rfl, ?_⟩
      intro hnone
      have hlive := hnone 4 3 (by rw [hlost.1.1]; decide) hlost.1.2 (by rw [hlost.1.1]; decide)
      rw [hlost.2] at hlive
      cases hlive

end TurboJS.Optimizing
