import TurboJS.Optimizing.Lockstep
import TurboJS.Optimizing.NoDangling

namespace TurboJS.Optimizing

open IR Foundation

/-! The rewrites of the scalar optimiser, one at a time, and the evaluation of the graph. -/

def isScalar (op : SSAOpcode) : Bool :=
  isBinary op || isControl op || op = .argument || op = .constantI64 || op = .phi

def isJump (op : SSAOpcode) : Bool := op = .jump || op = .branchTrue || op = .branchFalse

/-- The jumps of a graph and the successors of its blocks: a block has at most one jump or branch,
a jump names a successor of its block, and a branch names the first one. -/
structure Controlled (g : Graph) : Prop where
  few : g.blockCount ≤ 64
  single : ∀ k k', k < g.valueCount → k' < g.valueCount → (g.value k).removed = false →
    (g.value k').removed = false → isJump (g.value k).opcode = true →
    isJump (g.value k').opcode = true → (g.value k).block = (g.value k').block → k = k'
  target : ∀ k, k < g.valueCount → (g.value k).removed = false → (g.value k).opcode = .jump →
    targetOf (g.value k) ∈ (g.block (g.value k).block).successors
  first : ∀ k, k < g.valueCount → (g.value k).removed = false →
    (g.value k).opcode = .branchTrue ∨ (g.value k).opcode = .branchFalse →
    (g.block (g.value k).block).successors.head? = some (targetOf (g.value k))

def ScalarOnly (g : Graph) : Prop := ∀ k, k < g.valueCount → isScalar (g.value k).opcode = true

structure SameCode (v' v : Value) : Prop where
  opcode : v'.opcode = v.opcode
  left : v'.left = v.left
  right : v'.right = v.right
  immediate : v'.immediate = v.immediate
  block : v'.block = v.block

structure SameBlocks (g' g : Graph) : Prop where
  count : g'.blockCount = g.blockCount
  entry : g'.entryBlock = g.entryBlock
  predecessors : ∀ b, (g'.block b).predecessors = (g.block b).predecessors
  successors : ∀ b, (g'.block b).successors = (g.block b).successors

section

variable {c : Inputs} {g s s' : Graph} {n : Nat} {m m' : Place} {i j k : Nat} {v v' : Value}
  {w : Word} {e : Effect}

theorem SameCode.refl (v : Value) : SameCode v v := ⟨rfl, rfl, rfl, rfl, rfl⟩

theorem SameCode.trans {v'' : Value} (h : SameCode v v') (h' : SameCode v' v'') :
    SameCode v v'' :=
  ⟨h.opcode.trans h'.opcode, h.left.trans h'.left, h.right.trans h'.right,
    h.immediate.trans h'.immediate, h.block.trans h'.block⟩

theorem SameCode.of_uncounted (h : uncounted v' = uncounted v) : SameCode v' v := by
  have hv : SameCode v' (uncounted v') := ⟨rfl, rfl, rfl, rfl, rfl⟩
  rw [h] at hv
  exact hv.trans ⟨rfl, rfl, rfl, rfl, rfl⟩

theorem SameBlocks.of_eq (hb : s'.blocks = s.blocks) (he : s'.entryBlock = s.entryBlock) :
    SameBlocks s' s := by
  have hblock (b : Nat) : s'.block b = s.block b := by
    unfold Graph.block
    rw [hb]
  refine ⟨congrArg List.length hb, he, ?_, ?_⟩ <;> (intro b; rw [hblock])

theorem fallThrough_congr (h : (s'.block i).successors = (s.block i).successors) (t : Nat) :
    fallThrough s' i t = fallThrough s i t := by
  unfold fallThrough
  rw [h]

theorem Agrees.reads (h : Agrees s' m m') (hm : evaluate c s n = some (.running m)) {x : Nat}
    (hx : (s.value x).removed = false → (s'.value x).removed = false) :
    (∀ w, m.words x = some w → m'.words x = some w) ∧
    ∀ w, m.entry x = some w → m'.entry x = some w := by
  obtain ⟨hwords, hentry⟩ := word_of_live hm
  constructor
  · intro w hw
    rw [h.words x (hx (hwords x w hw)), hw]
  · intro w hw
    rw [h.entry x (hx (hentry x w hw)), hw]

theorem SameCode.effect (h : SameCode v' v) (hc : c.inOrder = false)
    (hm : evaluate c s n = some (.running m)) (hagree : Agrees s' m m')
    (hl : (s.value v.left).removed = false → (s'.value v.left).removed = false)
    (hr : (s.value v.right).removed = false → (s'.value v.right).removed = false)
    (hpred : (s'.block m.block).predecessors = (s.block m.block).predecessors)
    (hfall : v.opcode = .branchTrue ∨ v.opcode = .branchFalse →
      fallThrough s' m.block (targetOf v) = fallThrough s m.block (targetOf v))
    (heff : effect c s m v = some e) : Optimizing.effect c s' m' v' = some e := by
  obtain ⟨hwl, hel⟩ := hagree.reads hm hl
  obtain ⟨hwr, her⟩ := hagree.reads hm hr
  refine effect_agrees hc hagree h.opcode h.immediate ?_ ?_ ?_ ?_ hpred hfall heff
  · rw [h.left]
    exact fun _ => hwl
  · rw [h.right]
    exact fun _ => hwr
  · rw [h.left]
    exact hel
  · rw [h.right]
    exact her

theorem effect_word (hv : isScalar v.opcode = true) (hcontrol : isControl v.opcode = false)
    (h : Optimizing.effect c g m v = some e) : ∃ w, e = .word w := by
  by_cases hb : isBinary v.opcode = true
  · rw [effect_binary hb] at h
    obtain ⟨l, -, h⟩ := Option.bind_eq_some_iff.mp h
    obtain ⟨r, -, h⟩ := Option.bind_eq_some_iff.mp h
    obtain ⟨w, -, rfl⟩ := Option.map_eq_some_iff.mp h
    exact ⟨w, rfl⟩
  · simp only [isScalar, hb, hcontrol, Bool.or_eq_true, decide_eq_true_eq, false_or,
      Bool.false_eq_true] at hv
    unfold Optimizing.effect at h
    rcases hv with (ho | ho) | ho <;> rw [ho] at h
    · obtain ⟨w, -, rfl⟩ := Option.map_eq_some_iff.mp h
      exact ⟨w, rfl⟩
    · exact ⟨_, (Option.some.inj h).symm⟩
    · obtain ⟨x, -, h⟩ := Option.bind_eq_some_iff.mp h
      obtain ⟨w, -, rfl⟩ := Option.map_eq_some_iff.mp h
      exact ⟨w, rfl⟩

theorem FollowsGraph.of_sameCode (hc : c.inOrder = false) (hcount : s'.valueCount = s.valueCount)
    (hblocks : SameBlocks s' s) (hvalue : ∀ k, SameCode (s'.value k) (s.value k))
    (hremoved : ∀ k, (s'.value k).removed = (s.value k).removed) : FollowsGraph c s s' := by
  refine .of_steps (fun k h => (hremoved k).symm.trans h) hblocks.entry ?_
  intro n m m' t hm hagree hs
  refine step_agrees hcount hblocks.count (fun k h => (hremoved k).symm.trans h)
    (fun k _ => (hvalue k).block) hagree ?_ (fun _ => by rw [hblocks.successors]) hs
  intro hexec e heff
  rw [if_neg (by rw [hremoved, hexec.2.1]; decide)]
  exact (hvalue _).effect hc hm hagree (fun h => (hremoved _).trans h)
    (fun h => (hremoved _).trans h) (hblocks.predecessors _)
    (fun _ => fallThrough_congr (hblocks.successors _) _) heff

theorem FollowsGraph.of_removal (hc : c.inOrder = false) (hcount : s'.valueCount = s.valueCount)
    (hblocks : SameBlocks s' s) (hvalue : ∀ k, SameCode (s'.value k) (s.value k))
    (hlive : ∀ k, (s'.value k).removed = false → (s.value k).removed = false)
    (hremoved : ∀ k, k ≠ i → (s'.value k).removed = (s.value k).removed)
    (hunused : s.uses i = 0) (hi : isScalar (s.value i).opcode = true)
    (hcontrol : isControl (s.value i).opcode = false) : FollowsGraph c s s' := by
  refine .of_steps hlive hblocks.entry ?_
  intro n m m' t hm hagree hs
  refine step_agrees hcount hblocks.count hlive (fun k _ => (hvalue k).block) hagree ?_
    (fun _ => by rw [hblocks.successors]) hs
  intro hexec e heff
  split
  · rename_i hrem
    have hnext : m.next = i := by
      by_contra hne
      rw [hremoved _ hne, hexec.2.1] at hrem
      cases hrem
    rw [hnext] at heff
    exact effect_word hi hcontrol heff
  · have hother (x : Nat) (hx : x ∈ references (s.value m.next)) :
        (s.value x).removed = false → (s'.value x).removed = false := by
      intro h
      rw [hremoved x, h]
      rintro rfl
      exact Graph.uses_eq_zero.mp hunused _ hexec.1 hx
    have hmem : (s.value m.next).left ∈ references (s.value m.next) ∧
        (s.value m.next).right ∈ references (s.value m.next) := by
      rw [references_live hexec.2.1]
      simp [operands]
    exact (hvalue _).effect hc hm hagree (hother _ hmem.1) (hother _ hmem.2)
      (hblocks.predecessors _) (fun _ => fallThrough_congr (hblocks.successors _) _) heff

theorem word_of_constant (hm : evaluate c s n = some (.running m)) (hk : isConst (s.value k) = true)
    (hw : m.words k = some w) : w = (s.value k).immediate := by
  obtain ⟨-, m', -, -, -, heff⟩ := (words_given hm).1 k w hw
  simp only [isConst, Bool.and_eq_true, decide_eq_true_eq] at hk
  unfold effect at heff
  rw [hk.1] at heff
  cases heff
  rfl

theorem foldedConstant_some {x : Word} (h : foldedConstant s v = some x) :
    isConst (s.value v.left) = true ∧ isConst (s.value v.right) = true ∧
    evalBinary v.opcode (s.value v.left).immediate (s.value v.right).immediate = some x := by
  unfold foldedConstant at h
  split at h
  · rename_i hcond
    simp only [Bool.and_eq_true] at hcond
    exact ⟨hcond.1.2, hcond.2, foldBinary_eval h⟩
  · cases h

theorem setValue_sameCode (f : Value → Value) (hf : ∀ v, SameCode (f v) v) (i k : Nat) :
    SameCode ((s.setValue i f).value k) (s.value k) := by
  rw [Graph.setValue_value]
  split
  · exact hf _
  · exact .refl _

theorem dropUse_sameCode (v : Value) : SameCode (dropUse v) v := ⟨rfl, rfl, rfl, rfl, rfl⟩

theorem foldValue_other (hk : k ≠ i) : SameCode ((foldValue i s).value k) (s.value k) := by
  unfold foldValue
  dsimp only
  split
  · exact .refl _
  · rw [Graph.setValue_other (Ne.symm hk)]
    exact (setValue_sameCode dropUse dropUse_sameCode _ _).trans
      (setValue_sameCode dropUse dropUse_sameCode _ _)

theorem foldValue_self {x : Word} (hi : i < s.valueCount)
    (h : foldedConstant s (s.value i) = some x) :
    ((foldValue i s).value i).opcode = .constantI64 ∧
    ((foldValue i s).value i).immediate = x ∧
    ((foldValue i s).value i).block = (s.value i).block := by
  have hblock : (((s.setValue (s.value i).left dropUse).setValue (s.value i).right dropUse).value
      i).block = (s.value i).block := by
    rw [Graph.setValue_field Value.block (f := dropUse) (fun _ => rfl),
      Graph.setValue_field Value.block (f := dropUse) (fun _ => rfl)]
  unfold foldValue
  dsimp only
  rw [h]
  dsimp only
  rw [Graph.setValue_self (by simpa using hi)]
  exact ⟨rfl, rfl, hblock⟩

theorem foldValue_none (h : foldedConstant s (s.value i) = none) : foldValue i s = s := by
  unfold foldValue
  dsimp only
  rw [h]

theorem foldValue_sameBlocks (i : Nat) (s : Graph) : SameBlocks (foldValue i s) s :=
  .of_eq (foldValue_frame i s).1 (foldValue_frame i s).2

theorem FollowsGraph.foldValue (hc : c.inOrder = false) (hi : i < s.valueCount) :
    FollowsGraph c s (foldValue i s) := by
  cases hf : foldedConstant s (s.value i) with
  | none =>
    rw [foldValue_none hf]
    exact .refl c s
  | some x =>
    obtain ⟨hl, hr, hx⟩ := foldedConstant_some hf
    obtain ⟨hop, himm, hblock⟩ := foldValue_self hi hf
    have hrem (k : Nat) : ((Optimizing.foldValue i s).value k).removed = (s.value k).removed :=
      foldValue_removed i s k
    have hb := foldValue_sameBlocks i s
    refine .of_steps (fun k h => (hrem k).symm.trans h) hb.entry ?_
    intro n m m' t hm hagree hs
    refine step_agrees (foldValue_valueCount i s) hb.count (fun k h => (hrem k).symm.trans h)
      ?_ hagree ?_ (fun _ => by rw [hb.successors]) hs
    · intro k _
      rcases eq_or_ne k i with rfl | hk
      · exact hblock
      · exact (foldValue_other hk).block
    · intro hexec e heff
      rw [if_neg (by rw [hrem, hexec.2.1]; decide)]
      rcases eq_or_ne m.next i with hnext | hnext
      · rw [hnext] at heff ⊢
        rw [effect_binary (evalBinary_isBinary hx)] at heff
        obtain ⟨l, hwl, heff⟩ := Option.bind_eq_some_iff.mp heff
        obtain ⟨r, hwr, heff⟩ := Option.bind_eq_some_iff.mp heff
        rw [word_of_constant hm hl hwl, word_of_constant hm hr hwr, hx] at heff
        cases heff
        unfold effect
        rw [hop, himm]
      · exact (foldValue_other hnext).effect hc hm hagree (fun h => (hrem _).trans h)
          (fun h => (hrem _).trans h) (hb.predecessors _)
          (fun _ => fallThrough_congr (hb.successors _) _) heff

theorem chosenSuccessor_some {chosen : Nat} (h : chosenSuccessor s v = some chosen) :
    (v.opcode = .branchTrue ∨ v.opcode = .branchFalse) ∧ isConst (s.value v.left) = true ∧
    v.block < s.blockCount ∧ chosen < s.blockCount ∧
    chosen = if (if v.opcode = .branchFalse then !((s.value v.left).immediate != 0)
      else (s.value v.left).immediate != 0) = true then targetOf v
      else (s.block v.block).successors.getD 1 noBlock := by
  unfold chosenSuccessor at h
  split at h
  · rename_i hcond
    simp only [Bool.and_eq_true, Bool.or_eq_true, decide_eq_true_eq] at hcond
    simp only [Option.ite_none_right_eq_some, Option.some.injEq] at h
    obtain ⟨hlt, heq⟩ := h
    exact ⟨hcond.1.1.1, hcond.1.2, hcond.2, heq ▸ hlt, heq.symm⟩
  · cases h

theorem foldBranch_none (h : chosenSuccessor s (s.value i) = none) : foldBranch i s = s := by
  unfold foldBranch
  dsimp only
  rw [h]

theorem foldBranch_some {chosen : Nat} (h : chosenSuccessor s (s.value i) = some chosen) :
    foldBranch i s = ((s.setValue (s.value i).left dropUse).setValue i fun v =>
      { v with opcode := .jump, left := noValue, right := noValue
               immediate := BitVec.ofNat 64 chosen }).setBlock (s.value i).block
      fun b => { b with successors := [chosen] } := by
  unfold foldBranch
  dsimp only
  rw [h]

theorem foldBranch_removed (i : Nat) (s : Graph) (k : Nat) :
    ((foldBranch i s).value k).removed = (s.value k).removed := by
  cases h : chosenSuccessor s (s.value i) with
  | none => rw [foldBranch_none h]
  | some chosen =>
    rw [foldBranch_some h, setBlock_value]
    rw [Graph.setValue_field Value.removed, Graph.setValue_field Value.removed] <;>
      exact fun _ => rfl

theorem foldBranch_other (hk : k ≠ i) : SameCode ((foldBranch i s).value k) (s.value k) := by
  cases h : chosenSuccessor s (s.value i) with
  | none =>
    rw [foldBranch_none h]
    exact .refl _
  | some chosen =>
    rw [foldBranch_some h, setBlock_value, Graph.setValue_other (Ne.symm hk)]
    exact setValue_sameCode dropUse dropUse_sameCode _ _

theorem foldBranch_self {chosen : Nat} (hi : i < s.valueCount)
    (h : chosenSuccessor s (s.value i) = some chosen) :
    ((foldBranch i s).value i).opcode = .jump ∧
    ((foldBranch i s).value i).immediate = BitVec.ofNat 64 chosen ∧
    ((foldBranch i s).value i).block = (s.value i).block := by
  have hblock : ((s.setValue (s.value i).left dropUse).value i).block = (s.value i).block :=
    Graph.setValue_field (f := dropUse) Value.block (fun _ => rfl) _ _
  rw [foldBranch_some h, setBlock_value, Graph.setValue_self (by simpa using hi)]
  exact ⟨rfl, rfl, hblock⟩

theorem foldBranch_block {chosen : Nat} (h : chosenSuccessor s (s.value i) = some chosen)
    (b : Nat) : (foldBranch i s).block b =
      if (s.value i).block = b then { s.block b with successors := [chosen] } else s.block b := by
  obtain ⟨-, -, hlt, -⟩ := chosenSuccessor_some h
  rw [foldBranch_some h, Graph.setBlock_block]
  by_cases hb : (s.value i).block = b
  · rw [if_pos hb, if_pos ⟨hb, hb ▸ hlt⟩]
    rfl
  · rw [if_neg hb, if_neg fun hbb => hb hbb.1]
    rfl

theorem foldBranch_frame (i : Nat) (s : Graph) :
    (foldBranch i s).blockCount = s.blockCount ∧ (foldBranch i s).entryBlock = s.entryBlock ∧
    (∀ b, ((foldBranch i s).block b).predecessors = (s.block b).predecessors) ∧
    ∀ b, ((foldBranch i s).block b).removed = (s.block b).removed := by
  cases h : chosenSuccessor s (s.value i) with
  | none =>
    rw [foldBranch_none h]
    exact ⟨rfl, rfl, fun _ => rfl, fun _ => rfl⟩
  | some chosen =>
    refine ⟨?_, ?_, ?_, ?_⟩
    · rw [foldBranch_some h, Graph.setBlock_blockCount]
      rfl
    · rw [foldBranch_some h]
      rfl
    · intro b
      rw [foldBranch_block h]
      split <;> rfl
    · intro b
      rw [foldBranch_block h]
      split <;> rfl

theorem isControl_of_branch (h : v.opcode = .branchTrue ∨ v.opcode = .branchFalse) :
    isControl v.opcode = true ∧ isJump v.opcode = true := by
  rcases h with h | h <;> rw [h] <;> exact ⟨rfl, rfl⟩

theorem Controlled.chosen_eq {chosen : Nat} (hs : Controlled s) (hi : i < s.valueCount)
    (hlive : (s.value i).removed = false) (h : chosenSuccessor s (s.value i) = some chosen)
    (hblock : (s.value i).block = m.block) (hm : evaluate c s n = some (.running m))
    (heff : effect c s m (s.value i) = some e) : e = .goto chosen := by
  obtain ⟨hbranch, hconst, -, hlt, heq⟩ := chosenSuccessor_some h
  have hfew := hs.few
  have hfirst := hs.first i hi hlive hbranch
  obtain ⟨rest, hsucc⟩ : ∃ rest, (s.block (s.value i).block).successors =
      targetOf (s.value i) :: rest := by
    cases hl : (s.block (s.value i).block).successors with
    | nil =>
      rw [hl] at hfirst
      cases hfirst
    | cons b rest =>
      rw [hl] at hfirst
      cases hfirst
      exact ⟨rest, rfl⟩
  have hfall (hno : chosen = (s.block (s.value i).block).successors.getD 1 noBlock) :
      fallThrough s m.block (targetOf (s.value i)) = chosen := by
    rw [hsucc] at hno
    unfold fallThrough
    rw [← hblock, hsucc]
    dsimp only
    rw [if_pos rfl]
    cases rest with
    | nil =>
      rw [List.getD_cons_succ, List.getD_nil] at hno
      unfold noBlock at hno
      omega
    | cons b rest => exact hno.symm
  unfold effect at heff
  rcases hbranch with ho | ho <;> rw [ho] at heff heq
  · obtain ⟨w, hw, rfl⟩ := Option.map_eq_some_iff.mp heff
    have hword := word_of_constant hm hconst hw
    rw [← hword] at heq
    simp only [reduceCtorEq, if_false, bne_iff_ne, ne_eq] at heq
    congr 1
    split at heq
    · rename_i hne
      rw [if_pos hne]
      exact heq.symm
    · rename_i hne
      rw [if_neg hne]
      exact hfall heq
  · obtain ⟨w, hw, rfl⟩ := Option.map_eq_some_iff.mp heff
    have hword := word_of_constant hm hconst hw
    rw [← hword] at heq
    simp only [if_true, Bool.not_eq_true', bne_eq_false_iff_eq] at heq
    congr 1
    split at heq
    · rename_i hne
      rw [if_pos hne]
      exact heq.symm
    · rename_i hne
      rw [if_neg hne]
      exact hfall heq

theorem FollowsGraph.foldBranch (hc : c.inOrder = false) (hs : Controlled s)
    (hi : i < s.valueCount) (hlive : (s.value i).removed = false) :
    FollowsGraph c s (foldBranch i s) := by
  cases hf : chosenSuccessor s (s.value i) with
  | none =>
    rw [foldBranch_none hf]
    exact .refl c s
  | some chosen =>
    obtain ⟨hbranch, -, -, hlt, -⟩ := chosenSuccessor_some hf
    obtain ⟨hop, himm, hblock⟩ := foldBranch_self hi hf
    obtain ⟨hcount, hentry, hpred, -⟩ := foldBranch_frame i s
    have hrem := foldBranch_removed i s
    have hsucc (b : Nat) (hb : (s.value i).block ≠ b) :
        ((Optimizing.foldBranch i s).block b).successors = (s.block b).successors := by
      rw [foldBranch_block hf, if_neg hb]
    refine .of_steps (fun k h => (hrem k).symm.trans h) hentry ?_
    intro n m m' t hm hagree hstep
    refine step_agrees (foldBranch_valueCount i s) hcount (fun k h => (hrem k).symm.trans h)
      ?_ hagree ?_ ?_ hstep
    · intro k _
      rcases eq_or_ne k i with rfl | hk
      · exact hblock
      · exact (foldBranch_other hk).block
    · intro hexec e heff
      rw [if_neg (by rw [hrem, hexec.2.1]; decide)]
      rcases eq_or_ne m.next i with hnext | hnext
      · rw [hnext] at heff ⊢
        rw [hs.chosen_eq hi hlive hf (hnext ▸ hexec.2.2) hm heff]
        unfold effect
        rw [hop]
        have hfew := hs.few
        have htarget : targetOf ((Optimizing.foldBranch i s).value i) = chosen := by
          unfold targetOf
          rw [himm, BitVec.toNat_ofNat]
          omega
        simp only [htarget]
      · refine (foldBranch_other hnext).effect hc hm hagree (fun h => (hrem _).trans h)
          (fun h => (hrem _).trans h) (hpred _) ?_ heff
        intro hb
        apply fallThrough_congr
        apply hsucc
        intro hsame
        apply hnext
        exact hs.single _ _ hexec.1 hi hexec.2.1 hlive (isControl_of_branch hb).2
          (isControl_of_branch hbranch).2 (hexec.2.2.trans hsame.symm)
    · intro hge
      have hne : (s.value i).block ≠ m.block := by
        intro hsame
        have := not_past_control hm hi hlive (isControl_of_branch hbranch).1 hsame
        omega
      rw [hsucc _ hne]

/-- Value `i` repeats the earlier value `j` of its block. -/
structure Twins (s : Graph) (i j : Nat) : Prop where
  before : j < i
  bound : i < s.valueCount
  live : (s.value i).removed = false
  liveBefore : (s.value j).removed = false
  candidate : cseCandidate (s.value i) = true
  same : sameExpression (s.value j) (s.value i) = true

theorem cseCandidate_iff : cseCandidate v = true ↔
    v.opcode = .constantI64 ∨ isBinary v.opcode = true := by
  unfold cseCandidate
  cases v.opcode <;> simp [isBinary]

theorem effect_candidate (hv : cseCandidate v = true) (ho : v'.opcode = v.opcode)
    (himm : v'.immediate = v.immediate) (hl : m'.words v'.left = m.words v.left)
    (hr : m'.words v'.right = m.words v.right) : effect c s m' v' = effect c s m v := by
  rcases cseCandidate_iff.mp hv with h | h
  · unfold effect
    rw [ho, h, himm]
  · rw [effect_binary (ho ▸ h), effect_binary h, ho, hl, hr]

theorem cseCandidate_word (hv : cseCandidate v = true) (h : effect c s m v = some e) :
    ∃ w, e = .word w := by
  rcases cseCandidate_iff.mp hv with ho | ho
  · unfold effect at h
    rw [ho] at h
    exact ⟨_, (Option.some.inj h).symm⟩
  · rw [effect_binary ho] at h
    obtain ⟨l, -, h⟩ := Option.bind_eq_some_iff.mp h
    obtain ⟨r, -, h⟩ := Option.bind_eq_some_iff.mp h
    obtain ⟨w, -, rfl⟩ := Option.map_eq_some_iff.mp h
    exact ⟨w, rfl⟩

theorem isControl_of_goto {b : Nat} (h : effect c s m v = some (.goto b)) :
    isControl v.opcode = true := by
  unfold effect at h
  cases ho : v.opcode <;> rw [ho] at h <;> first
    | rfl
    | (simp only [Option.map_eq_some_iff, Option.bind_eq_some_iff, Option.some.injEq, reduceCtorEq,
        and_false, exists_false, Option.ite_none_right_eq_some] at h)

structure TwinWords (c : Inputs) (s : Graph) (i j : Nat) (m : Place) : Prop where
  words : ∀ w, m.words i = some w → m.words j = some w ∨
    m.block = (s.value i).block ∧ j < m.next ∧ m.next ≤ i
  entry : ∀ w, m.entry i = some w → m.entry j = some w
  middle : m.block = (s.value i).block → j < m.next → m.next ≤ i →
    ∀ w, effect c s m (s.value i) = some (.word w) → m.words j = some w

theorem Twins.fields (h : Twins s i j) : (s.value j).opcode = (s.value i).opcode ∧
    (s.value j).left = (s.value i).left ∧ (s.value j).right = (s.value i).right ∧
    (s.value j).immediate = (s.value i).immediate ∧ (s.value j).block = (s.value i).block := by
  have hsame := h.same
  simp only [sameExpression, Bool.and_eq_true, decide_eq_true_eq, beq_iff_eq] at hsame
  exact ⟨hsame.1.1.1.1.1, hsame.1.1.1.2, hsame.1.1.2, hsame.1.2, hsame.2⟩

theorem Twins.candidateBefore (h : Twins s i j) : cseCandidate (s.value j) = true := by
  have hc := h.candidate
  rw [cseCandidate_iff] at hc ⊢
  rwa [h.fields.1]

theorem Twins.operands_before (h : Twins s i j) (hg : Good s) {k : Nat} (hjk : j ≤ k)
    (hk : k < s.valueCount) : (s.value i).left ≠ k ∧ (s.value i).right ≠ k := by
  obtain ⟨hop, hl, hr, -⟩ := h.fields
  obtain ⟨-, -, hleft, hright, -⟩ := hg.fields (h.before.trans h.bound)
  have hphi : (s.value j).opcode ≠ .phi := by
    intro ho
    rcases cseCandidate_iff.mp h.candidateBefore with hc | hc
    · rw [ho] at hc
      cases hc
    · rw [ho] at hc
      cases hc
  rw [operandOk, if_neg hphi] at hleft hright
  have hb := hg.bound
  rw [← hl, ← hr]
  omega

theorem Twins.effect_eq (h : Twins s i j) (m : Place) :
    effect c s m (s.value j) = effect c s m (s.value i) := by
  obtain ⟨hop, hl, hr, himm, -⟩ := h.fields
  exact effect_candidate h.candidate hop himm (by rw [hl]) (by rw [hr])

theorem Twins.effect_define (h : Twins s i j) (hg : Good s) (hjk : j ≤ m.next)
    (hk : m.next < s.valueCount) (w : Word) :
    effect c s (m.define w) (s.value i) = effect c s m (s.value i) := by
  obtain ⟨hl, hr⟩ := h.operands_before hg hjk hk
  exact effect_candidate h.candidate rfl rfl (Function.update_of_ne hl _ _)
    (Function.update_of_ne hr _ _)

theorem Twins.not_left (h : Twins s i j) {b : Nat} (hm : evaluate c s n = some (.running m))
    (hw : m.words i = some w) (hblock : m.block = (s.value i).block) (hle : m.next ≤ i)
    (hleaves : m.executes s ∧ effect c s m (s.value m.next) = some (.goto b) ∨
      s.valueCount ≤ m.next ∧ (s.block m.block).successors.head? = some b) : False := by
  have hbound := h.bound
  rcases hleaves with ⟨hexec, heff⟩ | ⟨hge, -⟩
  · have hcontrol := isControl_of_goto heff
    have hne : m.next ≠ i := by
      intro hi
      rw [hi] at heff
      obtain ⟨x, hx⟩ := cseCandidate_word h.candidate heff
      cases hx
    obtain ⟨n', m', hm', hexec', rfl, -⟩ := (words_given hm).1 _ w hw
    have := not_past_control hm' hexec.1 hexec.2.1 hcontrol
      (hexec.2.2.trans (hblock.trans hexec'.2.2))
    omega
  · omega

theorem Twins.words (h : Twins s i j) (hg : Good s) (hm : evaluate c s n = some (.running m)) :
    TwinWords c s i j m := by
  have hji := h.before
  have hbound := h.bound
  obtain ⟨-, -, -, -, hblockj⟩ := h.fields
  induction n generalizing m with
  | zero =>
    cases hm
    refine ⟨?_, ?_, fun _ hlt => absurd hlt (Nat.not_lt_zero _)⟩ <;> (intro w hw; cases hw)
  | succ n ih =>
    obtain ⟨m', hm', hs⟩ := evaluate_succ hm
    obtain ⟨hwords, hentry, hmiddle⟩ := ih hm'
    rcases stepPlace_cases hs with ⟨b, -, rfl, hleaves⟩ | ⟨rfl, hlt, hnothing⟩ |
      ⟨x, hexec, heff, rfl⟩
    · have heq (w : Word) (hw : m'.words i = some w) : m'.words j = some w := by
        rcases hwords w hw with hj | ⟨hb, -, hle⟩
        · exact hj
        · exact absurd (h.not_left hm' hw hb hle hleaves) id
      exact ⟨fun w hw => .inl (heq w hw), heq, fun _ hlt => absurd hlt (Nat.not_lt_zero _)⟩
    · -- neither twin is passed over in their block
      have hnot (k : Nat) (hk : k < s.valueCount) (hlive : (s.value k).removed = false)
          (hcand : cseCandidate (s.value k) = true) (hb : (s.value k).block = m'.block) :
          m'.next ≠ k := by
        intro hnext
        subst hnext
        obtain ⟨w, hw⟩ := cseCandidate_word hcand (hnothing ⟨hk, hlive, hb⟩)
        cases hw
      have hsame : effect c s m'.advance (s.value i) = effect c s m' (s.value i) :=
        effect_candidate h.candidate rfl rfl rfl rfl
      refine ⟨?_, hentry, ?_⟩
      · intro w hw
        rcases hwords w hw with hj | ⟨hb, hlo, hhi⟩
        · exact .inl hj
        · have := hnot i hbound h.live h.candidate hb.symm
          exact .inr ⟨hb, Nat.lt_succ_of_lt hlo, by show m'.next + 1 ≤ i; omega⟩
      · intro hb hlo hhi w hw
        have hb : m'.block = (s.value i).block := hb
        have hlo : j < m'.next + 1 := hlo
        have hhi : m'.next + 1 ≤ i := hhi
        have := hnot j (hji.trans hbound) h.liveBefore h.candidateBefore (hblockj.trans hb.symm)
        rw [hsame] at hw
        exact hmiddle hb (by omega) (by omega) w hw
    · have hother (k : Nat) (hk : k ≠ m'.next) : (m'.define x).words k = m'.words k :=
        Function.update_of_ne hk _ _
      have hself : (m'.define x).words m'.next = some x := Function.update_self _ _ _
      by_cases hb : m'.block = (s.value i).block
      · rcases Nat.lt_trichotomy m'.next j with hlo | heq | hhi
        · refine ⟨?_, hentry, ?_⟩
          · intro w hw
            rw [hother i (by omega)] at hw
            rcases hwords w hw with hj | ⟨-, hlo', -⟩
            · left
              rwa [hother j (by omega)]
            · omega
          · intro _ hlo' _
            have hlo' : j < m'.next + 1 := hlo'
            omega
        · refine ⟨?_, hentry, ?_⟩
          · intro w _
            right
            exact ⟨hb, by show j < m'.next + 1; omega, by show m'.next + 1 ≤ i; omega⟩
          · intro _ _ _ w hw
            rw [h.effect_define hg (by omega) hexec.1, ← h.effect_eq, ← heq, heff] at hw
            cases hw
            rw [← heq]
            exact hself
        · rcases Nat.lt_trichotomy m'.next i with hlt | heq | hgt
          · refine ⟨?_, hentry, ?_⟩
            · intro w _
              right
              exact ⟨hb, by show j < m'.next + 1; omega, by show m'.next + 1 ≤ i; omega⟩
            · intro _ _ _ w hw
              rw [h.effect_define hg (by omega) hexec.1] at hw
              rw [hother j (by omega)]
              exact hmiddle hb hhi (by omega) w hw
          · refine ⟨?_, hentry, ?_⟩
            · intro w hw
              rw [← heq, hself] at hw
              cases hw
              left
              rw [hother j (by omega)]
              exact hmiddle hb hhi (by omega) _ (heq ▸ heff)
            · intro _ _ hle
              have hle : m'.next + 1 ≤ i := hle
              omega
          · refine ⟨?_, hentry, ?_⟩
            · intro w hw
              rw [hother i (by omega)] at hw
              rcases hwords w hw with hj | ⟨-, -, hle⟩
              · left
                rwa [hother j (by omega)]
              · omega
            · intro _ _ hle
              have hle : m'.next + 1 ≤ i := hle
              omega
      · have hne (k : Nat) (hk : (s.value k).block = (s.value i).block) : k ≠ m'.next := by
          rintro rfl
          exact hb (hexec.2.2.symm.trans hk)
        refine ⟨?_, hentry, fun hb' => absurd hb' hb⟩
        intro w hw
        rw [hother i (hne i rfl)] at hw
        rcases hwords w hw with hj | ⟨hb', -⟩
        · left
          rwa [hother j (hne j hblockj)]
        · exact absurd hb' hb

theorem redirect_code (hij : i ≠ j) (hk : k < s.valueCount) (hki : k ≠ i) :
    uncounted ((redirect s i j).value k) = uncounted (substitute i j (s.value k)) := by
  rw [redirect_value hij hk, if_neg hki]
  split <;> rfl

theorem redirect_removed (hij : i ≠ j) (hk : k < s.valueCount) :
    ((redirect s i j).value k).removed = true ↔ k = i ∨ (s.value k).removed = true := by
  rw [redirect_value hij hk]
  have hsub := (substitute_fields i j (s.value k)).2.1
  split
  · rename_i h
    simp [h]
  · rename_i h
    split <;> simp [h, hsub]

theorem redirect_block (hij : i ≠ j) (hk : k < s.valueCount) :
    ((redirect s i j).value k).block = (s.value k).block := by
  have hsub : (substitute i j (s.value k)).block = (s.value k).block := by
    unfold substitute
    split <;> rfl
  rw [redirect_value hij hk]
  split
  · exact hsub
  · split <;> exact hsub

theorem value_default (h : s.valueCount ≤ k) : s.value k = default := by
  unfold Graph.value
  rw [List.getD_eq_default _ _ h]

/-- The uses of a value may read its twin instead. -/
theorem FollowsGraph.redirect (hc : c.inOrder = false) (h : Twins s i j) (hg : Good s) :
    FollowsGraph c s (redirect s i j) := by
  have hij : i ≠ j := Nat.ne_of_gt h.before
  have hblocks : SameBlocks (Optimizing.redirect s i j) s := .of_eq rfl rfl
  have hremoved (k : Nat) : ((Optimizing.redirect s i j).value k).removed = true ↔
      k = i ∨ (s.value k).removed = true := by
    rcases Nat.lt_or_ge k s.valueCount with hk | hk
    · exact redirect_removed hij hk
    · have hbound := h.bound
      rw [value_default hk, value_default (by rwa [redirect_valueCount])]
      simp
      omega
  have hlive (k : Nat) (hk : ((Optimizing.redirect s i j).value k).removed = false) :
      k ≠ i ∧ (s.value k).removed = false := by
    rw [← Bool.not_eq_true, hremoved, not_or, Bool.not_eq_true] at hk
    exact hk
  refine .of_steps (fun k hk => (hlive k hk).2) rfl ?_
  intro n m m' t hm hagree hs
  refine step_agrees (redirect_valueCount s i j) hblocks.count (fun k hk => (hlive k hk).2)
    (fun k hk => redirect_block hij hk) hagree ?_ (fun _ => by rw [hblocks.successors]) hs
  intro hexec e heff
  split
  · rename_i hrem
    have hi : m.next = i := by
      rcases (hremoved _).mp hrem with hi | hrem
      · exact hi
      · rw [hexec.2.1] at hrem
        cases hrem
    exact cseCandidate_word (hi ▸ h.candidate) heff
  · rename_i hrem
    rw [Bool.not_eq_true] at hrem
    obtain ⟨hne, hlivek⟩ := hlive _ hrem
    have htwins := h.words hg hm
    have hjlive : ((Optimizing.redirect s i j).value j).removed = false := by
      rw [← Bool.not_eq_true, hremoved, not_or, Bool.not_eq_true]
      exact ⟨Ne.symm hij, h.liveBefore⟩
    -- the substituted operand reads the same words
    have hcode : SameCode ((Optimizing.redirect s i j).value m.next)
        (substitute i j (s.value m.next)) :=
      .of_uncounted (redirect_code hij hexec.1 hne)
    have hsub : (substitute i j (s.value m.next)).opcode = (s.value m.next).opcode ∧
        (substitute i j (s.value m.next)).immediate = (s.value m.next).immediate ∧
        (substitute i j (s.value m.next)).left =
          (if (s.value m.next).left = i then j else (s.value m.next).left) ∧
        (substitute i j (s.value m.next)).right =
          (if (s.value m.next).right = i then j else (s.value m.next).right) := by
      simp [substitute, hlivek]
    have hstays (x : Nat) (hx : x ≠ i) : (s.value x).removed = false →
        ((Optimizing.redirect s i j).value x).removed = false := by
      intro hlivex
      rw [← Bool.not_eq_true, hremoved, not_or, Bool.not_eq_true]
      exact ⟨hx, hlivex⟩
    have hwords (x : Nat) (hx : x = i → i < m.next) (w : Word) (hw : m.words x = some w) :
        m'.words (if x = i then j else x) = some w := by
      split
      · rename_i hxi
        subst hxi
        rw [hagree.words j hjlive]
        rcases htwins.words w hw with hj | ⟨-, -, hle⟩
        · exact hj
        · have := hx rfl
          omega
      · rename_i hxi
        exact (hagree.reads hm (hstays x hxi)).1 w hw
    have hentry (x : Nat) (w : Word) (hw : m.entry x = some w) :
        m'.entry (if x = i then j else x) = some w := by
      split
      · rename_i hxi
        subst hxi
        rw [hagree.entry j hjlive]
        exact htwins.entry w hw
      · rename_i hxi
        exact (hagree.reads hm (hstays x hxi)).2 w hw
    have hafter (hphi : (s.value m.next).opcode ≠ .phi) (x : Nat)
        (hx : operandOk s m.next (s.value m.next) x) : x = i → i < m.next := by
      rintro rfl
      rw [operandOk, if_neg hphi] at hx
      have hb := hg.bound
      have hbound := h.bound
      omega
    obtain ⟨-, -, hokl, hokr, -⟩ := hg.fields hexec.1
    refine effect_agrees hc hagree (hcode.opcode.trans hsub.1) (hcode.immediate.trans hsub.2.1)
      ?_ ?_ ?_ ?_ (hblocks.predecessors _)
      (fun _ => fallThrough_congr (hblocks.successors _) _) heff
    · intro hphi
      rw [hcode.left, hsub.2.2.1]
      exact hwords _ (hafter hphi _ hokl)
    · intro hphi
      rw [hcode.right, hsub.2.2.2]
      exact hwords _ (hafter hphi _ hokr)
    · rw [hcode.left, hsub.2.2.1]
      exact hentry _
    · rw [hcode.right, hsub.2.2.2]
      exact hentry _

end

end TurboJS.Optimizing
