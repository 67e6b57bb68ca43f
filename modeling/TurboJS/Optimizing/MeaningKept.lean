import TurboJS.Optimizing.Reachable
import TurboJS.Optimizing.MeaningSteps
import TurboJS.Optimizing.Inference
import TurboJS.Optimizing.PortableFold

namespace TurboJS.Optimizing

open IR Foundation

/-! Scalar optimisation and the meaning of a graph. -/

structure Stage (g s : Graph) : Prop where
  good : Good s
  verified : BlocksVerified s
  scalar : ScalarOnly s
  controlled : Controlled s
  follows : ∀ c : Inputs, c.inOrder = false → FollowsGraph c g s
  removed : ∀ b, (s.block b).removed = (g.block b).removed

structure ScalarGraph (g : Graph) : Prop where
  bound : g.valueCount ≤ noValue
  accepted : ssaVerify g = true
  scalar : ScalarOnly g
  counts : CountsUses g
  defined : NoDangling g
  controlled : Controlled g

/-- Every evaluation of `g` is one of `out`, step by step, through blocks that are still there. -/
def KeepsMeaning (g out : Graph) : Prop := ∀ c : Inputs, c.inOrder = false →
  FollowsGraph c g out ∧ ∀ n m, evaluate c g n = some (.running m) →
    (out.block m.block).removed = (g.block m.block).removed

section

variable {c : Inputs} {g s s' t out : Graph} {n fuel : Nat} {m : Place} {i j : Nat} {p : Pass}
  {a : Action}

theorem Controlled.goto_successor (hs : Controlled s) (hexec : m.executes s) {b : Nat}
    (heff : effect c s m (s.value m.next) = some (.goto b)) :
    b ∈ (s.block m.block).successors := by
  have hcontrol := isControl_of_goto heff
  have hfirst (hb : (s.value m.next).opcode = .branchTrue ∨
      (s.value m.next).opcode = .branchFalse) :
      targetOf (s.value m.next) ∈ (s.block m.block).successors ∧
      fallThrough s m.block (targetOf (s.value m.next)) ∈ (s.block m.block).successors := by
    have hhead := hs.first m.next hexec.1 hexec.2.1 hb
    rw [hexec.2.2] at hhead
    unfold fallThrough
    cases hl : (s.block m.block).successors with
    | nil =>
      rw [hl] at hhead
      cases hhead
    | cons first rest =>
      rw [hl] at hhead
      cases hhead
      dsimp only
      rw [if_pos rfl]
      cases rest <;> simp
  unfold effect at heff
  cases ho : (s.value m.next).opcode <;> rw [ho] at heff hcontrol <;> cases hcontrol
  · cases heff
    rw [← hexec.2.2]
    exact hs.target m.next hexec.1 hexec.2.1 ho
  · obtain ⟨w, -, hgoto⟩ := Option.map_eq_some_iff.mp heff
    cases hgoto
    split
    · exact (hfirst (.inl ho)).1
    · exact (hfirst (.inl ho)).2
  · obtain ⟨w, -, hgoto⟩ := Option.map_eq_some_iff.mp heff
    cases hgoto
    split
    · exact (hfirst (.inr ho)).1
    · exact (hfirst (.inr ho)).2
  · obtain ⟨w, -, hret⟩ := Option.map_eq_some_iff.mp heff
    cases hret

theorem visited_reachable (hb : BlocksVerified s) (hs : Controlled s)
    (h : evaluate c s n = some (.running m)) :
    ((markReachable s).block m.block).reachable = true := by
  obtain ⟨-, hentry, hclosed⟩ := markReachable_closed hb hs.few
  refine evaluate_invariant (P := fun m => ((markReachable s).block m.block).reachable = true)
    hentry ?_ h
  intro m m' hm hstep
  rcases stepPlace_cases hstep with ⟨b, -, rfl, ⟨hexec, heff⟩ | ⟨-, hhead⟩⟩ | ⟨rfl, -⟩ |
    ⟨w, -, -, rfl⟩
  · exact hclosed _ hm b (hs.goto_successor hexec heff)
  · exact hclosed _ hm b (List.mem_of_mem_head? hhead)
  · exact hm
  · exact hm

theorem removeUnreachable_visited (hb : BlocksVerified s) (hs : Controlled s)
    (h : evaluate c s n = some (.running m)) :
    ((removeUnreachable s).block m.block).removed = (s.block m.block).removed := by
  have hreach := visited_reachable hb hs h
  obtain ⟨hframe, -, -⟩ := markReachable_closed hb hs.few
  have hsame : ((markReachable s).block m.block).removed = (s.block m.block).removed := by
    have hremoved := congrArg Block.removed (hframe.unmarked m.block)
    exact hremoved
  rw [← hsame]
  unfold removeUnreachable
  unfold Graph.block at hreach ⊢
  dsimp only
  rw [List.getD_eq_getElem?_getD] at hreach
  rw [List.getD_eq_getElem?_getD, List.getD_eq_getElem?_getD, List.getElem?_map]
  cases hget : (markReachable s).blocks[m.block]? with
  | none => rfl
  | some b =>
    rw [hget] at hreach
    have hreach : b.reachable = true := hreach
    simp [hreach]

theorem Controlled.of (h : Controlled s) (hcount : s'.valueCount = s.valueCount)
    (hblocks : SameBlocks s' s)
    (hvalue : ∀ k, k < s.valueCount → (s'.value k).removed = false →
      isJump (s'.value k).opcode = true → (s.value k).removed = false ∧
        (s'.value k).opcode = (s.value k).opcode ∧
        (s'.value k).immediate = (s.value k).immediate ∧
        (s'.value k).block = (s.value k).block) : Controlled s' := by
  have htarget {k : Nat} (h : (s'.value k).immediate = (s.value k).immediate) :
      targetOf (s'.value k) = targetOf (s.value k) := by
    unfold targetOf
    rw [h]
  refine ⟨by rw [hblocks.count]; exact h.few, ?_, ?_, ?_⟩
  · intro k k' hk hk' hlive hlive' hjump hjump' hblock
    rw [hcount] at hk hk'
    obtain ⟨hl, ho, -, hb⟩ := hvalue k hk hlive hjump
    obtain ⟨hl', ho', -, hb'⟩ := hvalue k' hk' hlive' hjump'
    rw [ho] at hjump
    rw [ho'] at hjump'
    exact h.single k k' hk hk' hl hl' hjump hjump' (hb.symm.trans (hblock.trans hb'))
  · intro k hk hlive hop
    rw [hcount] at hk
    obtain ⟨hl, ho, himm, hb⟩ := hvalue k hk hlive (by rw [hop]; rfl)
    rw [htarget himm, hb, hblocks.successors]
    exact h.target k hk hl (ho.symm.trans hop)
  · intro k hk hlive hop
    rw [hcount] at hk
    obtain ⟨hl, ho, himm, hb⟩ := hvalue k hk hlive (isControl_of_branch hop).2
    rw [htarget himm, hb, hblocks.successors]
    rw [ho] at hop
    exact h.first k hk hl hop

theorem Stage.next (h : Stage g s) (hgood : Good s') (hcount : s'.valueCount = s.valueCount)
    (hb : s'.blocks = s.blocks) (he : s'.entryBlock = s.entryBlock)
    (hvalue : ∀ k, k < s.valueCount → (s'.value k).opcode = (s.value k).opcode ∧
      (s'.value k).immediate = (s.value k).immediate ∧ (s'.value k).block = (s.value k).block)
    (hfollows : ∀ c : Inputs, c.inOrder = false → FollowsGraph c s s') : Stage g s' where
  good := hgood
  verified := h.verified.congr hb he
  scalar := by
    intro k hk
    rw [hcount] at hk
    rw [(hvalue k hk).1]
    exact h.scalar k hk
  controlled := by
    refine h.controlled.of hcount (.of_eq hb he) ?_
    intro k hk hlive _
    exact ⟨(hfollows { arguments := [], reads := fun _ => 0 } rfl).live k hlive, hvalue k hk⟩
  follows := fun c hc => (h.follows c hc).trans (hfollows c hc)
  removed := by
    intro b
    rw [← h.removed]
    unfold Graph.block
    rw [hb]

theorem Stage.inferValue (h : Stage g s) (i : Nat) : Stage g (inferValue i s) := by
  obtain ⟨hb, he⟩ := inferValue_frame i s
  have hcode (k : Nat) : SameCode ((Optimizing.inferValue i s).value k) (s.value k) ∧
      ((Optimizing.inferValue i s).value k).removed = (s.value k).removed := by
    rw [inferValue_value]
    split <;> exact ⟨⟨rfl, rfl, rfl, rfl, rfl⟩, rfl⟩
  refine h.next (h.good.inferValue i) (inferValue_valueCount i s) hb he ?_ ?_
  · intro k _
    exact ⟨(hcode k).1.opcode, (hcode k).1.immediate, (hcode k).1.block⟩
  · intro c hc
    exact .of_sameCode hc (inferValue_valueCount i s) (.of_eq hb he) (fun k => (hcode k).1)
      fun k => (hcode k).2

theorem Stage.inferRound (h : Stage g s) : Stage g (inferRound s) :=
  forUp_invariant (P := fun t => Stage g t) h fun i _ _ ht => ht.inferValue i

theorem Stage.ssaInferTypes (h : Stage g s) (hs : ssaInferTypes fuel s = some t) : Stage g t := by
  rw [ssaInferTypes_eq_untilFixed] at hs
  exact untilFixed_invariant (P := fun t => Stage g t) h (fun _ ht => ht.inferRound) hs

theorem Stage.foldValue (h : Stage g s) (hi : i < s.valueCount)
    (hlive : (s.value i).removed = false) : Stage g (foldValue i s) := by
  obtain ⟨hb, he⟩ := foldValue_frame i s
  have hself : SameCode ((Optimizing.foldValue i s).value i) (s.value i) ∨
      ((Optimizing.foldValue i s).value i).opcode = .constantI64 := by
    cases hf : foldedConstant s (s.value i) with
    | none =>
      rw [foldValue_none hf]
      exact .inl (.refl _)
    | some x => exact .inr (foldValue_self hi hf).1
  refine ⟨h.good.foldValue hi hlive, h.verified.congr hb he, ?_, ?_, ?_, ?_⟩
  · intro k hk
    rw [foldValue_valueCount] at hk
    rcases eq_or_ne k i with rfl | hne
    · rcases hself with hsame | hconst
      · rw [hsame.opcode]
        exact h.scalar k hk
      · rw [hconst]
        rfl
    · rw [(foldValue_other hne).opcode]
      exact h.scalar k hk
  · refine h.controlled.of (foldValue_valueCount i s) (.of_eq hb he) ?_
    intro k hk hl hjump
    rw [foldValue_removed] at hl
    have hcode : SameCode ((Optimizing.foldValue i s).value k) (s.value k) := by
      rcases eq_or_ne k i with rfl | hne
      · rcases hself with hsame | hconst
        · exact hsame
        · rw [hconst] at hjump
          cases hjump
      · exact foldValue_other hne
    exact ⟨hl, hcode.opcode, hcode.immediate, hcode.block⟩
  · exact fun c hc => (h.follows c hc).trans (.foldValue hc hi)
  · intro b
    rw [← h.removed]
    unfold Graph.block
    rw [hb]

theorem Controlled.foldBranch (h : Controlled s) (hi : i < s.valueCount)
    (hlive : (s.value i).removed = false) : Controlled (foldBranch i s) := by
  cases hf : chosenSuccessor s (s.value i) with
  | none =>
    rw [foldBranch_none hf]
    exact h
  | some chosen =>
    obtain ⟨hbranch, -, -, hlt, -⟩ := chosenSuccessor_some hf
    obtain ⟨hop, himm, hblock⟩ := foldBranch_self hi hf
    obtain ⟨hcount, -, -, -⟩ := foldBranch_frame i s
    have hfew := h.few
    -- every jump was a jump of the same block, and those of other blocks have not changed
    have hjumps (k : Nat) (hk : k < s.valueCount)
        (hl : ((Optimizing.foldBranch i s).value k).removed = false)
        (hjump : isJump ((Optimizing.foldBranch i s).value k).opcode = true) :
        (s.value k).removed = false ∧ isJump (s.value k).opcode = true ∧
        ((Optimizing.foldBranch i s).value k).block = (s.value k).block ∧
        (k ≠ i → (s.value i).block ≠ (s.value k).block) := by
      rw [foldBranch_removed] at hl
      rcases eq_or_ne k i with rfl | hne
      · exact ⟨hl, (isControl_of_branch hbranch).2, hblock, fun hne => absurd rfl hne⟩
      · have hcode := foldBranch_other (s := s) hne
        rw [hcode.opcode] at hjump
        refine ⟨hl, hjump, hcode.block, ?_⟩
        intro _ hsame
        exact hne (h.single k i hk hi hl hlive hjump (isControl_of_branch hbranch).2 hsame.symm)
    refine ⟨by rw [hcount]; exact hfew, ?_, ?_, ?_⟩
    · intro k k' hk hk' hl hl' hjump hjump' hsame
      rw [foldBranch_valueCount] at hk hk'
      obtain ⟨hl, hjump, hb, -⟩ := hjumps k hk hl hjump
      obtain ⟨hl', hjump', hb', -⟩ := hjumps k' hk' hl' hjump'
      exact h.single k k' hk hk' hl hl' hjump hjump' (hb.symm.trans (hsame.trans hb'))
    · intro k hk hl hgoto
      rw [foldBranch_valueCount] at hk
      obtain ⟨hl', -, hb, hother⟩ := hjumps k hk hl (by rw [hgoto]; rfl)
      rw [foldBranch_block hf, hb]
      rcases eq_or_ne k i with rfl | hne
      · rw [if_pos rfl]
        unfold targetOf
        rw [himm, BitVec.toNat_ofNat]
        simp only [List.mem_singleton]
        omega
      · have hcode := foldBranch_other (s := s) hne
        rw [if_neg (hother hne), targetOf, hcode.immediate]
        exact h.target k hk hl' (hcode.opcode.symm.trans hgoto)
    · intro k hk hl hbr
      rw [foldBranch_valueCount] at hk
      obtain ⟨hl', -, hb, hother⟩ := hjumps k hk hl (isControl_of_branch hbr).2
      rw [foldBranch_block hf, hb]
      rcases eq_or_ne k i with rfl | hne
      · rw [hop] at hbr
        rcases hbr with hbr | hbr <;> cases hbr
      · have hcode := foldBranch_other (s := s) hne
        rw [if_neg (hother hne), targetOf, hcode.immediate]
        rw [hcode.opcode] at hbr
        exact h.first k hk hl' hbr

theorem Stage.foldBranch (h : Stage g s) (hi : i < s.valueCount)
    (hlive : (s.value i).removed = false) : Stage g (foldBranch i s) where
  good := h.good.foldBranch hi hlive
  verified := h.verified.foldBranch i
  scalar := by
    intro k hk
    rw [foldBranch_valueCount] at hk
    rcases eq_or_ne k i with rfl | hne
    · cases hf : chosenSuccessor s (s.value k) with
      | none =>
        rw [foldBranch_none hf]
        exact h.scalar k hk
      | some chosen =>
        rw [(foldBranch_self hi hf).1]
        rfl
    · rw [(foldBranch_other hne).opcode]
      exact h.scalar k hk
  controlled := h.controlled.foldBranch hi hlive
  follows := fun c hc => (h.follows c hc).trans (.foldBranch hc h.controlled hi hlive)
  removed := by
    intro b
    rw [(foldBranch_frame i s).2.2.2, h.removed]

theorem Stage.foldConstants (h : Stage g s) : Stage g (foldConstants s) := by
  have hinv : Stage g (Optimizing.foldConstants s) ∧
      (Optimizing.foldConstants s).valueCount = s.valueCount := by
    refine forUp_invariant (P := fun t : Graph => Stage g t ∧ t.valueCount = s.valueCount)
      ⟨h, rfl⟩ ?_
    rintro i t hi ⟨ht, hc⟩
    split
    · exact ⟨ht, hc⟩
    · rename_i hlive
      rw [Bool.not_eq_true] at hlive
      have hi : i < t.valueCount := hc ▸ hi
      have hcount : (Optimizing.foldValue i t).valueCount = t.valueCount := foldValue_valueCount i t
      refine ⟨(ht.foldValue hi hlive).foldBranch (hcount ▸ hi) ?_, ?_⟩
      · rw [foldValue_removed]
        exact hlive
      · rw [foldBranch_valueCount, hcount, hc]
  exact hinv.1

theorem commonExpressionPass_twins (hi : i < s.valueCount) :
    ∃ a, commonExpressionPass s i = some a ∧ (a = .keep ∨ ∃ j, a = .takeOver j ∧ Twins s i j) := by
  unfold commonExpressionPass reusePass
  split
  · exact ⟨_, rfl, .inl rfl⟩
  · rename_i hcand
    simp only [Bool.or_eq_true, Bool.not_eq_true', not_or, Bool.not_eq_true,
      Bool.not_eq_false] at hcand
    refine ⟨_, rfl, ?_⟩
    cases hfound : searchUp i _ with
    | none => exact .inl rfl
    | some j =>
      obtain ⟨k, hk, hsome⟩ := searchUp_some hfound
      simp only [Option.ite_none_right_eq_some, Option.some.injEq, Bool.and_eq_true,
        Bool.not_eq_true'] at hsome
      obtain ⟨⟨⟨hlive, -⟩, hsame⟩, rfl⟩ := hsome
      exact .inr ⟨k, rfl, hk, hi, hcand.1, hlive, hcand.2, hsame⟩

theorem scalar_decision (hs : isScalar (s.value i).opcode = true) (hi : i < s.valueCount)
    (hp : p ∈ rewritingPasses) :
    ∃ a, p s i = some a ∧ (a = .keep ∨ ∃ j, a = .takeOver j ∧ Twins s i j) := by
  have hop : (s.value i).opcode ≠ .propertyLoad ∧ (s.value i).opcode ≠ .propertyStore ∧
      (s.value i).opcode ≠ .elementLoad ∧ (s.value i).opcode ≠ .elementStore ∧
      (s.value i).opcode ≠ .guardInt32 := by
    refine ⟨?_, ?_, ?_, ?_, ?_⟩ <;> (intro ho; rw [ho] at hs; cases hs)
  obtain ⟨hload, hstore, helement, helementStore, hguard⟩ := hop
  have hno : isPropertyLoad (s.value i) = false := by simp [isPropertyLoad, hload]
  have hkeep (h : p s i = some .keep) :
      ∃ a, p s i = some a ∧ (a = .keep ∨ ∃ j, a = .takeOver j ∧ Twins s i j) :=
    ⟨_, h, .inl rfl⟩
  simp only [rewritingPasses, List.mem_cons, List.not_mem_nil, or_false] at hp
  rcases hp with rfl | rfl | rfl | rfl | rfl | rfl | rfl | rfl | rfl
  · exact commonExpressionPass_twins hi
  · exact hkeep (by simp [scalarPass, hload])
  · exact hkeep (by simp [overwrittenPass, propertyStoreIsPlainWritable, hstore])
  · exact hkeep (by simp [storePhiPass, hno])
  · exact hkeep (by simp [forwardPass, hno])
  · exact hkeep (by simp [repeatedLoadPass, hno])
  · exact hkeep (by simp [elementLoadPass, helement])
  · exact hkeep (by simp [elementRangePass, helement, helementStore])
  · exact hkeep (by simp [guardPass, reusePass, hguard])

theorem Stage.takeOver (h : Stage g s) (ht : Twins s i j) : Stage g (redirect s i j) := by
  have hij : i ≠ j := Nat.ne_of_gt ht.before
  have hstored : NotStored s i := by
    intro k hk _ hop
    have := h.scalar k hk
    rw [hop] at this
    cases this
  refine h.next (h.good.takeOver ht.bound ht.before ht.liveBefore hstored)
    (redirect_valueCount s i j) rfl rfl ?_ (fun c hc => .redirect hc ht h.good)
  intro k hk
  have hsub : (substitute i j (s.value k)).opcode = (s.value k).opcode ∧
      (substitute i j (s.value k)).immediate = (s.value k).immediate ∧
      (substitute i j (s.value k)).block = (s.value k).block := by
    unfold substitute
    split <;> exact ⟨rfl, rfl, rfl⟩
  rw [redirect_value hij hk]
  split
  · exact hsub
  · split <;> exact hsub

theorem Stage.run (h : Stage g s) (hp : p ∈ rewritingPasses) :
    ∃ out, p.run s = some out ∧ Stage g out := by
  have hvisits (n : Nat) (hn : n ≤ s.valueCount) : ∃ u, forUpM n p.visit s = some u ∧
      Stage g u ∧ u.valueCount = s.valueCount := by
    induction n with
    | zero => exact ⟨s, rfl, h, rfl⟩
    | succ n ih =>
      obtain ⟨u, hu, hstage, hcount⟩ := ih (by omega)
      have hlt : n < u.valueCount := by omega
      obtain ⟨a, ha, hdecision⟩ := scalar_decision (hstage.scalar n hlt) hlt hp
      refine ⟨a.perform n u, ?_, ?_, ?_⟩
      · rw [forUpM_succ, hu, Option.bind_some, Pass.visit, ha]
        rfl
      · rcases hdecision with rfl | ⟨j, rfl, htwins⟩
        · exact hstage
        · exact hstage.takeOver htwins
      · rw [Action.perform_valueCount, hcount]
  obtain ⟨u, hu, hstage, -⟩ := hvisits s.valueCount (Nat.le_refl _)
  exact ⟨u, hu, hstage⟩

theorem Stage.runPasses {ps : List Pass} (hps : ∀ p ∈ ps, p ∈ rewritingPasses) (h : Stage g s) :
    ∃ out, runPasses ps s = some out ∧ Stage g out := by
  induction ps generalizing s with
  | nil => exact ⟨s, rfl, h⟩
  | cons p ps ih =>
    obtain ⟨u, hu, hstage⟩ := h.run (hps p List.mem_cons_self)
    obtain ⟨out, hout, hlast⟩ := ih (fun q hq => hps q (List.mem_cons_of_mem p hq)) hstage
    exact ⟨out, by rw [runPasses_cons, hu]; exact hout, hlast⟩

theorem isControl_of_removable {v : Value} (h : removableValue v = true) :
    isControl v.opcode = false := by
  unfold removableValue at h
  cases ho : v.opcode <;> rw [ho] at h <;> first
    | rfl
    | cases h

theorem Stage.sweepStep {w w' : Graph × List Nat} (h : Stage g w.1) (hwork : WorkInv w)
    (hs : sweepStep w = some w') : Stage g w'.1 := by
  have hgood := h.good.sweepStep (fun i hi => (hwork.dead i hi).1) hs
  obtain ⟨hb, he⟩ := sweepStep_frame hs
  unfold Optimizing.sweepStep at hs
  split at hs
  · cases hs
  · rename_i i work hw
    cases hs
    split at hgood
    · rename_i hdead
      rw [if_pos hdead] at hb he ⊢
      obtain ⟨hlive, hzero, hremovable⟩ := isDead_iff.mp hdead
      have hi : i < w.1.valueCount := (hwork.dead i (by rw [hw]; exact List.mem_cons_self)).1
      obtain ⟨hc₁, -, -, hv₁, -⟩ :=
        releaseInput_spec (w.1.value i).left (w.1.setValue i remove, work)
      obtain ⟨hc₂, -, -, hv₂, -⟩ := releaseInput_spec (w.1.value i).right
        (releaseInput (w.1.value i).left (w.1.setValue i remove, work))
      set s' := (releaseInput (w.1.value i).right
        (releaseInput (w.1.value i).left (w.1.setValue i remove, work))).1 with hs'
      have hvalue (k : Nat) : uncounted (s'.value k) =
          uncounted ((w.1.setValue i remove).value k) := (hv₂ k).trans (hv₁ k)
      have hremoved (k : Nat) :
          (s'.value k).removed = ((w.1.setValue i remove).value k).removed := by
        have hr := congrArg Value.removed (hvalue k)
        exact hr
      have hcode (k : Nat) : SameCode (s'.value k) (w.1.value k) :=
        (SameCode.of_uncounted (hvalue k)).trans
          (setValue_sameCode remove (fun _ => ⟨rfl, rfl, rfl, rfl, rfl⟩) i k)
      have hcount : s'.valueCount = w.1.valueCount :=
        hc₂.trans (hc₁.trans (Graph.setValue_valueCount _ _ _))
      have hunused : w.1.uses i = 0 := by
        have := h.good.counted i hi
        omega
      refine h.next hgood hcount hb he (fun k _ => ⟨(hcode k).opcode, (hcode k).immediate,
        (hcode k).block⟩) ?_
      intro c hc
      refine .of_removal hc hcount (.of_eq hb he) hcode ?_ ?_ hunused (h.scalar i hi)
        (isControl_of_removable hremovable)
      · intro k hk
        rw [hremoved, Graph.setValue_value] at hk
        split at hk
        · cases hk
        · exact hk
      · intro k hk
        rw [hremoved, Graph.setValue_other (Ne.symm hk)]
    · rename_i hdead
      rw [if_neg hdead]
      exact h

theorem removeUnreachable_sameBlocks (hb : BlocksVerified s) :
    SameBlocks (removeUnreachable s) s := by
  have hskeletons := removeUnreachable_skeletons hb.1
  have hblock := skeleton_block hskeletons
  refine ⟨?_, removeUnreachable_entryBlock s, ?_, ?_⟩
  · have hlen := congrArg List.length hskeletons
    rwa [List.length_map, List.length_map] at hlen
  · intro b
    have hp := congrArg Block.predecessors (hblock b)
    exact hp
  · intro b
    have hs := congrArg Block.successors (hblock b)
    exact hs

theorem removeUnreachable_value (s : Graph) (k : Nat) :
    (removeUnreachable s).value k = s.value k := by
  have hv : (removeUnreachable s).values = s.values := markReachable_values s
  unfold Graph.value
  rw [hv]

theorem Stage.finish (h : Stage g s) :
    KeepsMeaning g (eliminateDeadValues (removeUnreachable s)) := by
  have hcount : (removeUnreachable s).valueCount = s.valueCount :=
    congrArg List.length (markReachable_values s)
  have hblocks := removeUnreachable_sameBlocks h.verified
  have hvalue := removeUnreachable_value s
  have hmarked : Stage (removeUnreachable s) (removeUnreachable s) := by
    refine ⟨h.good.removeUnreachable, h.verified.removeUnreachable, ?_, ?_,
      fun c _ => .refl c _, fun _ => rfl⟩
    · intro k hk
      rw [hvalue]
      exact h.scalar k (hcount ▸ hk)
    · refine h.controlled.of hcount hblocks ?_
      intro k _ hlive _
      rw [hvalue] at hlive ⊢
      exact ⟨hlive, rfl, rfl, rfl⟩
  obtain ⟨w, hw, he⟩ := eliminateDeadValues_runs (removeUnreachable s)
  have hswept := hw.keeps (P := fun w => Stage (removeUnreachable s) w.1 ∧ WorkInv w)
    (fun w w' hP hs => ⟨hP.1.sweepStep hP.2 hs, hP.2.sweepStep hs⟩) ⟨hmarked, .deadValues _⟩
  rw [he]
  intro c hc
  have hmarks : FollowsGraph c s (removeUnreachable s) :=
    .of_sameCode hc hcount hblocks (fun k => by rw [hvalue]; exact .refl _)
      fun k => by rw [hvalue]
  refine ⟨((h.follows c hc).trans hmarks).trans (hswept.1.follows c hc), ?_⟩
  intro n m hm
  obtain ⟨t, ht, hsame⟩ := (h.follows c hc).run n _ hm
  cases hsame with
  | running hagree =>
    rw [hswept.1.removed, ← hagree.block,
      removeUnreachable_visited h.verified h.controlled ht, h.removed]

theorem Stage.start (h : ScalarGraph g) : Stage g g where
  good := ⟨.of_counts h.bound h.accepted h.counts h.defined, (ssaVerify_iff.mp h.accepted).2⟩
  verified := (ssaVerify_iff.mp h.accepted).1
  scalar := h.scalar
  controlled := h.controlled
  follows := fun c _ => .refl c g
  removed := fun _ => rfl

theorem inference_settles : (∃ n t, ∀ fuel, n ≤ fuel → ssaInferTypes fuel g = some t) ↔
    NarrowsAtLast g := by
  rw [← settles_iff_narrowsAtLast]
  simp only [ssaInferTypes_eq_untilFixed]
  rfl

theorem ssaInferTypes_mono {more : Nat} (h : ssaInferTypes fuel g = some t) (hle : fuel ≤ more) :
    ssaInferTypes more g = some t := by
  rw [ssaInferTypes_eq_untilFixed] at h ⊢
  exact untilFixed_mono h hle

theorem ssaOptimize_ends (h : Stage g g) {n₁ n₂ : Nat} {g₁ g₂ : Graph}
    (h₁ : ∀ fuel, n₁ ≤ fuel → ssaInferTypes fuel g = some g₁)
    (h₂ : ∀ fuel, n₂ ≤ fuel → ssaInferTypes fuel (foldConstants g₁) = some g₂) :
    ∃ n out, (∀ fuel, n ≤ fuel → ssaOptimize fuel g = some out) ∧ KeepsMeaning g out := by
  have hstage₁ := h.ssaInferTypes (h₁ n₁ (Nat.le_refl _))
  have hstage₂ := hstage₁.foldConstants.ssaInferTypes (h₂ n₂ (Nat.le_refl _))
  obtain ⟨g₃, h₃, hstage₃⟩ := hstage₂.runPasses fun _ hp => hp
  refine ⟨max n₁ n₂, _, ?_, hstage₃.finish⟩
  intro fuel hfuel
  rw [ssaOptimize_eq_passes, h₁ fuel (by omega), Option.bind_some, h₂ fuel (by omega),
    Option.bind_some, h₃]
  rfl

end

theorem incremented_scalar : ScalarGraph incremented where
  bound := by decide
  accepted := by decide +kernel
  scalar := by
    unfold ScalarOnly
    decide +kernel
  counts := by
    unfold CountsUses
    decide +kernel
  defined := by
    rw [noDangling_iff]
    decide +kernel
  controlled := by
    have hjump : ∀ k, k < incremented.valueCount →
        isJump (incremented.value k).opcode = false := by decide +kernel
    refine ⟨by decide, ?_, ?_, ?_⟩
    · intro k k' hk _ _ _ hj
      rw [hjump k hk] at hj
      cases hj
    · intro k hk _ ho
      have hj := hjump k hk
      rw [ho] at hj
      cases hj
    · intro k hk _ ho
      have hj := hjump k hk
      rw [(isControl_of_branch ho).2] at hj
      cases hj

def phiLoop : Graph :=
  { values :=
      [{ opcode := .constantI64, type := .int32, id := 0, block := 0, immediate := 0
         useCount := 3 },
       { opcode := .jump, id := 1, block := 0, immediate := 1 },
       { opcode := .phi, type := .int64, id := 2, block := 1, left := 0, right := 3
         useCount := 3 },
       { opcode := .phi, type := .float64, id := 3, block := 1, left := 0, right := 4
         useCount := 1 },
       { opcode := .phi, type := .int64, id := 4, block := 1, left := 0, right := 2
         useCount := 1 },
       { opcode := .branchTrue, type := .boolean, id := 5, block := 1, left := 2, immediate := 1 },
       { opcode := .ret, id := 6, block := 2, left := 2 }]
    blocks :=
      [{ id := 0, valueCount := 2, successors := [1] },
       { id := 1, firstValue := 2, valueCount := 4, predecessors := [0, 1], successors := [1, 2] },
       { id := 2, firstValue := 6, valueCount := 1, predecessors := [1] }]
    entryBlock := 0 }

theorem phiLoop_scalar : ScalarGraph phiLoop where
  bound := by decide
  accepted := by decide +kernel
  scalar := by
    unfold ScalarOnly
    decide +kernel
  counts := by
    unfold CountsUses
    decide +kernel
  defined := by
    rw [noDangling_iff]
    decide +kernel
  controlled := by
    refine ⟨by decide, ?_, by decide +kernel, by decide +kernel⟩
    have hsingle : ∀ k, k < phiLoop.valueCount → ∀ k', k' < phiLoop.valueCount →
        isJump (phiLoop.value k).opcode = true → isJump (phiLoop.value k').opcode = true →
        (phiLoop.value k).block = (phiLoop.value k').block → k = k' := by decide +kernel
    exact fun k k' hk hk' _ _ hj hj' hb => hsingle k hk k' hk' hj hj' hb

end TurboJS.Optimizing
