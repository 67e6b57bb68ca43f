import TurboJS.Optimizing.NoDangling

namespace TurboJS.Optimizing

open IR Foundation

/-! What `mark_reachable` marks: what the first 1024 visits of a breadth-first search find. -/

def discover (found targets : List Nat) : List Nat :=
  targets.foldl (fun found t => if t ∈ found then found else found ++ [t]) found

/-- The blocks that a breadth-first search without a bound has found after `n` visits. It visits
them in the order in which it finds them. -/
def foundAfter (g : Graph) : Nat → List Nat
  | 0 => [g.entryBlock]
  | n + 1 =>
    match (foundAfter g n)[n]? with
    | none => foundAfter g n
    | some b => discover (foundAfter g n) (g.block b).successors

def Reaches (g : Graph) : Nat → Nat → Prop :=
  Relation.ReflTransGen fun b t => t ∈ (g.block b).successors

structure ValidEdges (g : Graph) : Prop where
  entry : g.entryBlock < g.blockCount
  inside : ∀ b, ∀ t ∈ (g.block b).successors, t < g.blockCount

def QueueOverflows (g : Graph) : Prop :=
  ∃ b ∈ (foundAfter g 1024).drop 1024, ∃ t ∈ (g.block b).successors, t ∉ foundAfter g 1024

def mark (b : Block) : Block := { b with reachable := true }

def unmark (b : Block) : Block := { b with reachable := false }

def marked (l : List Block) (b : Nat) : Prop := (l.getD b default).reachable = true

structure MarkFrame (blocks l : List Block) : Prop where
  length : l.length = blocks.length
  unmarked : ∀ b, unmark (l.getD b default) = unmark (blocks.getD b default)
  inside : ∀ b, ∀ t ∈ (blocks.getD b default).successors, t < blocks.length

structure Marks (g : Graph) (l : List Block) (found : List Nat) : Prop extends
    MarkFrame g.blocks l where
  marked_iff : ∀ b, marked l b ↔ b ∈ found

section

variable {g : Graph} {found targets : List Nat} {n b t : Nat}

theorem discover_prefix (found targets : List Nat) : found <+: discover found targets := by
  induction targets generalizing found with
  | nil => exact List.prefix_rfl
  | cons t targets ih =>
    rw [discover, List.foldl_cons]
    split
    · exact ih found
    · exact (List.prefix_append found [t]).trans (ih (found ++ [t]))

theorem mem_discover : b ∈ discover found targets ↔ b ∈ found ∨ b ∈ targets := by
  induction targets generalizing found with
  | nil => simp [discover]
  | cons t targets ih =>
    rw [discover, List.foldl_cons]
    split
    · next ht =>
      refine ih.trans ⟨fun h => h.imp_right (List.mem_cons_of_mem t), ?_⟩
      rintro (h | h)
      · exact .inl h
      · rcases List.mem_cons.mp h with rfl | h
        · exact .inl ht
        · exact .inr h
    · exact ih.trans (by simp [or_assoc])

theorem foundAfter_succ (h : (foundAfter g n)[n]? = some b) :
    foundAfter g (n + 1) = discover (foundAfter g n) (g.block b).successors := by
  rw [foundAfter, h]

theorem foundAfter_stops (h : (foundAfter g n)[n]? = none) :
    foundAfter g (n + 1) = foundAfter g n := by
  rw [foundAfter, h]

theorem foundAfter_extends (g : Graph) (n : Nat) : foundAfter g n <+: foundAfter g (n + 1) := by
  cases h : (foundAfter g n)[n]? with
  | none => simp only [foundAfter_stops h, List.prefix_rfl]
  | some b =>
    rw [foundAfter_succ h]
    exact discover_prefix _ _

theorem foundAfter_mono {k : Nat} (h : k ≤ n) : foundAfter g k <+: foundAfter g n := by
  induction h with
  | refl => exact List.prefix_rfl
  | step _ ih => exact ih.trans (foundAfter_extends g _)

theorem foundAfter_sound (h : b ∈ foundAfter g n) : Reaches g g.entryBlock b := by
  induction n generalizing b with
  | zero =>
    rw [List.mem_singleton.mp h]
    exact .refl
  | succ n ih =>
    cases hn : (foundAfter g n)[n]? with
    | none =>
      rw [foundAfter_stops hn] at h
      exact ih h
    | some c =>
      rw [foundAfter_succ hn, mem_discover] at h
      rcases h with h | h
      · exact ih h
      · exact (ih (List.mem_of_getElem? hn)).tail h

theorem foundAfter_visited {k : Nat} (hk : k < n) (hb : (foundAfter g n)[k]? = some b)
    (ht : t ∈ (g.block b).successors) : t ∈ foundAfter g n := by
  induction n with
  | zero => omega
  | succ n ih =>
    cases hn : (foundAfter g n)[n]? with
    | none =>
      rw [foundAfter_stops hn] at hb ⊢
      refine ih ?_ hb
      by_contra hkn
      rw [show k = n by omega, hn] at hb
      cases hb
    | some c =>
      have hlt := (List.getElem?_eq_some_iff.mp hn).1
      obtain ⟨rest, hrest⟩ := foundAfter_extends g n
      rw [← hrest, List.getElem?_append_left (by omega)] at hb
      rw [foundAfter_succ hn, mem_discover]
      rcases Nat.lt_succ_iff_lt_or_eq.mp hk with hk | rfl
      · exact .inl (ih hk hb)
      · rw [hn] at hb
        cases hb
        exact .inr ht

theorem found_iff_reaches :
    (∀ b, b ∈ foundAfter g 1024 ↔ Reaches g g.entryBlock b) ↔ ¬ QueueOverflows g := by
  constructor
  · rintro h ⟨b, hb, t, ht, hnot⟩
    exact hnot ((h t).mpr (((h b).mp (List.mem_of_mem_drop hb)).tail ht))
  · intro h b
    refine ⟨foundAfter_sound, fun hr => ?_⟩
    induction hr with
    | refl => exact (foundAfter_mono (Nat.zero_le 1024)).subset List.mem_cons_self
    | @tail b t hb ht ih =>
      by_contra hnot
      rw [← List.take_append_drop 1024 (foundAfter g 1024)] at ih
      rcases List.mem_append.mp ih with hfirst | hlast
      · obtain ⟨k, hk, hget⟩ := List.mem_take_iff_getElem.mp hfirst
        exact hnot (foundAfter_visited (by omega) (List.getElem?_eq_some_iff.mpr ⟨_, hget⟩) ht)
      · exact h ⟨b, hlast, t, ht, hnot⟩

theorem discover_nodup (h : found.Nodup) : (discover found targets).Nodup := by
  induction targets generalizing found with
  | nil => exact h
  | cons t targets ih =>
    rw [discover, List.foldl_cons]
    split
    · exact ih h
    · next ht => exact ih (List.nodup_append.mpr ⟨h, List.nodup_singleton t, by grind⟩)

theorem foundAfter_nodup (g : Graph) (n : Nat) : (foundAfter g n).Nodup := by
  induction n with
  | zero => exact List.nodup_singleton _
  | succ n ih =>
    rw [foundAfter]
    split
    · exact ih
    · exact discover_nodup ih

theorem foundAfter_lt (hg : ValidEdges g) (h : b ∈ foundAfter g n) : b < g.blockCount := by
  cases foundAfter_sound h with
  | refl => exact hg.entry
  | tail _ ht => exact hg.inside _ b ht

theorem not_queueOverflows (hg : ValidEdges g) (hfew : g.blockCount ≤ 1024) :
    ¬ QueueOverflows g := by
  rintro ⟨b, hb, -⟩
  have hsub : foundAfter g 1024 ⊆ List.range g.blockCount :=
    fun b hb => List.mem_range.mpr (foundAfter_lt hg hb)
  have hlen := (List.subperm_of_subset (foundAfter_nodup g 1024) hsub).length_le
  rw [List.length_range] at hlen
  rw [List.drop_eq_nil_of_le (by omega)] at hb
  cases hb

end

section

variable {g g' out : Graph} {l : List Block} {found targets : List Nat} {fuel n b t : Nat}

theorem getD_mark (l : List Block) (t b : Nat) : (l.modify t mark).getD b default =
    if t = b ∧ b < l.length then mark (l.getD b default) else l.getD b default := by
  rw [List.getD_eq_getElem?_getD, List.getD_eq_getElem?_getD, List.getElem?_modify]
  by_cases hb : b < l.length
  · rw [List.getElem?_eq_getElem hb]
    by_cases h : t = b <;> simp [h, hb]
  · rw [List.getElem?_eq_none (Nat.not_lt.mp hb)]
    simp [hb]

theorem marked_mark (h : t < l.length) : marked (l.modify t mark) b ↔ marked l b ∨ b = t := by
  unfold marked
  rw [getD_mark]
  split
  · next hb => exact iff_of_true rfl (.inr hb.1.symm)
  · next hb => exact ⟨.inl, fun hm => hm.resolve_right fun he => hb ⟨he.symm, he ▸ h⟩⟩

theorem MarkFrame.mark {blocks : List Block} (h : MarkFrame blocks l) (t : Nat) :
    MarkFrame blocks (l.modify t mark) := by
  refine ⟨by rw [List.length_modify, h.length], ?_, h.inside⟩
  intro b
  rw [getD_mark, ← h.unmarked]
  split <;> rfl

theorem MarkFrame.successors {blocks : List Block} (h : MarkFrame blocks l) (b : Nat) :
    (l.getD b default).successors = (blocks.getD b default).successors := by
  have hfield (b : Block) : b.successors = (unmark b).successors := rfl
  rw [hfield, h.unmarked]
  rfl

theorem Marks.mark (h : Marks g l found) (ht : t < g.blockCount) :
    Marks g (l.modify t mark) (found ++ [t]) := by
  refine ⟨h.toMarkFrame.mark t, fun b => ?_⟩
  rw [marked_mark (h.length ▸ ht), h.marked_iff, List.mem_append, List.mem_singleton]

theorem markSuccessors_spec (h : Marks g l found) (hin : ∀ t ∈ targets, t < g.blockCount)
    (hvisited : n ≤ found.length) :
    ∃ l', targets.foldl (fun (s : List Block × List Nat × Nat) (t : Nat) =>
        if (s.1.getD t default).reachable then s
        else
          if s.2.2 < 1024 then (s.1.modify t mark, s.2.1 ++ [t], s.2.2 + 1)
          else (s.1.modify t mark, s.2))
        (l, (found.take 1024).drop n, min 1024 found.length) =
        (l', ((discover found targets).take 1024).drop n,
          min 1024 (discover found targets).length) ∧
      Marks g l' (discover found targets) := by
  induction targets generalizing l found with
  | nil => exact ⟨l, rfl, h⟩
  | cons t targets ih =>
    have hrest (u : Nat) (hu : u ∈ targets) := hin u (List.mem_cons_of_mem t hu)
    rw [List.foldl_cons, discover, List.foldl_cons]
    have hiff : (l.getD t default).reachable = true ↔ t ∈ found := h.marked_iff t
    dsimp only
    by_cases hm : t ∈ found
    · rw [if_pos (hiff.mpr hm), if_pos hm]
      exact ih h hrest hvisited
    · rw [if_neg fun hr => hm (hiff.mp hr), if_neg hm]
      have hmark := h.mark (hin t List.mem_cons_self)
      have hlen : (found ++ [t]).length = found.length + 1 := by simp
      obtain ⟨l', hfold, hl'⟩ := ih hmark hrest (by omega)
      refine ⟨l', ?_, hl'⟩
      rw [discover] at hfold
      rw [← hfold]
      by_cases hroom : found.length < 1024
      · rw [if_pos (by omega), List.take_of_length_le (by omega), List.take_of_length_le (by omega),
          List.drop_append_of_le_length (by omega), hlen, Nat.min_eq_right (by omega),
          Nat.min_eq_right (by omega)]
      · rw [if_neg (by omega), List.take_append_of_le_length (by omega), hlen,
          Nat.min_eq_left (by omega), Nat.min_eq_left (by omega)]

theorem markQueue_marks (hg : ValidEdges g) (fuel : Nat) (hfuel : n + fuel = 1024)
    (h : Marks g l (foundAfter g n)) :
    Marks g (markQueue fuel l (((foundAfter g n).take 1024).drop n)
      (min 1024 (foundAfter g n).length)) (foundAfter g 1024) := by
  induction fuel generalizing n l with
  | zero =>
    obtain rfl : n = 1024 := by omega
    exact h
  | succ fuel ih =>
    cases hget : (foundAfter g n)[n]? with
    | none =>
      have hlen : (foundAfter g n).length ≤ n := List.getElem?_eq_none_iff.mp hget
      have hstop (k : Nat) : foundAfter g (n + k) = foundAfter g n := by
        induction k with
        | zero => rfl
        | succ k ihk =>
          rw [← Nat.add_assoc, foundAfter_stops, ihk]
          rw [ihk]
          exact List.getElem?_eq_none (by omega)
      rw [← hfuel, hstop (fuel + 1), List.drop_eq_nil_of_le (by rw [List.length_take]; omega)]
      exact h
    | some b =>
      have hlt := (List.getElem?_eq_some_iff.mp hget).1
      have hqueue : ((foundAfter g n).take 1024).drop n =
          b :: ((foundAfter g n).take 1024).drop (n + 1) := by
        rw [List.drop_eq_getElem_cons (by rw [List.length_take]; omega), List.getElem_take,
          (List.getElem?_eq_some_iff.mp hget).2]
      obtain ⟨l', hfold, hl'⟩ := markSuccessors_spec (n := n + 1) h
        (fun t (ht : t ∈ (g.block b).successors) => hg.inside b t ht) (by omega)
      rw [← foundAfter_succ hget] at hfold hl'
      have hnext := ih (n := n + 1) (by omega) hl'
      rw [hqueue]
      generalize ((foundAfter g n).take 1024).drop (n + 1) = queue at hfold ⊢
      generalize min 1024 (foundAfter g n).length = pushed at hfold ⊢
      have hstep : markQueue (fuel + 1) l (b :: queue) pushed = markQueue fuel l'
          (((foundAfter g (n + 1)).take 1024).drop (n + 1))
          (min 1024 (foundAfter g (n + 1)).length) := by
        show (let s := (l.getD b default).successors.foldl _ (l, queue, pushed)
          markQueue fuel s.1 s.2.1 s.2.2) = _
        rw [h.successors]
        exact congrArg (fun s : List Block × List Nat × Nat => markQueue fuel s.1 s.2.1 s.2.2) hfold
      rw [hstep]
      exact hnext

theorem markReachable_marks (hg : ValidEdges g) :
    Marks g (markReachable g).blocks (foundAfter g 1024) := by
  have hne : g.blocks ≠ [] := by
    intro hnil
    have := hg.entry
    rw [Graph.blockCount, hnil] at this
    exact Nat.not_lt_zero _ this
  set cleared := g.blocks.map unmark with hcleared
  have hget (k : Nat) : cleared.getD k default = unmark (g.blocks.getD k default) := by
    rw [List.getD_eq_getElem?_getD, List.getD_eq_getElem?_getD, hcleared, List.getElem?_map]
    cases g.blocks[k]? <;> rfl
  have hstart : Marks g (cleared.modify g.entryBlock mark) (foundAfter g 0) := by
    have hnone : Marks g cleared [] := by
      refine ⟨⟨List.length_map _, fun k => by rw [hget]; rfl, hg.inside⟩, fun k => ?_⟩
      rw [marked, hget]
      exact iff_of_false Bool.false_ne_true List.not_mem_nil
    exact hnone.mark hg.entry
  have hmark : markReachable g =
      { g with blocks := markQueue 1024 (cleared.modify g.entryBlock mark) [g.entryBlock] 1 } := by
    unfold markReachable
    rw [if_neg hne]
    rfl
  rw [hmark]
  exact markQueue_marks hg 1024 rfl hstart

/-- What the claim says of `mark_reachable`. -/
def MarksExactly (g : Graph) : Prop :=
  ∀ b, b < g.blockCount → (((markReachable g).block b).reachable = true ↔
    Reaches g g.entryBlock b)

theorem marksExactly_iff (hg : ValidEdges g) : MarksExactly g ↔ ¬ QueueOverflows g := by
  rw [← found_iff_reaches]
  have hmarked := (markReachable_marks hg).marked_iff
  refine ⟨fun h b => ⟨foundAfter_sound, fun hr => ?_⟩, fun h b _ => (hmarked b).trans (h b)⟩
  have hlt : b < g.blockCount := by
    cases hr with
    | refl => exact hg.entry
    | tail _ ht => exact hg.inside _ b ht
  exact (hmarked b).mp ((h b hlt).mpr hr)

theorem markReachable_closed (hb : BlocksVerified g) (hfew : g.blockCount ≤ 64) :
    MarkFrame g.blocks (markReachable g).blocks ∧
    ((markReachable g).block g.entryBlock).reachable = true ∧
    ∀ b, ((markReachable g).block b).reachable = true →
      ∀ t ∈ (g.block b).successors, ((markReachable g).block t).reachable = true := by
  have hg : ValidEdges g := by
    refine ⟨hb.2.1, fun b t ht => ?_⟩
    rcases Nat.lt_or_ge b g.blockCount with hlt | hge
    · have := hb.2.2 b hlt
      simp only [verifyBlock, Bool.and_eq_true, List.all_eq_true, decide_eq_true_eq] at this
      exact this.2 t ht
    · rw [Graph.block, List.getD_eq_default _ _ hge] at ht
      cases ht
  have hmarks := markReachable_marks hg
  have hfound := found_iff_reaches.mpr (not_queueOverflows hg (by omega))
  have hmarked (b : Nat) := (hmarks.marked_iff b).trans (hfound b)
  exact ⟨hmarks.toMarkFrame, (hmarked _).mpr .refl,
    fun b hm t ht => (hmarked t).mpr (((hmarked b).mp hm).tail ht)⟩

theorem ValidEdges.congr (h : ValidEdges g) (hb : g'.blocks = g.blocks)
    (he : g'.entryBlock = g.entryBlock) : ValidEdges g' := by
  have hblock (b : Nat) : g'.block b = g.block b := by rw [Graph.block, hb, Graph.block]
  have hcount : g'.blockCount = g.blockCount := by rw [Graph.blockCount, hb, Graph.blockCount]
  refine ⟨by rw [he, hcount]; exact h.entry, fun b => ?_⟩
  rw [hblock, hcount]
  exact h.inside b

theorem ValidEdges.ssaInferTypes (h : ValidEdges g) (hr : ssaInferTypes fuel g = some out) :
    ValidEdges out := by
  induction fuel generalizing g with
  | zero => cases hr
  | succ fuel ih =>
    unfold Optimizing.ssaInferTypes at hr
    dsimp only at hr
    split at hr
    · cases hr
      exact h
    · exact ih (forUp_invariant h fun i s _ hs =>
        hs.congr (inferValue_frame i s).1 (inferValue_frame i s).2) hr

theorem ValidEdges.foldBranch (h : ValidEdges g) (i : Nat) : ValidEdges (foldBranch i g) := by
  unfold Optimizing.foldBranch
  dsimp only
  split
  · exact h
  · next chosen hc =>
    have hchosen : chosen < g.blockCount := by
      simp only [chosenSuccessor, Option.ite_none_right_eq_some, Option.some.injEq] at hc
      obtain ⟨-, hlt, rfl⟩ := hc
      exact hlt
    refine ⟨by rw [Graph.setBlock_blockCount]; exact h.entry, fun b t => ?_⟩
    rw [Graph.setBlock_block, Graph.setBlock_blockCount, Graph.setValue_blockCount,
      Graph.setValue_blockCount]
    split
    · intro ht
      rwa [List.mem_singleton.mp ht]
    · exact h.inside b t

theorem ValidEdges.folded (h : ValidEdges g) (hf : folded fuel g = some out) : ValidEdges out := by
  obtain ⟨g₁, h₁, h₂⟩ := Option.bind_eq_some_iff.mp hf
  refine ValidEdges.ssaInferTypes ?_ h₂
  refine forUp_invariant (h.ssaInferTypes h₁) fun i s _ hs => ?_
  split
  · exact hs
  · exact (hs.congr (foldValue_frame i s).1 (foldValue_frame i s).2).foldBranch i

theorem ssaOptimize_blocks (h : ssaOptimize fuel g = some out) :
    ∃ s, folded fuel g = some s ∧ out.blocks = (removeUnreachable s).blocks := by
  rw [ssaOptimize_eq_passes] at h
  obtain ⟨g₁, h₁, h⟩ := Option.bind_eq_some_iff.mp h
  obtain ⟨g₂, h₂, h⟩ := Option.bind_eq_some_iff.mp h
  obtain ⟨g₃, h₃, rfl⟩ := Option.map_eq_some_iff.mp h
  refine ⟨g₂, by rw [folded, h₁]; exact h₂, ?_⟩
  obtain ⟨w, hw, he⟩ := eliminateDeadValues_runs (removeUnreachable g₃)
  have hdead := hw.keeps (P := fun w => w.1.blocks = (removeUnreachable g₃).blocks)
    (fun _ _ hP hs => (sweepStep_frame hs).1.trans hP) rfl
  have hpasses := (runPasses_invariant
    (P := fun s => s.blocks = g₂.blocks ∧ s.entryBlock = g₂.entryBlock) ⟨rfl, rfl⟩
    (fun _ i s a _ hs _ _ => ⟨(Action.perform_frame i s a).1.trans hs.1,
      (Action.perform_frame i s a).2.trans hs.2⟩) h₃).1
  rw [he, hdead]
  by_cases hnil : g₂.blocks = [] <;>
    simp [removeUnreachable, markReachable, hpasses.1, hpasses.2, hnil]

/-- Blocks are removed from `g` only where no path leads. -/
def RemovesUnreachable (g out : Graph) : Prop :=
  ∀ b, (g.block b).removed = false → (out.block b).removed = true → ¬ Reaches g g.entryBlock b

theorem MarksExactly.removesUnreachable (h : MarksExactly g) (hg : ValidEdges g)
    (hb : out.blocks = (removeUnreachable g).blocks) : RemovesUnreachable g out := by
  intro b hkept hremoved hreach
  have hlt : b < g.blockCount := by
    cases hreach with
    | refl => exact hg.entry
    | tail _ ht => exact hg.inside _ b ht
  have hmarks := markReachable_marks hg
  have hmark := (h b hlt).mpr hreach
  have hsame := congrArg Block.removed (hmarks.unmarked b)
  have hlt' : b < (markReachable g).blocks.length := hmarks.length ▸ hlt
  rw [Graph.block, hb, removeUnreachable, List.getD_eq_getElem?_getD, List.getElem?_map,
    List.getElem?_eq_getElem hlt', Option.map_some, Option.getD_some] at hremoved
  rw [Graph.block, List.getD_eq_getElem?_getD, List.getElem?_eq_getElem hlt',
    Option.getD_some] at hmark
  rw [if_pos hmark] at hremoved
  have hkept' : (markReachable g).blocks[b].removed = false := by
    rw [List.getD_eq_getElem?_getD, List.getElem?_eq_getElem hlt', Option.getD_some] at hsame
    exact hsame.trans hkept
  rw [hkept'] at hremoved
  cases hremoved

/-- The marks are exact unless the queue overflows, and so are the removals of the optimiser, which
go by the marks on the folded graph. -/
theorem reachability_exact_iff (hg : ValidEdges g) :
    (MarksExactly g ↔ ¬ QueueOverflows g) ∧
    ∀ fuel out, ssaOptimize fuel g = some out → ∃ s, folded fuel g = some s ∧
      (MarksExactly s ∧ RemovesUnreachable s out ↔ ¬ QueueOverflows s) := by
  refine ⟨marksExactly_iff hg, fun fuel out h => ?_⟩
  obtain ⟨s, hf, hb⟩ := ssaOptimize_blocks h
  have hs := hg.folded hf
  refine ⟨s, hf, fun hboth => (marksExactly_iff hs).mp hboth.1, fun hno => ?_⟩
  have hexact := (marksExactly_iff hs).mpr hno
  exact ⟨hexact, hexact.removesUnreachable hs hb⟩

/-- `count` blocks, each of which jumps to the next one. -/
def jumpChain (count : Nat) : Graph :=
  { values := []
    blocks := (List.range count).map fun i =>
      { id := i, successors := if i + 1 < count then [i + 1] else [] }
    entryBlock := 0 }

theorem jumpChain_successors (count b : Nat) :
    ((jumpChain count).block b).successors = if b + 1 < count then [b + 1] else [] := by
  rw [Graph.block, jumpChain, List.getD_eq_getElem?_getD, List.getElem?_map]
  rcases Nat.lt_or_ge b count with hb | hb
  · rw [List.getElem?_eq_getElem (by simpa using hb), List.getElem_range]
    rfl
  · rw [List.getElem?_eq_none (by simpa using hb), if_neg (by omega)]
    rfl

theorem jumpChain_valid {count : Nat} (h : 0 < count) : ValidEdges (jumpChain count) := by
  have hcount : (jumpChain count).blockCount = count := by simp [Graph.blockCount, jumpChain]
  refine ⟨by rwa [hcount], fun b t => ?_⟩
  rw [jumpChain_successors, hcount]
  split
  · intro ht
    rwa [List.mem_singleton.mp ht]
  · exact fun ht => absurd ht List.not_mem_nil

theorem jumpChain_found {count : Nat} (h : n < count) :
    foundAfter (jumpChain count) n = List.range (n + 1) := by
  induction n with
  | zero => rfl
  | succ n ih =>
    have ih := ih (by omega)
    rw [foundAfter_succ (b := n) (by rw [ih]; simp), ih, jumpChain_successors, if_pos h,
      discover, List.foldl_cons, List.foldl_nil, if_neg (by simp), ← List.range_succ]

theorem jumpChain_three_exact : MarksExactly (jumpChain 3) :=
  (reachability_exact_iff (jumpChain_valid (by decide))).1.mpr
    (not_queueOverflows (jumpChain_valid (by decide)) (by decide))

/-- Of 1026 blocks in a row the last one is not marked. -/
theorem last_block_is_lost : ¬ ∀ g, ValidEdges g → MarksExactly g := by
  intro h
  have hvalid := jumpChain_valid (show 0 < 1026 by omega)
  have hfound := jumpChain_found (show 1024 < 1026 by omega)
  refine (marksExactly_iff hvalid).mp (h _ hvalid) ⟨1024, ?_, 1025, ?_, ?_⟩
  · rw [hfound]
    exact List.mem_drop_iff_getElem.mpr ⟨0, by simp, by simp⟩
  · rw [jumpChain_successors]
    exact List.mem_singleton_self _
  · rw [hfound, List.mem_range]
    omega

end

end TurboJS.Optimizing
