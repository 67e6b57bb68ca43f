import TurboJS.Optimizing.Preservation
import TurboJS.Optimizing.ReferencesKept

namespace TurboJS.Optimizing

open IR Foundation

/-! What the passes decide, and what a run of passes keeps. -/

section

variable {g s out : Graph} {i j k : Nat} {a : Action} {p : Pass} {ps before rest : List Pass}

theorem scanDown_some {visit : Nat → Option Scan} {n v : Nat}
    (h : scanDown visit n = some (some v)) : ∃ k, k < n ∧ visit k = some (.take v) := by
  induction n with
  | zero => cases h
  | succ n ih =>
    obtain ⟨r, hr, h⟩ := Option.bind_eq_some_iff.mp h
    cases r with
    | skip =>
      obtain ⟨k, hk, hv⟩ := ih h
      exact ⟨k, Nat.lt_succ_of_lt hk, hv⟩
    | stop => cases h
    | take id =>
      cases h
      exact ⟨n, Nat.lt_succ_self n, hr⟩

theorem forwardVisit_take {v : Nat} (h : forwardVisit g i k = some (.take v)) :
    (g.value k).removed = false ∧ (g.value k).opcode = .propertyStore ∧
    (g.value k).right = v ∧ v ≠ noValue := by
  unfold forwardVisit at h
  simp only [Option.bind_eq_bind, Option.pure_def] at h
  split at h
  · cases h
  · rename_i hrem
    rw [Bool.not_eq_true] at hrem
    -- the test of the store itself, behind both ways to it
    have hstore (h : (if (g.value k).opcode ≠ .propertyStore then some Scan.skip
        else if (decide ((g.value k).left ≠ (g.value i).left) ||
            decide ((g.value k).right = noValue) ||
            !samePropertyLocation (g.value k) (g.value i)) = true then
          some (if propertyStoreMayAlias (g.value k) (g.value i) = true then Scan.stop
            else Scan.skip)
        else if ((idRange (k + 1) i).any fun k =>
            !(g.value k).removed && propertyStoreMayAlias (g.value k) (g.value i)) = true then
          some Scan.stop
        else some (Scan.take (g.value k).right)) = some (Scan.take v)) :
        (g.value k).opcode = .propertyStore ∧ (g.value k).right = v ∧ v ≠ noValue := by
      split at h
      · cases h
      · rename_i hop
        rw [ne_eq, Decidable.not_not] at hop
        split at h
        · split at h <;> cases h
        · rename_i htest
          simp only [Bool.or_eq_true, decide_eq_true_eq, not_or] at htest
          split at h
          · cases h
          · cases h
            exact ⟨hop, rfl, htest.1.2⟩
    split at h
    · obtain ⟨dominates, -, h⟩ := Option.bind_eq_some_iff.mp h
      split at h
      · cases h
      · obtain ⟨clear, -, h⟩ := Option.bind_eq_some_iff.mp h
        split at h
        · cases h
        · exact ⟨hrem, hstore h⟩
    · exact ⟨hrem, hstore h⟩

theorem redundantVisit_take {v : Nat} (h : redundantVisit g i k = some (.take v)) :
    (g.value k).removed = false ∧ v = k := by
  unfold redundantVisit at h
  simp only [Option.bind_eq_bind, Option.pure_def] at h
  split at h
  · cases h
  · rename_i hrem
    rw [Bool.not_eq_true] at hrem
    have hload (P Q R : Prop) [Decidable P] [Decidable Q] [Decidable R]
        (h : (if P then some Scan.stop else if Q then some Scan.skip
          else if R then some Scan.stop else some (Scan.take k)) = some (Scan.take v)) : v = k := by
      split at h
      · cases h
      · split at h
        · cases h
        · split at h
          · cases h
          · cases h
            rfl
    split at h
    · obtain ⟨clear, -, h⟩ := Option.bind_eq_some_iff.mp h
      split at h
      · cases h
      · exact ⟨hrem, hload _ _ _ h⟩
    · exact ⟨hrem, hload _ _ _ h⟩

theorem reachingStoreIn_some {load : Value} {ids : List Nat} {v : Nat}
    (h : reachingStoreIn g load ids = some v) : ∃ k ∈ ids, (g.value k).removed = false ∧
      (v = (g.value k).id ∨ v = (g.value k).right ∧ v ≠ noValue) := by
  induction ids with
  | nil => cases h
  | cons k ids ih =>
    unfold reachingStoreIn at h
    have hrest (h : reachingStoreIn g load ids = some v) : ∃ k' ∈ k :: ids,
        (g.value k').removed = false ∧
          (v = (g.value k').id ∨ v = (g.value k').right ∧ v ≠ noValue) := by
      obtain ⟨k', hk', hv⟩ := ih h
      exact ⟨k', List.mem_cons_of_mem k hk', hv⟩
    dsimp only at h
    split at h
    · exact hrest h
    · rename_i hlive
      rw [Bool.not_eq_true] at hlive
      split at h
      · cases h
        exact ⟨k, List.mem_cons_self, hlive, .inl rfl⟩
      · split at h
        · exact hrest h
        · split at h
          · rename_i hstore
            cases h
            simp only [Bool.and_eq_true, decide_eq_true_eq] at hstore
            exact ⟨k, List.mem_cons_self, hlive, .inr ⟨rfl, hstore.1.2⟩⟩
          · split at h
            · cases h
            · exact hrest h

theorem virtualField_some {field fuel state v : Nat} (hg : Good g)
    (h : virtualField g field fuel state = some v) : state < g.valueCount ∧ ∃ k, k ≤ state ∧
      (g.value k).removed = false ∧ (g.value k).opcode = .virtualFieldStore ∧
      v = (g.value k).right := by
  induction fuel generalizing state with
  | zero => cases h
  | succ fuel ih =>
    unfold virtualField at h
    dsimp only at h
    split at h
    · cases h
    · rename_i hstate
      simp only [Bool.or_eq_true, decide_eq_true_eq, not_or, Nat.not_le, Bool.not_eq_true,
        ne_eq, Decidable.not_not] at hstate
      obtain ⟨⟨hlt, hlive⟩, hop⟩ := hstate
      split at h
      · cases h
        exact ⟨hlt, state, Nat.le_refl _, hlive, hop, rfl⟩
      · obtain ⟨hleft, k, hk, hrest⟩ := ih h
        obtain ⟨-, -, hl, -⟩ := hg.fields hlt
        have hb := hg.bound
        rw [operandOk, if_neg (by rw [hop]; decide)] at hl
        exact ⟨hlt, k, by omega, hrest⟩

def Pass.Fits (p : Pass) : Prop := ∀ g i a, p g i = some a → a.Fits g i

theorem takeOverBy_fits {o : Option Nat} (h : ∀ j, o = some j → (Action.takeOver j).Fits g i) :
    (takeOverBy o).Fits g i := by
  cases o with
  | none => trivial
  | some j => exact h j rfl

theorem reusePass_fits {candidate : Value → Bool} {same : Value → Value → Bool}
    (hc : ∀ v, candidate v = true → v.opcode ≠ .elementStore) :
    (reusePass candidate same).Fits := by
  intro g i a h
  unfold reusePass at h
  split at h
  · cases h
    trivial
  · rename_i hcand
    simp only [Bool.or_eq_true, Bool.not_eq_true', not_or, Bool.not_eq_true,
      Bool.not_eq_false] at hcand
    cases h
    apply takeOverBy_fits
    intro j hj
    obtain ⟨k, hk, hp⟩ := searchUp_some hj
    split at hp
    · rename_i htest
      simp only [Bool.and_eq_true, Bool.not_eq_true'] at htest
      cases hp
      exact ⟨hc _ hcand.2, fun _ _ => ⟨hk, htest.1.1⟩⟩
    · cases hp

theorem commonExpressionPass_fits : commonExpressionPass.Fits := by
  apply reusePass_fits
  intro v hv he
  rw [cseCandidate, he] at hv
  cases hv

theorem guardPass_fits : guardPass.Fits := by
  apply reusePass_fits
  intro v hv he
  rw [he] at hv
  cases hv

theorem Good.stored (h : Good g) (hk : k < g.valueCount) (hlive : (g.value k).removed = false)
    (hop : (g.value k).opcode ≠ .phi) (hne : (g.value k).right ≠ noValue) :
    (g.value k).right < k ∧ (g.value (g.value k).right).removed = false := by
  obtain ⟨-, -, -, hr, -⟩ := h.fields hk
  rw [operandOk, if_neg hop] at hr
  have hlt := hr.resolve_left hne
  exact ⟨hlt, h.operand_live hk hlive (by simp [operands]) (hlt.trans hk)⟩

theorem scalarPass_fits : scalarPass.Fits := by
  intro g i a h
  unfold scalarPass at h
  dsimp only at h
  split at h
  · cases h
    trivial
  · rename_i hload
    simp only [Bool.or_eq_true, decide_eq_true_eq, not_or, Bool.not_eq_true, ne_eq,
      Decidable.not_not] at hload
    split at h
    · cases h
      trivial
    · rename_i j hj
      cases h
      split
      · trivial
      · rename_i hjc
        refine ⟨by rw [hload.2]; decide, ?_⟩
        intro hg hi
        obtain ⟨hleft, k, hk, hlive, hop, rfl⟩ := virtualField_some hg hj
        obtain ⟨-, -, hl, -⟩ := hg.fields hi
        have hb := hg.bound
        rw [operandOk, if_neg (by rw [hload.2]; decide)] at hl
        obtain ⟨hlt, hjlive⟩ := hg.stored (k := k) (by omega) hlive (by rw [hop]; decide) (by omega)
        exact ⟨by omega, hjlive⟩

theorem overwrittenPass_fits : overwrittenPass.Fits := by
  intro g i a h
  unfold overwrittenPass at h
  split at h
  · cases h
    trivial
  · rename_i hstore
    simp only [Bool.or_eq_true, Bool.not_eq_true', not_or, Bool.not_eq_true,
      Bool.not_eq_false] at hstore
    cases h
    split
    · refine ⟨hstore.1, ?_⟩
      have hop := hstore.2
      simp only [propertyStoreIsPlainWritable, Bool.and_eq_true, decide_eq_true_eq] at hop
      exact hop.1.1
    · trivial

theorem isPropertyLoad_iff {v : Value} : isPropertyLoad v = true ↔
    v.removed = false ∧ v.opcode = .propertyLoad ∧ v.propertyCases ≠ [] := by
  simp [isPropertyLoad, and_assoc]

theorem reachingStore_live (h : Good g) {b : Nat} {load : Value} {v : Nat}
    (hr : propertyFindReachingStore g b load = some v) (hv : v < g.valueCount) :
    (g.value v).removed = false := by
  unfold propertyFindReachingStore at hr
  split at hr
  · cases hr
  · obtain ⟨k, hk, hlive, hval⟩ := reachingStoreIn_some hr
    have hkc : k < g.valueCount := by
      have := List.mem_of_mem_drop (List.mem_reverse.mp hk)
      rw [List.mem_range] at this
      exact this.trans_le (Nat.min_le_right _ _)
    rcases hval with rfl | ⟨rfl, -⟩
    · rw [h.ids k hkc]
      exact hlive
    · exact h.operand_live hkc hlive (by simp [operands]) hv

theorem storePhiPass_fits : storePhiPass.Fits := by
  intro g i a h
  unfold storePhiPass at h
  dsimp only at h
  split at h
  · cases h
    trivial
  · rename_i hload
    simp only [Bool.or_eq_true, Bool.not_eq_true', not_or, Bool.not_eq_false] at hload
    obtain ⟨hlive, hop, -⟩ := isPropertyLoad_iff.mp hload.1
    split at h
    · split at h
      · cases h
        trivial
      · split at h
        · rename_i l r hl hr
          split at h
          · cases h
            trivial
          · rename_i hcounts
            simp only [Bool.or_eq_true, decide_eq_true_eq, not_or, Nat.not_le] at hcounts
            cases h
            split
            · refine ⟨hop, hcounts.1, ?_⟩
              intro hg _
              exact reachingStore_live hg hl hcounts.1
            · refine ⟨hlive, hop, hcounts.1, hcounts.2, ?_⟩
              intro hg _
              exact ⟨reachingStore_live hg hl hcounts.1, reachingStore_live hg hr hcounts.2⟩
        · cases h
          trivial
    · cases h
      trivial

theorem scanPass_fits {p : Pass} (visit : Graph → Nat → Nat → Option Scan)
    (hp : ∀ g i, p g i = if !isPropertyLoad (g.value i) then some .keep
      else (scanDown (visit g i) i).map takeOverBy)
    (hv : ∀ g i k v, Good g → k < g.valueCount → visit g i k = some (.take v) →
      v ≤ k ∧ (g.value v).removed = false) : p.Fits := by
  intro g i a h
  rw [hp] at h
  split at h
  · cases h
    trivial
  · rename_i hload
    simp only [Bool.not_eq_true', Bool.not_eq_false] at hload
    obtain ⟨-, hop, -⟩ := isPropertyLoad_iff.mp hload
    obtain ⟨o, ho, rfl⟩ := Option.map_eq_some_iff.mp h
    apply takeOverBy_fits
    intro j hj
    rw [hj] at ho
    obtain ⟨k, hk, htake⟩ := scanDown_some ho
    refine ⟨by rw [hop]; decide, ?_⟩
    intro hg hi
    obtain ⟨hle, hlive⟩ := hv g i k j hg (hk.trans hi) htake
    exact ⟨hle.trans_lt hk, hlive⟩

theorem forwardPass_fits : forwardPass.Fits := by
  refine scanPass_fits forwardVisit (fun _ _ => rfl) ?_
  intro g i k v hg hk h
  obtain ⟨hlive, hop, rfl, hne⟩ := forwardVisit_take h
  obtain ⟨hlt, hv⟩ := hg.stored hk hlive (by rw [hop]; decide) hne
  exact ⟨hlt.le, hv⟩

theorem repeatedLoadPass_fits : repeatedLoadPass.Fits := by
  refine scanPass_fits redundantVisit (fun _ _ => rfl) ?_
  intro g i k v hg hk h
  obtain ⟨hlive, rfl⟩ := redundantVisit_take h
  exact ⟨Nat.le_refl _, hlive⟩

theorem elementLoadPass_fits : elementLoadPass.Fits := by
  intro g i a h
  unfold elementLoadPass at h
  dsimp only at h
  split at h
  · cases h
    trivial
  · rename_i hload
    simp only [Bool.or_eq_true, decide_eq_true_eq, not_or, Bool.not_eq_true, ne_eq,
      Decidable.not_not] at hload
    cases h
    apply takeOverBy_fits
    intro j hj
    obtain ⟨k, hk, hp⟩ := searchUp_some hj
    split at hp
    · rename_i htest
      simp only [Bool.and_eq_true, Bool.not_eq_true'] at htest
      cases hp
      refine ⟨by rw [hload.2]; decide, ?_⟩
      intro _ _
      exact ⟨hk, htest.1.1.1⟩
    · cases hp

theorem elementRangePass_fits : elementRangePass.Fits := by
  intro g i a h
  unfold elementRangePass at h
  dsimp only at h
  split at h
  · cases h
    trivial
  · split at h
    · cases h
      trivial
    · split at h <;> (cases h; trivial)

theorem rewritingPasses_fit (hp : p ∈ rewritingPasses) : p.Fits := by
  simp only [rewritingPasses, List.mem_cons, List.not_mem_nil, or_false] at hp
  rcases hp with rfl | rfl | rfl | rfl | rfl | rfl | rfl | rfl | rfl
  · exact commonExpressionPass_fits
  · exact scalarPass_fits
  · exact overwrittenPass_fits
  · exact storePhiPass_fits
  · exact forwardPass_fits
  · exact repeatedLoadPass_fits
  · exact elementLoadPass_fits
  · exact elementRangePass_fits
  · exact guardPass_fits

theorem Action.perform_valueCount (i : Nat) (g : Graph) (a : Action) :
    (a.perform i g).valueCount = g.valueCount := by
  cases a with
  | keep => rfl
  | takeOver j => exact redirect_valueCount g i j
  | takeOverOnce j => exact (Graph.setValue_valueCount _ _ _).trans (redirect_valueCount g i j)
  | takeOverById j =>
    exact (Graph.setValue_valueCount _ _ _).trans (replaceValueUses_valueCount g _ j)
  | drop =>
    unfold Action.perform
    dsimp only
    rw [dropIfValue_eq, dropIfValue_eq]
    simp
  | merge l r =>
    unfold Action.perform
    dsimp only
    split <;> simp
  | annotate limit => exact Graph.setValue_valueCount _ _ _

theorem runPasses_cons : runPasses (p :: ps) g = (p.run g).bind (runPasses ps) := rfl

theorem runPasses_append : runPasses (before ++ rest) g =
    (runPasses before g).bind (runPasses rest) := by
  unfold runPasses
  rw [List.foldlM_append]
  rfl

theorem runPasses_invariant {P : Graph → Prop} (hg : P g)
    (hstep : ∀ p i s a, Visits ps g p i s → P s → i < s.valueCount → p s i = some a →
      P (a.perform i s))
    (h : runPasses ps g = some out) : P out ∧ out.valueCount = g.valueCount := by
  have hrest (before rest : List Pass) (t : Graph) (hps : ps = before ++ rest)
      (ht : runPasses before g = some t) (hP : P t ∧ t.valueCount = g.valueCount)
      (hout : runPasses rest t = some out) : P out ∧ out.valueCount = g.valueCount := by
    induction rest generalizing before t with
    | nil =>
      cases hout
      exact hP
    | cons p rest ih =>
      obtain ⟨u, hu, hout⟩ := Option.bind_eq_some_iff.mp hout
      refine ih (before ++ [p]) u (by simp [hps]) ?_ ?_ hout
      · rw [runPasses_append, ht]
        simpa [runPasses] using hu
      · have hloop : forUpM t.valueCount p.visit t = some u ∧
            P u ∧ u.valueCount = g.valueCount := by
          refine ⟨hu, ?_⟩
          have := forUpM_reached (P := fun s => P s ∧ s.valueCount = g.valueCount) hP ?_ hu
          · exact this
          · intro i s s' hi hs hreach hvisit
            obtain ⟨a, ha, rfl⟩ := Option.map_eq_some_iff.mp hvisit
            have hvisits : Visits ps g p i s := ⟨before, rest, t, hps, ht, hi, hreach⟩
            exact ⟨hstep p i s a hvisits hs.1 (hs.2.trans hP.2.symm ▸ hi) ha,
              (Action.perform_valueCount i s a).trans hs.2⟩
        exact hloop.2
  exact hrest [] ps g rfl rfl ⟨hg, rfl⟩ h

structure Stays (g g' : Graph) : Prop where
  count : g'.valueCount = g.valueCount
  removed : ∀ x, x < g.valueCount → (g.value x).removed = true → (g'.value x).removed = true
  stores : ∀ k, k < g.valueCount → (g.value k).removed = false →
    (g.value k).opcode = .elementStore → (g'.value k).removed = false ∧
      (g'.value k).opcode = .elementStore ∧ (g'.value k).metadata = (g.value k).metadata

theorem Stays.refl (g : Graph) : Stays g g :=
  ⟨rfl, fun _ _ h => h, fun _ _ hlive hop => ⟨hlive, hop, rfl⟩⟩

theorem Stays.trans {g' : Graph} (h : Stays g g') (h' : Stays g' s) : Stays g s where
  count := h'.count.trans h.count
  removed := by
    intro x hx hr
    exact h'.removed x (h.count ▸ hx) (h.removed x hx hr)
  stores := by
    intro k hk hlive hop
    obtain ⟨hlive', hop', hm⟩ := h.stores k hk hlive hop
    obtain ⟨hlive'', hop'', hm'⟩ := h'.stores k (h.count ▸ hk) hlive' hop'
    exact ⟨hlive'', hop'', hm'.trans hm⟩

theorem Stays.setValue (g : Graph) (i : Nat) {f : Value → Value}
    (hr : (g.value i).removed = true → (f (g.value i)).removed = true)
    (hs : (g.value i).removed = false → (g.value i).opcode = .elementStore →
      (f (g.value i)).removed = false ∧ (f (g.value i)).opcode = .elementStore ∧
        (f (g.value i)).metadata = (g.value i).metadata) : Stays g (g.setValue i f) where
  count := Graph.setValue_valueCount _ _ _
  removed := by
    intro x _ h
    rw [Graph.setValue_value]
    split
    · rename_i hix
      rw [← hix.1] at h ⊢
      exact hr h
    · exact h
  stores := by
    intro k _ hlive hop
    rw [Graph.setValue_value]
    split
    · rename_i hik
      rw [← hik.1] at hlive hop ⊢
      exact hs hlive hop
    · exact ⟨hlive, hop, rfl⟩

theorem Stays.annotate (g : Graph) (i : Nat) {f : Value → Value}
    (hf : ∀ v, (f v).removed = v.removed ∧ (f v).opcode = v.opcode ∧ (f v).metadata = v.metadata) :
    Stays g (g.setValue i f) := by
  obtain ⟨hr, ho, hm⟩ := hf (g.value i)
  exact .setValue g i (fun h => hr.trans h) fun hl he => ⟨hr.trans hl, ho.trans he, hm⟩

theorem Stays.other (g : Graph) (i : Nat) {f : Value → Value}
    (hr : ∀ v, v.removed = true → (f v).removed = true) (hop : (g.value i).opcode ≠ .elementStore) :
    Stays g (g.setValue i f) :=
  .setValue g i (hr _) fun _ he => absurd he hop

theorem Stays.replaceValueUses (g : Graph) (i j : Nat) : Stays g (replaceValueUses g i j) := by
  have hmap : Stays g { g with values := g.values.map (substitute i j) } := by
    refine ⟨by simp [Graph.valueCount], ?_, ?_⟩
    · intro x hx hr
      rw [map_value g _ hx]
      exact (substitute_fields i j _).2.1.trans hr
    · intro k hk hlive hop
      rw [map_value g _ hk]
      obtain ⟨-, hr, ho, hm, -⟩ := substitute_fields i j (g.value k)
      exact ⟨hr.trans hlive, ho.trans hop, hm⟩
  unfold Optimizing.replaceValueUses
  refine (hmap.trans (.annotate _ _ ?_)).trans (.annotate _ _ ?_)
  · exact fun _ => ⟨rfl, rfl, rfl⟩
  · exact fun _ => ⟨rfl, rfl, rfl⟩

theorem replaceValueUses_opcode (g : Graph) (i j x : Nat) :
    ((replaceValueUses g i j).value x).opcode = (g.value x).opcode := by
  unfold replaceValueUses
  dsimp only
  rw [Graph.setValue_field Value.opcode, Graph.setValue_field Value.opcode]
  · rcases Nat.lt_or_ge x g.valueCount with hx | hx
    · rw [map_value g _ hx]
      exact (substitute_fields i j _).2.2.1
    · have hnone : g.values[x]? = none := List.getElem?_eq_none hx
      simp [Graph.value, List.getD_eq_getElem?_getD, hnone]
  · exact fun _ => rfl
  · exact fun _ => rfl

theorem Stays.takeOver (g : Graph) (k i j : Nat) (hop : (g.value i).opcode ≠ .elementStore) :
    Stays g ((Optimizing.replaceValueUses g k j).setValue i remove) :=
  (Stays.replaceValueUses g k j).trans
    (.other _ _ (fun _ _ => rfl) (by rwa [replaceValueUses_opcode]))

theorem Stays.perform (hfits : a.Fits g i) : Stays g (a.perform i g) := by
  have hdrop (g : Graph) (x : Nat) : Stays g (g.setValue x dropUse) :=
    .annotate g x fun _ => ⟨rfl, rfl, rfl⟩
  have hadd (g : Graph) (x : Nat) : Stays g (g.setValue x Optimizing.addUse) :=
    .annotate g x fun _ => ⟨rfl, rfl, rfl⟩
  cases a with
  | keep => exact .refl g
  | takeOver j => exact .takeOver g i i j hfits.1
  | takeOverOnce j => exact (Stays.takeOver g i i j hfits.1).trans (hadd _ j)
  | takeOverById j =>
    exact .takeOver g (g.value i).id i j (by rw [hfits.1]; decide)
  | drop =>
    unfold Action.perform
    dsimp only
    rw [dropIfValue_eq, dropIfValue_eq]
    refine ((hdrop _ _).trans (hdrop _ _)).trans (.other _ _ (fun _ _ => rfl) ?_)
    rw [Graph.setValue_field Value.opcode (f := dropUse) (fun _ => rfl),
      Graph.setValue_field Value.opcode (f := dropUse) (fun _ => rfl), hfits.2]
    decide
  | merge l r =>
    obtain ⟨-, hop, -⟩ := hfits
    unfold Action.perform
    dsimp only
    rw [show (if (g.value i).left < g.valueCount then g.setValue (g.value i).left dropUse
      else g) = g.setValue (g.value i).left dropUse from dropIfValue_eq g _]
    refine (((hdrop _ _).trans (hadd _ _)).trans (hadd _ _)).trans
      (.other _ _ (fun _ h => h) ?_)
    rw [Graph.setValue_field Value.opcode (f := Optimizing.addUse) (fun _ => rfl),
      Graph.setValue_field Value.opcode (f := Optimizing.addUse) (fun _ => rfl),
      Graph.setValue_field Value.opcode (f := dropUse) (fun _ => rfl), hop]
    decide
  | annotate limit => exact .annotate g i fun _ => ⟨rfl, rfl, rfl⟩

theorem Stays.runPasses (hps : ∀ p ∈ ps, p.Fits) (h : runPasses ps g = some out) : Stays g out := by
  have hinv := runPasses_invariant (P := fun s => Stays g s) (.refl g) (fun p i s a hv hs _ ha =>
    hs.trans (.perform (hps p (by
      obtain ⟨before, after, t, rfl, -⟩ := hv
      simp) s i a ha))) h
  exact hinv.1

theorem Visits.stays (hv : Visits ps g p i s) (ha : p s i = some a) (hps : ∀ p ∈ ps, p.Fits)
    (h : runPasses ps g = some out) : Stays (a.perform i s) out := by
  obtain ⟨before, after, t, rfl, ht, hi, hs⟩ := hv
  rw [runPasses_append, ht, Option.bind_some, runPasses_cons] at h
  obtain ⟨u, hu, hout⟩ := Option.bind_eq_some_iff.mp h
  have hp : p.Fits := hps p (by simp)
  have hvisit : forUpM (i + 1) p.visit t = some (a.perform i s) := by
    rw [forUpM_succ, hs]
    exact congrArg (Option.map _) ha
  have hloop : Stays (a.perform i s) u := by
    refine forUpM_rest (P := fun v => Stays (a.perform i s) v) hi hvisit (.refl _) ?_ hu
    intro j v v' hv hvisit
    obtain ⟨b, hb, rfl⟩ := Option.map_eq_some_iff.mp hvisit
    exact hv.trans (.perform (hp v j b hb))
  refine hloop.trans (Stays.runPasses (fun q hq => hps q ?_) hout)
  simp [hq]

def NoProperties (g : Graph) : Prop :=
  ∀ k, (g.value k).opcode ≠ .propertyLoad ∧ (g.value k).opcode ≠ .propertyStore

theorem NoProperties.decision (h : NoProperties g) (ha : a.Fits g i) :
    a.KeepsOrder g i ∧ a.DropsUnused g i := by
  cases a with
  | takeOverById j => exact absurd ha.1 (h i).1
  | drop => exact absurd ha.2 (h i).2
  | _ => exact ⟨trivial, trivial⟩

theorem NoProperties.setValue {f : Value → Value} (h : NoProperties g)
    (hf : ∀ v, (f v).opcode = v.opcode) (i : Nat) : NoProperties (g.setValue i f) := by
  intro k
  rw [Graph.setValue_field Value.opcode hf]
  exact h k

theorem NoProperties.takeOver (h : NoProperties g) (i j : Nat) : NoProperties (redirect g i j) := by
  refine NoProperties.setValue (f := remove) ?_ (fun _ => rfl) i
  intro k
  rw [replaceValueUses_opcode]
  exact h k

theorem NoProperties.perform (h : NoProperties g) (ha : a.Fits g i) :
    NoProperties (a.perform i g) := by
  cases a with
  | keep => exact h
  | takeOver j => exact h.takeOver i j
  | takeOverOnce j => exact (h.takeOver i j).setValue (f := Optimizing.addUse) (fun _ => rfl) j
  | takeOverById j => exact absurd ha.1 (h i).1
  | drop => exact absurd ha.2 (h i).2
  | merge l r => exact absurd ha.2.1 (h i).1
  | annotate limit =>
    refine NoProperties.setValue h ?_ i
    exact fun _ => rfl

theorem Visits.invariant {P : Graph → Prop} (hv : Visits ps g p i s) (hg : P g)
    (hstep : ∀ q ∈ ps, ∀ k t b, P t → q t k = some b → P (b.perform k t)) : P s := by
  obtain ⟨before, after, t, rfl, ht, hi, hs⟩ := hv
  have hvisit (q : Pass) (hq : q ∈ before ++ p :: after) (k : Nat) (u u' : Graph) (hu : P u)
      (h : q.visit k u = some u') : P u' := by
    obtain ⟨b, hb, rfl⟩ := Option.map_eq_some_iff.mp h
    exact hstep q hq k u b hu hb
  have hstart : P t := by
    have hrun := runPasses_invariant (P := P) hg (fun q k u b hv' hu _ hb =>
      hstep q (by
        obtain ⟨b₁, b₂, -, rfl, -⟩ := hv'
        simp) k u b hu hb) ht
    exact hrun.1
  exact forUpM_invariant hstart (fun k u u' _ hu h => hvisit p (by simp) k u u' hu h) hs

theorem NoProperties.visits (h : NoProperties g) (hv : Visits rewritingPasses g p i s)
    (ha : p s i = some a) : a.KeepsOrder s i ∧ a.DropsUnused s i := by
  have hmem : p ∈ rewritingPasses := by
    obtain ⟨before, after, t, hps, -⟩ := hv
    rw [hps]
    simp
  have hs : NoProperties s := hv.invariant h fun q hq k t b ht hb =>
    ht.perform (rewritingPasses_fit hq t k b hb)
  exact hs.decision (rewritingPasses_fit hmem s i a ha)

end

end TurboJS.Optimizing
