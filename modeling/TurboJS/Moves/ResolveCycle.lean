import TurboJS.Moves.Resolve

namespace TurboJS.Moves

open IR Foundation

section

variable {V : Type} {n : Nat} {m : Fin n → ParallelMove} {is fs : MoveLocation}

/-- What the code from `s` to `t` has done: moves it has counted as done, and moves written, into
scratch locations or into destinations that waited at `s`. -/
structure Extends (m : Fin n → ParallelMove) (is fs : MoveLocation) (s t : Resolving n) : Prop where
  pending : ∀ i, t.Pending i → s.Pending i
  writes : ∃ rest, t.r = s.r ++ rest ∧ ∀ x ∈ rest, x.destination = is ∨ x.destination = fs ∨
    ∃ i, s.Pending i ∧ x.destination = (m i).destination

theorem Extends.refl (s : Resolving n) : Extends m is fs s s :=
  ⟨fun _ hi => hi, [], by simp, by simp⟩

theorem Extends.trans {s t u : Resolving n} (h : Extends m is fs s t) (h' : Extends m is fs t u) :
    Extends m is fs s u := by
  obtain ⟨rest, hr, hw⟩ := h.writes
  obtain ⟨rest', hr', hw'⟩ := h'.writes
  refine ⟨fun i hi => h.pending i (h'.pending i hi), rest ++ rest', by simp [hr', hr], ?_⟩
  intro x hx
  rcases List.mem_append.mp hx with hx | hx
  · exact hw x hx
  · rcases hw' x hx with hd | hd | ⟨i, hi, hd⟩
    · exact .inl hd
    · exact .inr (.inl hd)
    · exact .inr (.inr ⟨i, h.pending i hi, hd⟩)

theorem Extends.write {s t : Resolving n} (h : Extends m is fs s t) {j : Fin n} (i : Fin n)
    (hj : s.Pending j) {x : ParallelMove} (hx : x.destination = (m j).destination) :
    Extends m is fs s (t.write x i) := by
  obtain ⟨rest, hr, hw⟩ := h.writes
  refine ⟨fun k hk => h.pending k ((t.write_done x i k).mp hk).1, rest ++ [x], ?_, ?_⟩
  · simp [Resolving.write, hr]
  · intro y hy
    rcases List.mem_append.mp hy with hy | hy
    · exact hw y hy
    · rw [List.mem_singleton.mp hy]
      exact .inr (.inr ⟨j, hj, hx⟩)

theorem pass_extends (s : Resolving n) : Extends m is fs s (pass m s).1 := by
  apply pass_induct (P := fun p => Extends m is fs s p.1) (Extends.refl s)
  intro p i ht hi _
  exact ht.write i (ht.pending i hi) rfl

theorem pending_of_find {s : Resolving n} {j k : Fin n}
    (h : ((List.finRange n).find? fun k => !s.done k && (m k).destination = (m j).source) = some k) :
    s.Pending k ∧ (m k).destination = (m j).source := by
  have hk := List.find?_some h
  simp only [Bool.and_eq_true, Bool.not_eq_true', decide_eq_true_eq] at hk
  exact hk

theorem followCycle_extends {i : Fin n} {scratch : MoveLocation} {s₀ : Resolving n} {fuel : Nat} :
    ∀ {s t : Resolving n} {j : Fin n}, Extends m is fs s₀ s → s₀.Pending j →
      followCycle m i scratch fuel s j = some t → Extends m is fs s₀ t := by
  induction fuel with
  | zero => exact fun _ _ h => nomatch h
  | succ fuel ih =>
    intro s t j hs hj h
    rw [followCycle] at h
    split at h
    · cases h
      exact hs.write j hj rfl
    · rename_i k hk
      obtain ⟨hk, -⟩ := pending_of_find hk
      split at h
      · cases h
        exact hs.write k (hs.pending k hk) rfl
      · exact ih (hs.write k (hs.pending k hk) rfl) (hs.pending k hk) h

theorem scratchFor_mem (is fs l : MoveLocation) :
    scratchFor is fs l = is ∨ scratchFor is fs l = fs := by
  cases h : l.registerClass <;> simp [scratchFor, h]

theorem resolveLoop_cases {fuel : Nat} {s : Resolving n} {out : List ParallelMove}
    (h : resolveLoop m is fs (fuel + 1) s = some (.ok out)) :
    ((s.left = 0 ∨ ∀ i, ¬ s.Pending i) ∧ s.r = out) ∨
    resolveLoop m is fs fuel (pass m s).1 = some (.ok out) ∨
    ((∀ i, s.Pending i → sourceUsed m s.done (m i).destination = true) ∧
      ∃ i t, s.Pending i ∧
        followCycle m i (scratchFor is fs (m i).source) (n + 1)
          (s.save (m i).source (scratchFor is fs (m i).source)) i = some t ∧
        resolveLoop m is fs fuel t = some (.ok out)) := by
  rw [resolveLoop] at h
  split at h
  · rename_i hl
    cases h
    exact .inl ⟨.inl hl, rfl⟩
  · simp only at h
    split at h
    · exact .inr (.inl h)
    · rename_i hp
      obtain ⟨hsame, hblocked⟩ := pass_idle (Bool.eq_false_iff.mpr hp)
      simp only [hsame] at h
      split at h
      · rename_i hnone
        cases h
        refine .inl ⟨.inr fun i hi => ?_, rfl⟩
        have hd : s.done i = false := hi
        simpa [hd] using List.find?_eq_none.mp hnone i (List.mem_finRange i)
      · rename_i i hi
        split at h
        · cases h
        · obtain ⟨t, ht, hrest⟩ := Option.bind_eq_some_iff.mp h
          refine .inr (.inr ⟨hblocked, i, t, ?_, ht, hrest⟩)
          simpa [Resolving.Pending] using List.find?_some hi

theorem Extends.save (s : Resolving n) (source l : MoveLocation) :
    Extends m is fs s (s.save source (scratchFor is fs l)) := by
  refine ⟨fun _ hi => hi, [⟨source, scratchFor is fs l⟩], rfl, ?_⟩
  intro x hx
  rw [List.mem_singleton.mp hx]
  exact (scratchFor_mem is fs l).imp id .inl

theorem resolveLoop_extends {fuel : Nat} : ∀ {s : Resolving n} {out : List ParallelMove},
    resolveLoop m is fs fuel s = some (.ok out) → ∃ t, t.r = out ∧ Extends m is fs s t := by
  induction fuel with
  | zero => exact fun h => nomatch h
  | succ fuel ih =>
    intro s out h
    rcases resolveLoop_cases h with ⟨-, rfl⟩ | h | ⟨-, i, t, hi, ht, h⟩
    · exact ⟨s, rfl, .refl s⟩
    · obtain ⟨u, hu, hext⟩ := ih h
      exact ⟨u, hu, (pass_extends s).trans hext⟩
    · obtain ⟨u, hu, hext⟩ := ih h
      have ht := followCycle_extends (.save s _ _) hi ht
      exact ⟨u, hu, ht.trans hext⟩

theorem Extends.execute_eq {s t : Resolving n} (h : Extends m is fs s t)
    (hinj : Function.Injective fun i => (m i).destination) (hfree : ScratchFree m is fs)
    {k : Fin n} (hk : ¬ s.Pending k) (σ : MoveLocation → V) :
    execute t.r σ (m k).destination = execute s.r σ (m k).destination := by
  obtain ⟨rest, hr, hw⟩ := h.writes
  rw [hr, execute_append_list]
  apply execute_frame
  intro x hx he
  rcases hw x hx with hd | hd | ⟨i, hi, hd⟩
  · exact (hfree.destination k).1 (he.trans hd)
  · exact (hfree.destination k).2 (he.trans hd)
  · have : k = i := hinj (he.trans hd)
    exact hk (this ▸ hi)

/-- The walk from move `j` back to move `i`, among moves that permute their locations. -/
structure Following (m : Fin n → ParallelMove) (i : Fin n) (s : Resolving n) (j : Fin n) : Prop where
  first : s.Pending i
  found : ∃ k, s.Pending k ∧ (m k).destination = (m j).source
  feeds : ∀ q, s.Pending q → q ≠ i → ∃ k, s.Pending k ∧ (m k).destination = (m q).source
  fresh : ∀ q, s.Pending q → q ≠ i → (m q).source ≠ (m j).source
  distinct : ∀ p q, s.Pending p → s.Pending q → (m p).source = (m q).source → p = q
  moving : ∀ q, s.Pending q → (m q).source ≠ (m q).destination
  open_ : (m j).source ≠ (m i).destination

theorem Following.start {s : Resolving n} (hinj : Function.Injective fun i => (m i).destination)
    (h : Stuck (fun i => (m i).destination) (fun i => (m i).source) s.Pending) {i : Fin n}
    (hi : s.Pending i) (source scratch : MoveLocation) : Following m i (s.save source scratch) i where
  first := hi
  found := (h.permutes hinj).1 i hi
  feeds := fun q hq _ => (h.permutes hinj).1 q hq
  fresh := fun q hq hne he => hne ((h.permutes hinj).2 q i hq hi he)
  distinct := (h.permutes hinj).2
  moving := fun _ hq => h.moves hinj hq
  open_ := h.moves hinj hi

theorem Following.next {i j k : Fin n} {s : Resolving n} (h : Following m i s j)
    (hk : s.Pending k) (hd : (m k).destination = (m j).source)
    (hopen : (m k).source ≠ (m i).destination) (x : ParallelMove) :
    Following m i (s.write x k) k := by
  have hki : k ≠ i := by
    rintro rfl
    exact h.open_ hd.symm
  have hpending : ∀ q, (s.write x k).Pending q ↔ s.Pending q ∧ q ≠ k := s.write_done x k
  have hfeeds : ∀ q, s.Pending q → q ≠ i → (m q).source ≠ (m k).destination →
      ∃ p, (s.write x k).Pending p ∧ (m p).destination = (m q).source := by
    intro q hq hne hself
    obtain ⟨p, hp, he⟩ := h.feeds q hq hne
    refine ⟨p, (hpending p).mpr ⟨hp, ?_⟩, he⟩
    rintro rfl
    exact hself he.symm
  constructor
  · exact (hpending i).mpr ⟨h.first, hki.symm⟩
  · exact hfeeds k hk hki (h.moving k hk)
  · intro q hq hne
    apply hfeeds q ((hpending q).mp hq).1 hne
    rw [hd]
    exact h.fresh q ((hpending q).mp hq).1 hne
  · intro q hq _ he
    obtain ⟨hq, hqk⟩ := (hpending q).mp hq
    exact hqk (h.distinct q k hq hk he)
  · intro p q hp hq
    exact h.distinct p q ((hpending p).mp hp).1 ((hpending q).mp hq).1
  · exact fun q hq => h.moving q ((hpending q).mp hq).1
  · exact hopen

theorem followCycle_wrong {i : Fin n} {scratch : MoveLocation}
    (hscratch : ∀ k, (m k).destination ≠ scratch) {fuel : Nat} :
    ∀ {s t : Resolving n} {j : Fin n}, Following m i s j →
      (∀ σ : MoveLocation → V, execute s.r σ scratch = σ (m i).source) →
      followCycle m i scratch fuel s j = some t →
      ∃ k, (m k).source = (m i).destination ∧ ¬ t.Pending k ∧
        ∀ σ : MoveLocation → V, execute t.r σ (m k).destination = σ (m i).source := by
  induction fuel with
  | zero => exact fun _ _ h => nomatch h
  | succ fuel ih =>
    intro s t j hf hsaved h
    rw [followCycle] at h
    split at h
    · rename_i hnone
      obtain ⟨k, hk, hd⟩ := hf.found
      have hk : s.done k = false := hk
      exact absurd (List.find?_eq_none.mp hnone k (List.mem_finRange k)) (by simp [hk, hd])
    · rename_i k hfind
      have hk := pending_of_find hfind
      split at h
      · rename_i hlast
        cases h
        refine ⟨k, hlast, fun hp => ((s.write_done _ k k).mp hp).2 rfl, fun σ => ?_⟩
        rw [show (s.write ⟨scratch, (m k).destination⟩ k).r =
          s.r ++ [⟨scratch, (m k).destination⟩] from rfl, execute_append, ← hsaved σ]
        exact if_pos rfl
      · rename_i hopen
        apply ih (hf.next hk.1 hk.2 hopen (m k)) _ h
        intro σ
        rw [show (s.write (m k) k).r = s.r ++ [m k] from rfl, execute_append, ← hsaved σ]
        exact if_neg (hscratch k).symm

theorem resolveLoop_acyclic (hinj : Function.Injective fun i => (m i).destination)
    (hacyclic : ∀ s : Resolving n, s.Good m → (∃ i, s.Pending i) →
      ¬ Stuck (fun i => (m i).destination) (fun i => (m i).source) s.Pending) {fuel : Nat} :
    ∀ {s : Resolving n} {out : List ParallelMove}, s.Good m →
      (∀ σ : MoveLocation → V, s.Holds m is fs σ) → resolveLoop m is fs fuel s = some (.ok out) →
      ∃ t : Resolving n, t.r = out ∧ (∀ i, ¬ t.Pending i) ∧
        ∀ σ : MoveLocation → V, t.Holds m is fs σ := by
  induction fuel with
  | zero => exact fun _ _ h => nomatch h
  | succ fuel ih =>
    intro s out hg hs h
    rcases resolveLoop_cases h with ⟨hdone, rfl⟩ | h | ⟨hblocked, i, t, hi, -, -⟩
    · exact ⟨s, rfl, hdone.elim hg.finished id, hs⟩
    · obtain ⟨hg', hs'⟩ := pass_holds hinj hg hs
      exact ih hg' hs' h
    · exact absurd (s.stuck_of_used hblocked) (hacyclic s hg ⟨i, hi⟩)

theorem resolveLoop_cyclic (hinj : Function.Injective fun i => (m i).destination)
    (hfree : ScratchFree m is fs) {C : Fin n → Prop} {c : Fin n} (hc : C c)
    (hC : ∀ i, C i → ∃ j, C j ∧ (m j).source = (m i).destination ∧
      (m j).source ≠ (m j).destination) {fuel : Nat} :
    ∀ {s : Resolving n} {out : List ParallelMove}, s.Good m →
      (∀ σ : MoveLocation → V, s.Holds m is fs σ) → (∀ i, C i → s.Pending i) →
      resolveLoop m is fs fuel s = some (.ok out) →
      ∃ i k, (m k).source = (m i).destination ∧ (m i).source ≠ (m i).destination ∧
        ∀ σ : MoveLocation → V, execute out σ (m k).destination = σ (m i).source := by
  induction fuel with
  | zero => exact fun _ _ _ h => nomatch h
  | succ fuel ih =>
    intro s out hg hs hwait h
    rcases resolveLoop_cases h with ⟨hdone, -⟩ | h | ⟨hblocked, i, t, hi, ht, h⟩
    · exact absurd (hwait c hc) (hdone.elim (fun hl => hg.finished hl c) fun hp => hp c)
    · obtain ⟨hg', hs'⟩ := pass_holds hinj hg hs
      refine ih hg' hs' ?_ h
      apply pass_induct (P := fun p => ∀ k, C k → p.1.Pending k) hwait
      intro p i ht _ hu k hk
      refine (p.1.write_done _ i k).mpr ⟨ht k hk, ?_⟩
      rintro rfl
      obtain ⟨j, hj, he, hne⟩ := hC k hk
      exact hne (sourceUsed_eq_false.mp hu j (ht j hj) he)
    · have hstuck := s.stuck_of_used hblocked
      have hsaved : ∀ σ : MoveLocation → V,
          execute (s.save (m i).source (scratchFor is fs (m i).source)).r σ
            (scratchFor is fs (m i).source) = σ (m i).source := by
        intro σ
        rw [Resolving.save, execute_append, ← (hs σ).waiting i hi]
        exact if_pos rfl
      have hscratch : ∀ k, (m k).destination ≠ scratchFor is fs (m i).source := by
        intro k he
        rcases scratchFor_mem is fs (m i).source with hm | hm
        · exact (hfree.destination k).1 (he.trans hm)
        · exact (hfree.destination k).2 (he.trans hm)
      obtain ⟨k, hk, hdone, hwrong⟩ :=
        followCycle_wrong hscratch (.start hinj hstuck hi _ _) hsaved ht
      obtain ⟨u, rfl, hext⟩ := resolveLoop_extends h
      refine ⟨i, k, hk, hstuck.moves hinj hi, fun σ => ?_⟩
      rw [hext.execute_eq hinj hfree hdone, hwrong]

theorem Resolving.pendingCount_write_le (s : Resolving n) (x : ParallelMove) (i : Fin n) :
    (s.write x i).pendingCount ≤ s.pendingCount := by
  apply List.countP_mono_left
  intro k _ hk
  simp only [Bool.not_eq_true', Resolving.write_done] at hk
  simp [hk.1]

theorem followCycle_returns {i : Fin n} {scratch : MoveLocation} {fuel : Nat} :
    ∀ {s : Resolving n} {j : Fin n}, s.pendingCount < fuel →
      ∃ t, followCycle m i scratch fuel s j = some t ∧ t.pendingCount ≤ s.pendingCount ∧
        (s.Pending j → t.pendingCount < s.pendingCount) := by
  induction fuel with
  | zero => exact fun h => absurd h (Nat.not_lt_zero _)
  | succ fuel ih =>
    intro s j hfuel
    rw [followCycle]
    split
    · refine ⟨_, rfl, s.pendingCount_write_le _ j, fun hj => ?_⟩
      have hw := Resolving.pendingCount_write hj ⟨scratch, (m j).destination⟩
      omega
    · rename_i k hk
      have hw := fun x => Resolving.pendingCount_write (pending_of_find hk).1 x
      split
      · have hw := hw ⟨scratch, (m k).destination⟩
        exact ⟨_, rfl, by omega, fun _ => by omega⟩
      · have hw := hw (m k)
        obtain ⟨t, ht, hle, -⟩ := @ih (s.write (m k) k) k (by omega)
        exact ⟨t, ht, by omega, fun _ => by omega⟩

theorem resolveLoop_returns {fuel : Nat} :
    ∀ {s : Resolving n}, s.pendingCount < fuel → (resolveLoop m is fs fuel s).isSome := by
  induction fuel with
  | zero => exact fun h => absurd h (Nat.not_lt_zero _)
  | succ fuel ih =>
    intro s hfuel
    rw [resolveLoop]
    split
    · rfl
    · simp only
      split
      · rename_i hp
        have hlt := pass_progress hp
        exact ih (by omega)
      · rename_i hp
        rw [(pass_idle (Bool.eq_false_iff.mpr hp)).1]
        split
        · rfl
        · rename_i i hi
          split
          · rfl
          · have hpending : s.Pending i := by simpa [Resolving.Pending] using List.find?_some hi
            have hn : s.pendingCount < n + 1 := by
              have := List.countP_le_length (p := fun k => !s.done k) (l := List.finRange n)
              rw [List.length_finRange] at this
              exact Nat.lt_succ_of_le this
            let scratch := scratchFor is fs (m i).source
            obtain ⟨t, ht, -, hlt⟩ :=
              @followCycle_returns n m i scratch (n + 1) (s.save (m i).source scratch) i hn
            have hlt : t.pendingCount < s.pendingCount := hlt hpending
            rw [ht]
            exact ih (by omega)

end

section

variable {moves : List ParallelMove} {is fs : MoveLocation}

theorem feeds_iff {a b : MoveLocation} : Feeds moves a b ↔
    ∃ i, (moves.get i).source = a ∧ (moves.get i).destination = b ∧ a ≠ b := by
  constructor
  · rintro ⟨x, hx, h⟩
    obtain ⟨i, rfl⟩ := List.mem_iff_get.mp hx
    exact ⟨i, h⟩
  · rintro ⟨i, h⟩
    exact ⟨_, List.get_mem moves i, h⟩

theorem Cyclic.moves_on (h : Cyclic moves) : ∃ C : Fin moves.length → Prop, (∃ c, C c) ∧
    (∀ i, C i → (moves.get i).source ≠ (moves.get i).destination) ∧
    ∀ i, C i → ∃ j, C j ∧ (moves.get j).source = (moves.get i).destination := by
  refine ⟨fun i => (moves.get i).source ≠ (moves.get i).destination ∧
    Relation.TransGen (Feeds moves) (moves.get i).destination (moves.get i).destination,
    ?_, fun i hi => hi.1, ?_⟩
  · obtain ⟨l, hl⟩ := h
    obtain ⟨b, -, hb⟩ := Relation.TransGen.tail'_iff.mp hl
    obtain ⟨i, rfl, rfl, hne⟩ := feeds_iff.mp hb
    exact ⟨i, hne, hl⟩
  · rintro i ⟨-, hi⟩
    obtain ⟨c, hfirst, hrest⟩ := Relation.TransGen.head'_iff.mp hi
    obtain ⟨j, hj, rfl, hne⟩ := feeds_iff.mp hfirst
    exact ⟨j, ⟨by rwa [hj], Relation.TransGen.tail' hrest hfirst⟩, hj⟩

theorem not_stuck (hacyclic : ¬ Cyclic moves) (s : Resolving moves.length)
    (hg : s.Good moves.get) (hp : ∃ i, s.Pending i) :
    ¬ Stuck (fun i => (moves.get i).destination) (fun i => (moves.get i).source) s.Pending := by
  intro hstuck
  obtain ⟨i, hi⟩ := hp
  apply hacyclic
  apply exists_cycle (fun i => (moves.get i).destination) (S := s.Pending) _ hi
  intro i hi
  obtain ⟨j, hj, -, he⟩ := hstuck i hi
  exact ⟨j, hj, feeds_iff.mpr ⟨j, he, rfl, fun hd => hg.moving j hj (he.trans hd)⟩⟩

theorem scratchFree_get
    (hs : ∀ x ∈ moves, (x.source ≠ is ∧ x.source ≠ fs) ∧ x.destination ≠ is ∧ x.destination ≠ fs) :
    ScratchFree moves.get is fs where
  source := fun i => (hs _ (List.get_mem moves i)).1
  destination := fun i => (hs _ (List.get_mem moves i)).2

theorem resolveParallelMoves_returns (moves : List ParallelMove) (is fs : MoveLocation) :
    (resolveParallelMoves moves is fs).isSome := by
  apply resolveLoop_returns
  have := List.countP_le_length (p := fun k => !(Resolving.start moves.get).done k)
    (l := List.finRange moves.length)
  rw [List.length_finRange] at this
  exact Nat.lt_succ_of_le this

/-- Moves to different destinations are resolved into a sequence with their effect exactly when
no locations exchange their values in a circle. -/
theorem resolved_takes_effect_iff (V : Type) [Nontrivial V] {out : List ParallelMove}
    (hd : (moves.map ParallelMove.destination).Nodup)
    (hs : ∀ x ∈ moves, (x.source ≠ is ∧ x.source ≠ fs) ∧ x.destination ≠ is ∧ x.destination ≠ fs)
    (ho : resolveParallelMoves moves is fs = some (.ok out)) :
    TakesEffect V moves is fs out ↔ ¬ Cyclic moves := by
  have hinj := injective_of_nodup_map hd
  have hstart : ∀ σ : MoveLocation → V, (Resolving.start moves.get).Holds moves.get is fs σ :=
    Resolving.start_holds
  constructor
  · intro heffect hcyclic
    obtain ⟨C, ⟨c, hc⟩, hmoving, hnext⟩ := hcyclic.moves_on
    obtain ⟨i, k, hk, hne, hwrong⟩ := resolveLoop_cyclic hinj (scratchFree_get hs) hc
      (fun i hi => by
        obtain ⟨j, hj, he⟩ := hnext i hi
        exact ⟨j, hj, he, hmoving j hj⟩)
      Resolving.start_good hstart
      (fun i hi => by simpa [Resolving.Pending, Resolving.start] using hmoving i hi) ho
    obtain ⟨a, b, hab⟩ := exists_pair_ne V
    let σ : MoveLocation → V := fun l => if l = (moves.get i).source then a else b
    have hright := (heffect σ).1 (moves.get k) (List.get_mem moves k)
    rw [hwrong, hk] at hright
    exact hab ((if_pos rfl).symm.trans (hright.trans (if_neg hne.symm)))
  · intro hacyclic
    obtain ⟨t, rfl, hp, ht⟩ := resolveLoop_acyclic hinj (not_stuck hacyclic)
      Resolving.start_good hstart ho
    intro σ
    obtain ⟨hmoved, hframe⟩ := (ht σ).finished hp
    constructor
    · intro x hx
      obtain ⟨i, rfl⟩ := List.mem_iff_get.mp hx
      exact hmoved i
    · intro l hl
      exact hframe l fun i => hl _ (List.get_mem moves i)

end

def intRegister (i : Int) : MoveLocation := ⟨.register, .integer, i⟩

def intScratch : MoveLocation := ⟨.scratch, .integer, 0⟩

def floatScratch : MoveLocation := ⟨.scratch, .float64, 0⟩

theorem chain_takes_effect :
    TakesEffect Bool [⟨intRegister 0, intRegister 1⟩] intScratch floatScratch
        [⟨intRegister 0, intRegister 1⟩] ↔
      ¬ Cyclic [⟨intRegister 0, intRegister 1⟩] :=
  resolved_takes_effect_iff Bool (by decide) (by decide) (by decide)

/-- Three registers in a circle: what the second one held is lost. -/
theorem circle_is_not_resolved :
    let moves : List ParallelMove := [⟨intRegister 0, intRegister 1⟩,
      ⟨intRegister 1, intRegister 2⟩, ⟨intRegister 2, intRegister 0⟩]
    (moves.map ParallelMove.destination).Nodup ∧
      (∀ x ∈ moves, (x.source ≠ intScratch ∧ x.source ≠ floatScratch) ∧
        x.destination ≠ intScratch ∧ x.destination ≠ floatScratch) ∧
      ∃ out, resolveParallelMoves moves intScratch floatScratch = some (.ok out) ∧
        ¬ TakesEffect Int moves intScratch floatScratch out := by
  refine ⟨by decide, by decide, [⟨intRegister 0, intScratch⟩, ⟨intRegister 2, intRegister 0⟩,
    ⟨intScratch, intRegister 2⟩, ⟨intRegister 0, intRegister 1⟩], by decide, ?_⟩
  intro h
  have hright := (h MoveLocation.index).1 ⟨intRegister 1, intRegister 2⟩ (by decide)
  exact absurd hright (by decide)

section

variable {n : Nat} {m : Fin n → ParallelMove} {is fs : MoveLocation}

def Resolving.room (s : Resolving n) : Nat := s.r.length + 2 * s.pendingCount

theorem Resolving.room_write {s : Resolving n} {i : Fin n} (hi : s.Pending i) (x : ParallelMove) :
    (s.write x i).room + 1 = s.room := by
  have hcount := s.pendingCount_write hi x
  have hlen : (s.write x i).r.length = s.r.length + 1 := List.length_append
  unfold Resolving.room
  omega

theorem pass_room (s : Resolving n) : (pass m s).1.room ≤ s.room := by
  apply pass_induct (P := fun p => p.1.room ≤ s.room) le_rfl
  intro p i hp hi _
  have hroom := Resolving.room_write hi (m i)
  dsimp only
  omega

/-- The entries of a walk back to move `i` leave room for the one that saved its source. -/
theorem followCycle_room {i : Fin n} {scratch : MoveLocation} {fuel : Nat} :
    ∀ {s t : Resolving n} {j : Fin n}, Following m i s j →
      followCycle m i scratch fuel s j = some t → t.room + 1 ≤ s.room := by
  induction fuel with
  | zero =>
    intro s t j _ h
    cases h
  | succ fuel ih =>
    intro s t j hf h
    rw [followCycle] at h
    split at h
    · rename_i hnone
      obtain ⟨k, hk, hd⟩ := hf.found
      have hk : s.done k = false := hk
      exact absurd (List.find?_eq_none.mp hnone k (List.mem_finRange k)) (by simp [hk, hd])
    · rename_i k hfind
      have hk := pending_of_find hfind
      split at h
      · cases h
        exact (Resolving.room_write hk.1 _).le
      · rename_i hopen
        have hroom := Resolving.room_write hk.1 (m k)
        have hrest := ih (hf.next hk.1 hk.2 hopen (m k)) h
        omega

theorem resolveLoop_room (hinj : Function.Injective fun i => (m i).destination) {fuel : Nat} :
    ∀ {s : Resolving n} {out : List ParallelMove},
      resolveLoop m is fs fuel s = some (.ok out) → out.length ≤ s.room := by
  induction fuel with
  | zero =>
    intro s out h
    cases h
  | succ fuel ih =>
    intro s out h
    rcases resolveLoop_cases h with ⟨-, rfl⟩ | h | ⟨hblocked, i, t, hi, ht, h⟩
    · exact Nat.le_add_right _ _
    · exact (ih h).trans (pass_room s)
    · have hsave : (s.save (m i).source (scratchFor is fs (m i).source)).room = s.room + 1 := by
        simp [Resolving.room, Resolving.save, Resolving.pendingCount, Nat.add_right_comm]
      have hcycle := followCycle_room (.start hinj (s.stuck_of_used hblocked) hi _ _) ht
      have hrest := ih h
      omega

end

/-- Moves to different destinations are resolved, and what is written for them stays within a
buffer of two entries for each. -/
theorem resolved_within_buffer (moves : List ParallelMove) (is fs : MoveLocation)
    (hd : (moves.map ParallelMove.destination).Nodup) :
    ∃ r, resolveParallelMoves moves is fs = some r ∧
      ∀ out, r = .ok out → out.length ≤ 2 * moves.length := by
  obtain ⟨r, hr⟩ := Option.isSome_iff_exists.mp (resolveParallelMoves_returns moves is fs)
  refine ⟨r, hr, ?_⟩
  rintro out rfl
  have hroom := resolveLoop_room (injective_of_nodup_map hd) hr
  have hcount := List.countP_le_length (p := fun k => !(Resolving.start moves.get).done k)
    (l := List.finRange moves.length)
  rw [List.length_finRange] at hcount
  have hstart : (Resolving.start moves.get).room =
      2 * (Resolving.start moves.get).pendingCount := Nat.zero_add _
  change (Resolving.start moves.get).pendingCount ≤ moves.length at hcount
  omega

theorem circle_within_buffer :
    ∃ r, resolveParallelMoves [⟨intRegister 0, intRegister 1⟩, ⟨intRegister 1, intRegister 0⟩]
        intScratch floatScratch = some r ∧ ∀ out, r = .ok out → out.length ≤ 4 :=
  resolved_within_buffer [⟨intRegister 0, intRegister 1⟩, ⟨intRegister 1, intRegister 0⟩]
    intScratch floatScratch (by decide)

end TurboJS.Moves
