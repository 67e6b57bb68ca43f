import TurboJS.Objects.Transition

namespace TurboJS.Objects
open Foundation

/-! Which operations keep the transition cache and the hash chains true, and the runs made of
them. -/

variable {rt rt' : Runtime} {a a' a1 o atom : Nat} {flags : Fin 64} {sh sh' : Shape}
  {clone dest : Option Nat}

/-! ## A property is appended to a shape -/

theorem Coherence.relink (h : Coherence rt) (ha : rt.shapes a = some sh)
    (hu : Unlinked rt a) : Coherence (linkIfHashed rt a sh) := by
  unfold linkIfHashed
  split
  · rename_i hh
    exact h.link ha hh hu
  · exact h

theorem Coherence.grow (h : Coherence rt) (hu : Unlinked rt a) (ha : rt.shapes a = some sh)
    (hsafe : ¬ InCache rt a ∨
      sh.isHashed = false ∧ (sh.propSize ≤ sh.props.length → dest = some a))
    (hr : growShape rt a sh dest = some (rt', a')) :
    Coherence rt' ∧ Unlinked rt' a' ∧ (¬ InCache rt' a' ∨ sh.isHashed = false) ∧
      ∃ sh', rt'.shapes a' = some sh' ∧ sh'.isHashed = sh.isHashed := by
  have hsafe' : ¬ InCache rt a ∨ sh.isHashed = false := by
    rcases hsafe with hc | ⟨hh, -⟩
    · exact .inl hc
    · exact .inr hh
  unfold growShape at hr
  split at hr
  · rename_i hsize
    unfold resizeProperties at hr
    cases dest with
    | none => cases hr
    | some d =>
      simp only at hr
      split at hr
      · -- The reallocation leaves the shape where it is.
        split at hr
        · cases hr
          refine ⟨h.setShape_same ha ⟨rfl, rfl, rfl, rfl⟩, hu, ?_, _, setShape_self _ _ _, rfl⟩
          rcases hsafe' with hc | hh
          · exact .inl (not_inCache_setShape hc)
          · exact .inr hh
        · cases hr
      · rename_i hne
        split at hr
        · rename_i hfree
          cases hr
          have hc : ¬ InCache rt a := by
            rcases hsafe with hc | ⟨-, hd⟩
            · exact hc
            · exact absurd (Option.some.inj (hd hsize)) hne
          have hdrop := h.dropShape hu hc
          have hnone : (rt.dropShape a).shapes a' = none := by
            rw [dropShape_of_ne _ _ _ hne]
            simpa [Runtime.canAllocate] using hfree
          refine ⟨hdrop.setShape_fresh hnone, hdrop.unlinked_of_free hnone,
            .inl (not_inCache_setShape (hdrop.not_inCache_of_free hnone)), _,
            setShape_self _ _ _, rfl⟩
        · cases hr
  · cases hr
    exact ⟨h, hu, hsafe', sh, ha, rfl⟩

theorem Coherence.append (h : Coherence rt) (hu : Unlinked rt a) (ha : rt.shapes a = some sh)
    (hsafe : ¬ InCache rt a ∨ sh.isHashed = false) :
    Coherence (linkIfHashed (rt.setShape a (sh.append atom flags)) a (sh.append atom flags)) := by
  apply Coherence.relink _ (setShape_self _ _ _) hu
  rcases hsafe with hc | hh
  · apply h.setShape hu (fun ht => hc (.inr ht))
    intro hs
    exact absurd (.inl hs) hc
  · exact h.setShape hu (h.not_isTarget ha hh) (fun _ => hh)

theorem Coherence.addShape {moved : Option Nat} (h : Coherence rt) (ha : rt.shapes a = some sh)
    (hsafe : ¬ InCache rt a ∨
      sh.isHashed = false ∧ (sh.propSize ≤ sh.props.length → dest = some a))
    (hr : addShapeProperty rt a atom flags dest = some (rt', moved)) : Coherence rt' := by
  unfold addShapeProperty at hr
  obtain ⟨sh0, h0, hr⟩ := Option.bind_eq_some_iff.mp hr
  rw [ha] at h0
  cases h0
  obtain ⟨rt1, h1, hr⟩ := Option.bind_eq_some_iff.mp hr
  obtain ⟨hc1, hu1, hs1, ht1, -⟩ := h.detach ha h1
  rw [← hs1] at ha
  rw [← inCache_congr hs1 ht1] at hsafe
  split at hr
  · cases hr
    exact hc1.relink ha hu1
  · rename_i rt2 a' hg
    obtain ⟨hc2, hu2, hsafe2, sh', ha', hh'⟩ := hc1.grow hu1 ha hsafe hg
    rw [ha'] at hr
    cases hr
    rw [← hh'] at hsafe2
    exact hc2.append hu2 ha' hsafe2

theorem Coherence.inPlace (h : Coherence rt) (ha : rt.shapes a = some sh)
    (hsafe : ¬ InCache rt a ∨
      sh.isHashed = false ∧ (sh.propSize ≤ sh.props.length → dest = some a))
    (hr : addPropertyInPlace rt o a atom flags dest = some rt') : Coherence rt' := by
  unfold addPropertyInPlace at hr
  split at hr
  · rename_i hadd
    cases hr
    exact (h.addShape ha hsafe hadd).objects _
  · rename_i hadd
    cases hr
    exact h.addShape ha hsafe hadd
  · cases hr

theorem Coherence.dup (h : Coherence rt) (ha : rt.shapes a = some sh) :
    Coherence (jsDupShape rt a sh) :=
  h.setShape_same ha ⟨rfl, rfl, rfl, rfl⟩

theorem Coherence.takeShape (h : Coherence rt) (hr : takeShape rt o a a1 = some rt') :
    Coherence rt' := by
  unfold Objects.takeShape at hr
  obtain ⟨sh1, hs1, hr⟩ := Option.bind_eq_some_iff.mp hr
  exact (((h.dup hs1).objects _).free hr).1

theorem Coherence.takeHashedClone (h : Coherence rt) (hfree : rt.shapes a1 = none)
    (ha : rt.shapes a = some sh) (hh : sh.isHashed = true)
    (hr : takeHashedClone (rt.setShape a1 sh') o a sh a1 = some rt') :
    Coherence rt' ∧ ¬ InCache rt' a1 ∧ rt'.shapes a1 = some { sh with refCount := 1 } := by
  have hne : a1 ≠ a := by
    rintro rfl
    rw [ha] at hfree
    cases hfree
  unfold Objects.takeHashedClone at hr
  obtain ⟨rt1, h1, hr⟩ := Option.bind_eq_some_iff.mp hr
  cases hr
  have hset : (rt.setShape a1 sh').setShape a1 { sh with refCount := 1 } =
      rt.setShape a1 { sh with refCount := 1 } := by
    simp [Runtime.setShape]
  rw [hset] at h1
  have hc : Coherence (rt.setShape a1 { sh with refCount := 1 }) := h.setShape_fresh hfree
  have hn : ¬ InCache (rt.setShape a1 { sh with refCount := 1 }) a1 :=
    not_inCache_setShape (h.not_inCache_of_free hfree)
  have hl := hc.link (setShape_self _ _ _) hh (h.unlinked_of_free hfree)
  obtain ⟨hf, hsh, -, hin⟩ := hl.free h1
  refine ⟨hf.objects _, fun hc1 => hn (hin a1 hne hc1), ?_⟩
  change rt1.shapes a1 = _
  rw [hsh a1 hne]
  exact setShape_self _ _ _

theorem Coherence.prepareUpdate (h : Coherence rt) (ha : rt.shapes a = some sh)
    (hsafe : sh.isHashed = true → sh.refCount = 1 → ¬ IsTarget rt a)
    (hr : jsShapePrepareUpdate rt o a sh clone = some (rt', some a1)) :
    Coherence rt' ∧ ∃ sh1, rt'.shapes a1 = some sh1 ∧ sh1.isHashed = false ∧
      sh1.props = sh.props ∧ sh1.deletedCount = sh.deletedCount ∧
      (IsSource rt' a1 → (sh.isHashed = false ∨ sh.refCount = 1) ∧ a1 = a ∧ IsSource rt a) := by
  unfold jsShapePrepareUpdate at hr
  split at hr
  · rename_i hh
    split at hr
    · split at hr
      · cases hr
      · rename_i rt1 a2 hclone
        obtain ⟨hfree, rfl⟩ := jsCloneShape_eq_some hclone
        obtain ⟨rt2, h2, hr⟩ := Option.bind_eq_some_iff.mp hr
        cases hr
        have hne : a1 ≠ a := by
          rintro rfl
          rw [ha] at hfree
          cases hfree
        obtain ⟨hc2, hsh, -, hin⟩ := (h.setShape_fresh hfree).free h2
        refine ⟨hc2.objects _, _, (hsh a1 hne).trans (setShape_self _ _ _), rfl, rfl, rfl, ?_⟩
        intro hsrc
        have hc := hin a1 hne (.inl hsrc)
        exact absurd hc (not_inCache_setShape (h.not_inCache_of_free hfree))
    · rename_i href
      obtain ⟨rt1, h1, hr⟩ := Option.bind_eq_some_iff.mp hr
      cases hr
      have hone : sh.refCount = 1 := not_not.mp href
      obtain ⟨hc1, hu1, hs1, ht1, -⟩ := h.unlink ha h1
      have htgt : ¬ IsTarget rt1 a := by
        unfold IsTarget
        rw [hs1, ht1]
        exact hsafe hh hone
      refine ⟨hc1.setShape hu1 htgt (fun _ => rfl), _, setShape_self _ _ _, rfl, rfl, rfl, ?_⟩
      rintro ⟨k, t, hk, hs⟩
      rw [setShape_transitions, ht1] at hk
      exact ⟨.inr hone, rfl, k, t, hk, hs⟩
  · rename_i hh
    cases hr
    have hf : sh.isHashed = false := by simpa using hh
    exact ⟨h, sh, ha, hf, rfl, rfl, fun hs => ⟨.inl hf, rfl, hs⟩⟩

theorem Coherence.prepareUpdate_failed (h : Coherence rt)
    (hr : jsShapePrepareUpdate rt o a sh clone = some (rt', none)) : Coherence rt' := by
  unfold jsShapePrepareUpdate at hr
  split at hr
  · split at hr
    · split at hr
      · cases hr
        exact h
      · obtain ⟨rt2, -, hr⟩ := Option.bind_eq_some_iff.mp hr
        cases hr
    · obtain ⟨rt1, -, hr⟩ := Option.bind_eq_some_iff.mp hr
      cases hr
  · cases hr

theorem Coherence.setUnhashed (h : Coherence rt) (ha : rt.shapes a = some sh)
    (hu : sh.isHashed = false) (hu' : sh'.isHashed = false) : Coherence (rt.setShape a sh') :=
  h.setShape (h.unlinked_of_unhashed ha hu) (h.not_isTarget ha hu) (fun _ => hu')

theorem Coherence.compact (h : Coherence rt) (ha : rt.shapes a = some sh)
    (hu : sh.isHashed = false) (hs : ¬ IsSource rt a) :
    Coherence (compactProperties rt o a sh dest) := by
  have hc : ¬ InCache rt a := by
    rintro (hsrc | htgt)
    · exact hs hsrc
    · exact h.not_isTarget ha hu htgt
  unfold compactProperties
  split
  · split
    · rename_i d hd
      have hdrop := h.dropShape (h.unlinked_of_unhashed ha hu) hc
      have hnone : (rt.dropShape a).shapes d = none := by
        rw [dropShape_of_ne _ _ _ hd.1]
        simpa [Runtime.canAllocate] using hd.2
      exact (hdrop.setShape_fresh hnone).objects _
    · exact h
  · exact h

theorem Coherence.growHash (h : Coherence rt) (grow : Bool) :
    Coherence (growShapeHash rt grow) := by
  unfold growShapeHash
  split
  · exact h.resize _
  · exact h

theorem Coherence.newShape {proto : Option Nat} {grow : Bool} (h : Coherence rt)
    (hr : jsNewShape rt proto grow dest = some (rt', a)) : Coherence rt' := by
  have hg := h.growHash grow
  unfold jsNewShape at hr
  simp only at hr
  split at hr
  · split at hr
    · rename_i b hfree
      cases hr
      have hnone := Option.isNone_iff_eq_none.mp hfree
      have hset : Coherence ((growShapeHash rt grow).setShape a
          (newShapeNohash proto (shapeInitialHash proto))) := hg.setShape_fresh hnone
      exact hset.link (setShape_self _ _ _) rfl (hg.unlinked_of_free hnone)
    · cases hr
  · cases hr

/-- A step that leaves every shape of the cache as it is: one in the cache gets no property in
place and does not move, and a target is not taken out of the hash table. -/
def TransitionSafe (rt : Runtime) : Op → Prop
  | .addProperty o atom flags _ dest =>
    ∀ a sh, rt.shapeOf o = some a → rt.shapes a = some sh →
      (sh.isHashed = true → sh.refCount = 1 → NoTransition rt a sh atom flags →
        ¬ InCache rt a) ∧
      (sh.isHashed = false → sh.propSize ≤ sh.props.length → dest ≠ some a → ¬ InCache rt a)
  | .deleteProperty o atom _ _ =>
    ∀ a sh i p, rt.shapeOf o = some a → rt.shapes a = some sh →
      findOwnProperty sh atom = some i → sh.props[i]? = some p → jsPropConfigurable p.flags →
      (sh.isHashed = true → sh.refCount = 1 → ¬ IsTarget rt a) ∧
      (sh.isHashed = false ∨ sh.refCount = 1 → 8 ≤ sh.deletedCount + 1 →
        sh.props.length / 2 ≤ sh.deletedCount + 1 → ¬ IsSource rt a)
  | .updateFlags o atom flags _ =>
    ∀ a sh i p, rt.shapeOf o = some a → rt.shapes a = some sh →
      findOwnProperty sh atom = some i → sh.props[i]? = some p → flags ≠ p.flags →
      sh.isHashed = true → sh.refCount = 1 → ¬ IsTarget rt a
  | _ => True

theorem Coherence.newObject {proto : Option Nat} {grow : Bool} (h : Coherence rt)
    (hr : jsNewObjectProto rt proto grow dest = some rt') : Coherence rt' := by
  unfold jsNewObjectProto at hr
  split at hr
  · obtain ⟨sh, hs, hr⟩ := Option.bind_eq_some_iff.mp hr
    cases hr
    exact (h.dup hs).objects _
  · obtain ⟨⟨rt1, a⟩, h1, hr⟩ := Option.bind_eq_some_iff.mp hr
    cases hr
    exact (h.newShape h1).objects _

theorem Coherence.addProperty (h : Coherence rt)
    (hsafe : TransitionSafe rt (.addProperty o atom flags clone dest))
    (hr : addProperty rt o atom flags clone dest = some rt') : Coherence rt' := by
  unfold Objects.addProperty at hr
  obtain ⟨a, ho, hstep⟩ := Option.bind_eq_some_iff.mp hr
  obtain ⟨sh, ha, hadd⟩ := Option.bind_eq_some_iff.mp hstep
  obtain ⟨hin, hmove⟩ := hsafe a sh ho ha
  split at hadd
  · rename_i hh
    rcases hfind : findHashedShapeProp rt a sh atom flags with ⟨r, rt1⟩
    obtain ⟨hc, hs, -, -, hnone⟩ := h.find ha hh hfind
    rw [hfind] at hadd
    cases r with
    | some a1 => exact hc.takeShape hadd
    | none =>
      obtain ⟨rfl, hno⟩ := hnone rfl
      simp only at hadd
      split at hadd
      · split at hadd
        · cases hadd
          exact h
        · rename_i rt2 a1 hclone
          obtain ⟨hfree, rfl⟩ := jsCloneShape_eq_some hclone
          obtain ⟨rt3, h3, hplace⟩ := Option.bind_eq_some_iff.mp hadd
          obtain ⟨hc3, hn3, hs3⟩ := h.takeHashedClone hfree ha hh h3
          exact hc3.inPlace hs3 (.inl hn3) hplace
      · rename_i href
        exact h.inPlace ha (.inl (hin hh (not_not.mp href) hno)) hadd
  · rename_i hh
    have hf : sh.isHashed = false := by simpa using hh
    apply h.inPlace ha _ hadd
    by_cases hc : InCache rt a
    · refine .inr ⟨hf, fun hsize => ?_⟩
      by_contra hd
      exact hmove hf hsize hd hc
    · exact .inl hc

theorem Coherence.deleteProperty (h : Coherence rt)
    (hsafe : TransitionSafe rt (.deleteProperty o atom clone dest))
    (hr : deleteProperty rt o atom clone dest = some rt') : Coherence rt' := by
  unfold Objects.deleteProperty at hr
  obtain ⟨a, ho, hr⟩ := Option.bind_eq_some_iff.mp hr
  obtain ⟨sh, ha, hr⟩ := Option.bind_eq_some_iff.mp hr
  split at hr
  · cases hr
    exact h
  · rename_i i hi
    obtain ⟨p, hp, hr⟩ := Option.bind_eq_some_iff.mp hr
    split at hr
    · rename_i hconf
      obtain ⟨htgt, hsrc⟩ := hsafe a sh i p ho ha hi hp hconf
      split at hr
      · cases hr
      · rename_i hprep
        cases hr
        exact h.prepareUpdate_failed hprep
      · rename_i rt1 a1 hprep
        obtain ⟨hc, sh1, hs1, hu, hprops, hcount, hback⟩ := h.prepareUpdate ha htgt hprep
        obtain ⟨sh2, hs2, hr⟩ := Option.bind_eq_some_iff.mp hr
        rw [hs1] at hs2
        cases hs2
        cases hr
        have hdel : Coherence (rt1.setShape a1 (sh1.deleteAt i)) := hc.setUnhashed hs1 hu hu
        unfold deleteShapeProperty
        split
        · rename_i hmany
          apply hdel.compact (setShape_self _ _ _) hu
          intro hs
          obtain ⟨hwhen, rfl, hs⟩ := hback hs
          simp only [Shape.manyDeleted, Shape.deleteAt, List.length_set, hcount, hprops,
            decide_eq_true_eq] at hmany
          exact hsrc hwhen hmany.1 hmany.2 hs
        · exact hdel
    · cases hr
      exact h

theorem Coherence.updateFlags (h : Coherence rt)
    (hsafe : TransitionSafe rt (.updateFlags o atom flags clone))
    (hr : jsUpdatePropertyFlags rt o atom flags clone = some rt') : Coherence rt' := by
  unfold jsUpdatePropertyFlags at hr
  obtain ⟨a, ho, hr⟩ := Option.bind_eq_some_iff.mp hr
  obtain ⟨sh, ha, hr⟩ := Option.bind_eq_some_iff.mp hr
  split at hr
  · cases hr
    exact h
  · rename_i i hi
    obtain ⟨p, hp, hr⟩ := Option.bind_eq_some_iff.mp hr
    split at hr
    · rename_i hflags
      split at hr
      · cases hr
      · rename_i hprep
        cases hr
        exact h.prepareUpdate_failed hprep
      · rename_i rt1 a1 hprep
        obtain ⟨hc, sh1, hs1, hu, -⟩ := h.prepareUpdate ha (hsafe a sh i p ho ha hi hp hflags) hprep
        obtain ⟨sh2, hs2, hr⟩ := Option.bind_eq_some_iff.mp hr
        rw [hs1] at hs2
        cases hs2
        cases hr
        exact hc.setUnhashed hs1 hu hu
    · cases hr
      exact h

theorem Coherence.apply {op : Op} (h : Coherence rt) (hsafe : TransitionSafe rt op)
    (hr : rt.apply op = some rt') : Coherence rt' := by
  cases op with
  | newObject proto grow a => exact h.newObject hr
  | newObjectFromShape a =>
    unfold Runtime.apply jsNewObjectFromShape at hr
    obtain ⟨sh, ha, hr⟩ := Option.bind_eq_some_iff.mp hr
    split at hr
    · cases hr
      exact (h.dup ha).objects _
    · cases hr
  | addProperty o atom flags clone dest => exact h.addProperty hsafe hr
  | deleteProperty o atom clone dest => exact h.deleteProperty hsafe hr
  | updateFlags o atom flags clone => exact h.updateFlags hsafe hr
  | retain a =>
    obtain ⟨sh, ha, hr⟩ := Option.bind_eq_some_iff.mp hr
    cases hr
    exact h.dup ha
  | release a => exact (h.free hr).1
  | freeObject o =>
    obtain ⟨a, -, hr⟩ := Option.bind_eq_some_iff.mp hr
    exact ((h.objects _).free hr).1

def TransitionsSound (rt : Runtime) : Prop :=
  ∀ a sh atom flags a1, rt.shapes a = some sh → sh.isHashed = true →
    (findHashedShapeProp rt a sh atom flags).1 = some a1 → Extends rt sh atom flags a1

/-- The lookup is sound in every state that steps reach which leave the shapes of the cache as
they are. -/
theorem transitions_sound_of_reach {rt : Runtime}
    (h : Reach Runtime.apply TransitionSafe Runtime.empty rt) : TransitionsSound rt := by
  have hc : Coherence rt := by
    apply h.invariant coherence_empty
    intro rt op rt' hrt hsafe hr
    exact hrt.apply hsafe hr
  intro a sh atom flags a1 ha hh hfind
  rcases hf : findHashedShapeProp rt a sh atom flags with ⟨r, rt'⟩
  obtain ⟨-, -, -, hx, -⟩ := hc.find ha hh hf
  rw [hf] at hfind
  exact hx a1 hfind

/-- Object 1 leaves the empty shape of object 2 for the shape of object 0, through the cache;
then it is freed, and object 0 gets a property in place. -/
def abandonedTarget : List Op :=
  [.newObject none true (some 16), .addProperty 0 1 jsPropCWE none none,
    .newObject none true (some 32), .newObject none true none, .addProperty 1 1 jsPropCWE none none,
    .freeObject 1, .addProperty 0 2 jsPropCWE none none]

def abandonedTargetEnd : Option Runtime := abandonedTarget.foldlM Runtime.apply Runtime.empty

/-- The lookup of the first property on the empty shape gives a shape with both. -/
theorem extended_target_is_still_found :
    ¬ ∀ rt, Reach Runtime.apply (fun _ _ => True) Runtime.empty rt → TransitionsSound rt := by
  intro h
  have hsome : abandonedTargetEnd.isSome = true := by decide +kernel
  obtain ⟨rt, hrt⟩ := Option.isSome_iff_exists.mp hsome
  have hsource : (abandonedTargetEnd.bind fun rt => rt.shapes 32) =
      some (newShapeNohash none (shapeInitialHash none)) := by decide +kernel
  have hfind : (abandonedTargetEnd.bind fun rt =>
      (findHashedShapeProp rt 32 (newShapeNohash none (shapeInitialHash none)) 1 7).1) =
      some 16 := by decide +kernel
  have hlayout : (abandonedTargetEnd.bind fun rt => (rt.shapes 16).map Shape.props) =
      some [⟨1, 7⟩, ⟨2, 7⟩] := by decide +kernel
  rw [hrt] at hsource hfind hlayout
  obtain ⟨sh1, hs1, -, -, hprops⟩ :=
    h rt (Reach.of_foldlM hrt) _ _ _ _ _ hsource rfl hfind
  simp only [Option.bind_some, hs1, Option.map_some, Option.some.injEq] at hlayout
  rw [hlayout] at hprops
  simp [newShapeNohash] at hprops

theorem transitionSafe_of_shared (ho : rt.shapeOf o = some a) (ha : rt.shapes a = some sh)
    (hh : sh.isHashed = true) (hr : sh.refCount ≠ 1) :
    TransitionSafe rt (.addProperty o atom flags clone dest) := by
  intro a' sh' ho' ha'
  rw [ho] at ho'
  cases ho'
  rw [ha] at ha'
  cases ha'
  constructor
  · intro _ hone
    exact absurd hone hr
  · intro hf
    rw [hh] at hf
    cases hf

def sharedExtension (n : Nat) : Runtime :=
  let ops : List Op := [.newObject none true (some 16), .newObject none true none,
    .newObject none true none, .addProperty 0 1 jsPropCWE (some 32) none,
    .addProperty 1 1 jsPropCWE none none]
  ((ops.take n).foldlM Runtime.apply Runtime.empty).getD Runtime.empty

/-- The second object takes the shape of the first and leaves the transition in the cache. -/
theorem shared_extension_is_found :
    (sharedExtension 5).transitions (transitionIndex 16 1 7) = some ⟨16, 32, 1, 7⟩ ∧
      TransitionsSound (sharedExtension 5) := by
  refine ⟨by decide +kernel, transitions_sound_of_reach ?_⟩
  have h3 : Reach Runtime.apply TransitionSafe Runtime.empty (sharedExtension 3) :=
    .step (.step (.step .init trivial (a := .newObject none true (some 16)) rfl) trivial
      (a := .newObject none true none) rfl) trivial (a := .newObject none true none) rfl
  have h4 : Reach Runtime.apply TransitionSafe Runtime.empty (sharedExtension 4) :=
    .step h3 (transitionSafe_of_shared (a := 16) (by decide +kernel) rfl rfl (by decide +kernel))
      (a := .addProperty 0 1 7 (some 32) none) rfl
  exact .step h4 (transitionSafe_of_shared (a := 16) (by decide +kernel) rfl rfl
    (by decide +kernel)) (a := .addProperty 1 1 7 none none) rfl

end TurboJS.Objects
