import TurboJS.Runtime.Roots

namespace TurboJS.Runtime
open IR StackMaps Foundation

/-! Every retain is undone once, by the owner that holds it. -/

def RootEvent.retain? : RootEvent → Option Root
  | .retained root => some root
  | .released _ => none

def RootEvent.release? : RootEvent → Option Root
  | .retained _ => none
  | .released root => some root

def retainedBy (events : List RootEvent) : List Root := events.filterMap RootEvent.retain?

def releasedBy (events : List RootEvent) : List Root := events.filterMap RootEvent.release?

@[simp] theorem retainedBy_nil : retainedBy [] = [] := rfl

@[simp] theorem releasedBy_nil : releasedBy [] = [] := rfl

@[simp] theorem retainedBy_append (a b : List RootEvent) :
    retainedBy (a ++ b) = retainedBy a ++ retainedBy b := List.filterMap_append

@[simp] theorem releasedBy_append (a b : List RootEvent) :
    releasedBy (a ++ b) = releasedBy a ++ releasedBy b := List.filterMap_append

@[simp] theorem retainedBy_retained (roots : List Root) :
    retainedBy (roots.map .retained) = roots := by
  induction roots with
  | nil => rfl
  | cons r rest ih => exact congrArg (r :: ·) ih

@[simp] theorem releasedBy_retained (roots : List Root) :
    releasedBy (roots.map .retained) = [] := by
  induction roots with
  | nil => rfl
  | cons r rest ih => exact ih

@[simp] theorem retainedBy_released (roots : List Root) :
    retainedBy (roots.map .released) = [] := by
  induction roots with
  | nil => rfl
  | cons r rest ih => exact ih

@[simp] theorem releasedBy_released (roots : List Root) :
    releasedBy (roots.map .released) = roots := by
  induction roots with
  | nil => rfl
  | cons r rest ih => exact congrArg (r :: ·) ih

def cellRoots : Option OwnerCell → List Root
  | none => []
  | some c => c.owner.root.toList

def RootState.holders (s : RootState) : List Root :=
  s.cells.flatMap cellRoots ++ s.frames.flatMap BoxedDeoptFrame.roots

inductive OwnerPlace where
  | cell (i : Nat)
  | frame (i : Nat)
  deriving DecidableEq, Repr

def RootState.heldAt (s : RootState) : OwnerPlace → List Root
  | .cell i => (s.cells[i]?.map cellRoots).getD []
  | .frame i => (s.frames[i]?.map BoxedDeoptFrame.roots).getD []

def HeldAcross (s s' : RootState) (pointer : Word) : Prop :=
  ∃ place, (∃ r ∈ s.heldAt place, r.pointer = pointer) ∧
    ∃ r ∈ s'.heldAt place, r.pointer = pointer

def RootRun.Balanced (r : RootRun) : Prop :=
  (retainedBy r.log).Perm (releasedBy r.log ++ r.state.holders)

def pointerCount (roots : List Root) (pointer : Word) : Nat :=
  roots.countP fun r => r.pointer == pointer

/-- The next operation leaves the retains balanced, and while it goes on no pointer that some
owner keeps has all its retains undone. -/
def RootRun.StaysBalanced (r : RootRun) (op : RootOp) : Prop :=
  ∃ state events, r.state.step op = some (state, events) ∧
    RootRun.Balanced ⟨state, r.log ++ events⟩ ∧
    ∀ pointer, HeldAcross r.state state pointer → ∀ before, before <+: events →
      pointerCount (releasedBy (r.log ++ before)) pointer <
        pointerCount (retainedBy (r.log ++ before)) pointer

def RootState.lost (s : RootState) : RootOp → List Root
  | .initReference i _ rooting _ =>
    if rooting.any fun r => r.retain && r.release then
      cellRoots (cellAt s.cells .callableReference i)
    else []
  | .cloneSite destination source _ =>
    if (cellAt s.cells .callSite source).isSome then
      cellRoots (cellAt s.cells .callSite destination)
    else []
  | .boxFrame i _ _ rooting _ _ _ =>
    if rooting.any fun r => r.retain != r.release then [] else s.heldAt (.frame i)
  | _ => []

def RootState.Masked (s : RootState) : RootOp → Prop
  | .boxFrame i registers locals rooting _ _ allocated =>
    s.frames[i]?.isSome = true → allocated = true →
      (rooting.any fun r => r.retain != r.release) = false →
        registers.count ≤ 64 ∧ locals.count ≤ 64
  | _ => True

def RootState.Reroots (s : RootState) : RootOp → Prop
  | .setEnvironment i environment rooting answer =>
    environment ≠ 0 ∧ (rooting.any fun r => r.retain && r.release) = true ∧
      pointerCount (cellRoots (cellAt s.cells .callSite i)) answer = 1 ∧
      pointerCount s.holders answer = 1
  | _ => False

/-- No root is overwritten, no slot is boxed that has no bit, and no environment is given again to
the only owner that it has. -/
def RootState.KeepsRoots (s : RootState) (op : RootOp) : Prop :=
  s.lost op = [] ∧ s.Masked op ∧ ¬ s.Reroots op

def Moved (before after lost : List Root) (events : List RootEvent) : Prop :=
  ∀ q : Root → Bool, after.countP q + (releasedBy events).countP q + lost.countP q =
    before.countP q + (retainedBy events).countP q

theorem Moved.refl (held : List Root) : Moved held held [] [] := by
  intro q
  simp

theorem Moved.trans {a b c lost lost' : List Root} {events events' : List RootEvent}
    (h : Moved a b lost events) (h' : Moved b c lost' events') :
    Moved a c (lost ++ lost') (events ++ events') := by
  intro q
  have h1 := h q
  have h2 := h' q
  simp only [releasedBy_append, retainedBy_append, List.countP_append]
  omega

theorem Moved.frame {a b lost : List Root} {events : List RootEvent} (h : Moved a b lost events)
    (before after : List Root) :
    Moved (before ++ a ++ after) (before ++ b ++ after) lost events := by
  intro q
  have := h q
  simp only [List.countP_append]
  omega

def RetainsFirst (events : List RootEvent) : Prop :=
  ∃ retains releases : List Root,
    events = retains.map .retained ++ releases.map .released

theorem RetainsFirst.nil : RetainsFirst [] := ⟨[], [], rfl⟩

theorem RetainsFirst.retained (roots : List Root) : RetainsFirst (roots.map .retained) :=
  ⟨roots, [], by simp⟩

theorem RetainsFirst.released (roots : List Root) : RetainsFirst (roots.map .released) :=
  ⟨[], roots, by simp⟩

theorem RetainsFirst.prefix {events before : List RootEvent} (h : RetainsFirst events)
    (hb : before <+: events) (q : Root → Bool) :
    (releasedBy before).countP q = 0 ∨
      (retainedBy before).countP q = (retainedBy events).countP q ∧
        (releasedBy before).countP q ≤ (releasedBy events).countP q := by
  obtain ⟨retains, releases, rfl⟩ := h
  have hmap := List.prefix_append (retains.map RootEvent.retained)
    (releases.map RootEvent.released)
  rcases List.prefix_or_prefix_of_prefix hb hmap with hr | ⟨rest, rfl⟩
  · left
    obtain ⟨taken, -, rfl⟩ := List.prefix_map_iff.mp hr
    simp
  · right
    obtain ⟨taken, htaken, rfl⟩ := List.prefix_map_iff.mp ((List.prefix_append_right_inj _).mp hb)
    simp only [retainedBy_append, retainedBy_retained, retainedBy_released, releasedBy_append,
      releasedBy_retained, releasedBy_released, List.nil_append, List.append_nil, true_and]
    exact htaken.sublist.countP_le

theorem ClosureOwner.destroy_fst (o : ClosureOwner) : o.destroy.1 = {} := by
  unfold ClosureOwner.destroy
  split <;> rfl

theorem ClosureOwner.destroy_snd (o : ClosureOwner) :
    o.destroy.2 = o.root.toList.map .released := by
  unfold ClosureOwner.destroy ClosureOwner.root
  split <;> rfl

theorem ClosureOwner.root_empty : ({} : ClosureOwner).root = none := rfl

theorem ClosureOwner.destroy_moved (o : ClosureOwner) :
    Moved o.root.toList o.destroy.1.root.toList [] o.destroy.2 := by
  intro q
  rw [o.destroy_fst, o.destroy_snd, ClosureOwner.root_empty]
  simp

def ClosureOwner.Valid (o : ClosureOwner) : Prop :=
  o.ownsEnvironment = true → o.environmentRooting.release = true

theorem Moved.retained (before lost : List Root) (root : Root)
    (h : before.Perm lost) : Moved before [root] lost [.retained root] := by
  intro q
  have hc := h.countP_eq q
  have hr : retainedBy [.retained root] = [root] := rfl
  have hn : releasedBy [.retained root] = [] := rfl
  rw [hr, hn, List.countP_nil]
  omega

theorem Moved.overwritten (held : List Root) : Moved held [] held [] := by
  intro q
  simp

theorem ClosureOwner.root_owned {rooting : RootingHooks} {pointer : Word} (hp : pointer ≠ 0)
    (hr : rooting.release = true) :
    (⟨pointer, rooting, true⟩ : ClosureOwner).root = some ⟨rooting, pointer⟩ := by
  simp only [ClosureOwner.root, Bool.true_and, hr, Bool.and_true]
  exact if_pos (bne_iff_ne.mpr hp)

theorem ClosureOwner.root_unowned {o : ClosureOwner} (h : o.ownsEnvironment = false) :
    o.root = none := by
  simp [ClosureOwner.root, h]

theorem callableReferenceInitRooted_moved (o : ClosureOwner) (environment : Word)
    (rooting : Option RootingHooks) (answer : Word) :
    Moved o.root.toList (callableReferenceInitRooted o environment rooting answer).2.1.root.toList
      (if rooting.any fun r => r.retain && r.release then o.root.toList else [])
      (callableReferenceInitRooted o environment rooting answer).2.2 := by
  unfold callableReferenceInitRooted
  cases rooting with
  | none => exact .refl _
  | some r =>
    simp only [Option.any_some]
    by_cases hr : r.retain = true ∧ r.release = true
    · obtain ⟨hr1, hr2⟩ := hr
      simp only [hr1, hr2, Bool.not_true, Bool.or_self, Bool.false_eq_true, if_false,
        Bool.and_self, if_true]
      by_cases he : environment = 0
      · rw [if_neg (not_not_intro he)]
        exact .overwritten _
      · rw [if_pos he]
        by_cases ha : answer = 0
        · rw [if_pos ha]
          exact .overwritten _
        · rw [if_neg ha, ClosureOwner.root_owned ha hr2]
          exact .retained _ _ _ (.refl _)
    · have hn : (!r.retain || !r.release) = true := by
        cases h1 : r.retain <;> cases h2 : r.release <;> simp_all
      have ha : (r.retain && r.release) = false := by
        cases h1 : r.retain <;> cases h2 : r.release <;> simp_all
      simp only [hn, ha, if_true, Bool.false_eq_true, if_false]
      exact .refl _

theorem ClosureOwner.destroy_root (o : ClosureOwner) : o.destroy.1.root = none := by
  rw [o.destroy_fst, root_empty]

theorem setClosureEnvironment_cases (site : ClosureOwner) (environment : Word)
    (rooting : Option RootingHooks) (answer : Word) :
    ((setClosureEnvironment site environment rooting answer).2.1.ownsEnvironment = false ∧
      (setClosureEnvironment site environment rooting answer).2.2 = site.destroy.2 ∧
      ¬ (environment ≠ 0 ∧ (rooting.any fun r => r.retain && r.release) = true ∧ answer ≠ 0)) ∨
    (environment ≠ 0 ∧ answer ≠ 0 ∧ ∃ r, rooting = some r ∧ r.retain = true ∧ r.release = true ∧
      (setClosureEnvironment site environment rooting answer).2 =
        (⟨answer, r, true⟩, site.destroy.2 ++ ([.retained ⟨r, answer⟩] : List RootEvent))) := by
  obtain ⟨released, hd⟩ : ∃ released, site.destroy = ({}, released) :=
    ⟨_, Prod.ext site.destroy_fst rfl⟩
  unfold setClosureEnvironment
  rw [hd]
  cases rooting with
  | none => exact .inl ⟨rfl, rfl, fun h => nomatch h.2.1⟩
  | some r =>
    by_cases he : environment = 0
    · simp only [if_neg (not_not_intro he)]
      exact .inl ⟨trivial, trivial, fun h => h.1 he⟩
    · simp only [if_pos he]
      by_cases hr : r.retain = true ∧ r.release = true
      · obtain ⟨hr1, hr2⟩ := hr
        simp only [hr1, hr2, Bool.not_true, Bool.or_self, Bool.false_eq_true, if_false]
        by_cases ha : answer = 0
        · simp only [if_pos ha]
          exact .inl ⟨trivial, trivial, fun h => h.2.2 ha⟩
        · simp only [if_neg ha]
          exact .inr ⟨he, ha, r, rfl, hr1, hr2, rfl⟩
      · have hn : (!r.retain || !r.release) = true := by
          cases h1 : r.retain <;> cases h2 : r.release <;> simp_all
        simp only [if_pos hn]
        refine .inl ⟨trivial, trivial, fun h => hr ?_⟩
        simpa using h.2.1

theorem setClosureEnvironment_moved (site : ClosureOwner) (environment : Word)
    (rooting : Option RootingHooks) (answer : Word) :
    Moved site.root.toList
      (setClosureEnvironment site environment rooting answer).2.1.root.toList []
      (setClosureEnvironment site environment rooting answer).2.2 := by
  rcases setClosureEnvironment_cases site environment rooting answer with
    ⟨hroot, hevents, -⟩ | ⟨-, ha, r, -, -, hr, heq⟩
  · rw [ClosureOwner.root_unowned hroot, hevents]
    have hd := site.destroy_moved
    rwa [site.destroy_root] at hd
  · rw [heq, ClosureOwner.root_owned ha hr]
    have hd := site.destroy_moved
    rw [site.destroy_root] at hd
    exact hd.trans (.retained [] [] _ (.refl _))

theorem cloneClosure_moved {source : ClosureOwner} (hv : source.Valid) (site : ClosureOwner)
    (answer : Word) :
    Moved site.root.toList (cloneClosure source answer).2.1.root.toList site.root.toList
      (cloneClosure source answer).2.2 := by
  unfold cloneClosure
  by_cases hs : source.closureEnvironment ≠ 0 ∧ source.ownsEnvironment = true
  · rw [if_pos hs]
    by_cases ha : answer = 0
    · rw [if_pos ha]
      exact .overwritten _
    · rw [if_neg ha]
      simp only [ClosureOwner.root_owned ha (hv hs.2)]
      exact .retained _ _ _ (.refl _)
  · rw [if_neg hs]
    exact .overwritten _

theorem cloneToItself_moved (site : ClosureOwner) :
    Moved site.root.toList (cloneToItself site).2.1.root.toList site.root.toList
      (cloneToItself site).2.2 := .overwritten _

theorem and_slotBit {i : Nat} (hi : i < 64) (m : Word) :
    m &&& slotBit i ≠ 0 ↔ m.getLsbD i = true := by
  have hbit : slotBit i = BitVec.twoPow 64 i := (BitVec.twoPow_eq 64 i).symm
  rw [hbit, BitVec.and_twoPow]
  cases hm : m.getLsbD i
  · simp
  · simp only [if_true, iff_true]
    intro h
    have := congrArg (BitVec.getLsbD · i) h
    simp [hi] at this

theorem getLsbD_or_slotBit {i : Nat} (hi : i < 64) (m : Word) (j : Nat) :
    (m ||| slotBit i).getLsbD j = (m.getLsbD j || decide (i = j)) := by
  have hbit : slotBit i = BitVec.twoPow 64 i := (BitVec.twoPow_eq 64 i).symm
  rw [hbit, BitVec.getLsbD_or, BitVec.getLsbD_twoPow]
  simp [hi]

theorem rootsFrom_append (rooting : RootingHooks) (m : Word) (a b : List BoxedValue) (i : Nat) :
    rootsFrom rooting m (a ++ b) i =
      rootsFrom rooting m a i ++ rootsFrom rooting m b (i + a.length) := by
  induction a generalizing i with
  | nil => rfl
  | cons v a ih =>
    have harith : i + 1 + a.length = i + (v :: a).length := by
      rw [List.length_cons]
      omega
    simp only [List.cons_append, rootsFrom, ih, harith]
    split <;> simp

theorem rootsFrom_congr (rooting : RootingHooks) {m m' : Word} (a : List BoxedValue) (i : Nat)
    (hi : i + a.length ≤ 64)
    (h : ∀ j, i ≤ j → j < i + a.length → m.getLsbD j = m'.getLsbD j) :
    rootsFrom rooting m a i = rootsFrom rooting m' a i := by
  induction a generalizing i with
  | nil => rfl
  | cons v a ih =>
    rw [List.length_cons] at hi h
    have hbit : m &&& slotBit i ≠ 0 ↔ m' &&& slotBit i ≠ 0 := by
      rw [and_slotBit (by omega), and_slotBit (by omega), h i (Nat.le_refl i) (by omega)]
    have hrest := ih (i + 1) (by omega) fun j h1 h2 => h j (by omega) (by omega)
    simp only [rootsFrom, hbit, hrest]

theorem rootsFrom_clear (rooting : RootingHooks) {m : Word} (a : List BoxedValue) (i : Nat)
    (hi : i + a.length ≤ 64) (h : ∀ j, i ≤ j → m.getLsbD j = false) :
    rootsFrom rooting m a i = [] := by
  induction a generalizing i with
  | nil => rfl
  | cons v a ih =>
    rw [List.length_cons] at hi
    have hbit : ¬ m &&& slotBit i ≠ 0 := by
      rw [and_slotBit (by omega), h i (Nat.le_refl i)]
      exact Bool.false_ne_true
    rw [rootsFrom, if_neg hbit]
    exact ih (i + 1) (by omega) fun j hj => h j (by omega)

theorem boxRooted_cases (value : Word) (kind : ValueKind) (rooting : Option RootingHooks)
    (answer : Word) :
    (∃ v, boxRooted value kind rooting answer = (v, false, [])) ∨
      ∃ r, rooting = some r ∧ r.release = true ∧
        boxRooted value kind rooting answer =
          (.heapReference answer, true, [.retained ⟨r, answer⟩]) := by
  unfold boxRooted
  cases kind with
  | heapReference =>
    by_cases hv : value = 0
    · exact .inl ⟨_, if_pos hv⟩
    · simp only [if_neg hv]
      cases rooting with
      | none => exact .inl ⟨_, rfl⟩
      | some r =>
        by_cases hr : (r.retain && r.release) = true
        · simp only [if_pos hr]
          by_cases ha : answer = 0
          · exact .inl ⟨_, if_pos ha⟩
          · exact .inr ⟨r, rfl, (Bool.and_eq_true_iff.mp hr).2, if_neg ha⟩
        · exact .inl ⟨_, if_neg hr⟩
  | _ => exact .inl ⟨_, rfl⟩

/-- The mask that the boxing of an array ends with stands for the references that it retained. -/
theorem boxFrom_roots (slots : NativeSlots) (rooting : Option RootingHooks)
    (answers : Nat → Word) (left : Nat) (done : List BoxedValue) (m : Word)
    (events : List RootEvent) (hlen : done.length + left ≤ 64)
    (hm : ∀ j, done.length ≤ j → m.getLsbD j = false) :
    ∃ boxed roots, boxFrom slots rooting answers left done.length
        (⟨done ++ List.replicate left .undefined, m⟩, events) =
        (boxed, events ++ roots.map .retained) ∧
      rootsFrom (rooting.getD {}) boxed.referenceMask boxed.values 0 =
        rootsFrom (rooting.getD {}) m done 0 ++ roots ∧
      ((rooting.getD {}).release = false → roots = []) := by
  induction left generalizing done m events with
  | zero =>
    refine ⟨⟨done, m⟩, [], ?_, ?_, fun _ => rfl⟩
    · simp [boxFrom]
    · simp
  | succ left ih =>
    have hset (v : BoxedValue) :
        (done ++ List.replicate (left + 1) BoxedValue.undefined).set done.length v =
          (done ++ [v]) ++ List.replicate left .undefined := by
      rw [List.replicate_succ, List.set_append_right _ _ (Nat.le_refl _), Nat.sub_self,
        List.set_cons_zero, List.append_assoc, List.singleton_append]
    have hsnoc (v : BoxedValue) : (done ++ [v]).length = done.length + 1 := by
      rw [List.length_append, List.length_singleton]
    -- a slot that gets no root: the mask stays
    have hplain (v : BoxedValue) :
        ∃ boxed roots, boxFrom slots rooting answers left (done.length + 1)
            (⟨(done ++ [v]) ++ List.replicate left .undefined, m⟩, events) =
            (boxed, events ++ roots.map .retained) ∧
          rootsFrom (rooting.getD {}) boxed.referenceMask boxed.values 0 =
            rootsFrom (rooting.getD {}) m done 0 ++ roots ∧
          ((rooting.getD {}).release = false → roots = []) := by
      have hrec := ih (done ++ [v]) m events
        (by rw [hsnoc]; omega) (fun j hj => hm j (by rw [hsnoc] at hj; omega))
      rw [hsnoc] at hrec
      obtain ⟨boxed, roots, hbox, hroots, hnone⟩ := hrec
      refine ⟨boxed, roots, hbox, ?_, hnone⟩
      rw [hroots, rootsFrom_append, rootsFrom_clear _ [v] _ (by simp; omega)
        (fun j hj => hm j (by omega)), List.append_nil]
    unfold boxFrom
    by_cases hmat : slots.materialized &&& slotBit done.length ≠ 0
    · rw [if_pos hmat]
      rcases boxRooted_cases (slots.values done.length) (slots.kinds done.length) rooting
        (answers done.length) with ⟨v, hv⟩ | ⟨r, rfl, hr, hv⟩
      · simp only [hv, Bool.false_eq_true, if_false, List.append_nil, hset]
        exact hplain v
      · simp only [hv, if_true, hset]
        have hrec := ih (done ++ ([.heapReference (answers done.length)] : List BoxedValue))
          (m ||| slotBit done.length) (events ++
            ([.retained ⟨r, answers done.length⟩] : List RootEvent))
          (by rw [hsnoc]; omega) (fun j hj => by
            rw [hsnoc] at hj
            rw [getLsbD_or_slotBit (by omega), hm j (by omega)]
            exact decide_eq_false (by omega))
        rw [hsnoc] at hrec
        obtain ⟨boxed, roots, hbox, hroots, hnone⟩ := hrec
        refine ⟨boxed, ⟨r, answers done.length⟩ :: roots, ?_, ?_, ?_⟩
        · rw [hbox]
          simp
        · have hsame : rootsFrom r (m ||| slotBit done.length) done 0 = rootsFrom r m done 0 := by
            refine rootsFrom_congr r done 0 (by omega) fun j _ hj => ?_
            rw [getLsbD_or_slotBit (by omega), decide_eq_false (by omega), Bool.or_false]
          have hbit : (m ||| slotBit done.length) &&& slotBit done.length ≠ 0 := by
            rw [and_slotBit (by omega), getLsbD_or_slotBit (by omega)]
            simp
          rw [hroots, rootsFrom_append]
          simp only [Option.getD_some, hsame, Nat.zero_add, rootsFrom, if_pos hbit, unionBits,
            List.append_assoc, List.singleton_append]
        · intro h
          rw [Option.getD_some, hr] at h
          cases h
    · rw [if_neg hmat]
      have hsplit : done ++ List.replicate (left + 1) BoxedValue.undefined =
          (done ++ ([.undefined] : List BoxedValue)) ++ List.replicate left .undefined := by
        rw [List.replicate_succ, List.append_assoc, List.singleton_append]
      rw [hsplit]
      exact hplain .undefined

theorem boxDeoptFrameRooted_cases {frame boxed : BoxedDeoptFrame} {registers locals : NativeSlots}
    {rooting : Option RootingHooks} {registerAnswers localAnswers : Nat → Word} {allocated : Bool}
    {status : Status} {events : List RootEvent}
    (h : boxDeoptFrameRooted frame registers locals rooting registerAnswers localAnswers allocated =
      some (status, boxed, events)) :
    (rooting.any fun r => r.retain != r.release) = true ∧ boxed = frame ∧ events = [] ∨
    (rooting.any fun r => r.retain != r.release) = false ∧ events = boxed.roots.map .retained := by
  unfold boxDeoptFrameRooted at h
  by_cases hr : (rooting.any fun r => r.retain != r.release) = true
  · rw [if_pos hr] at h
    cases h
    exact .inl ⟨hr, rfl, rfl⟩
  · rw [if_neg hr] at h
    refine .inr ⟨Bool.eq_false_iff.mpr hr, ?_⟩
    cases allocated with
    | false =>
      simp only [Bool.not_false, if_true, Option.some.injEq, Prod.mk.injEq] at h
      obtain ⟨-, rfl, rfl⟩ := h
      simp [BoxedDeoptFrame.destroy, BoxedDeoptFrame.roots, rootsFrom]
    | true =>
      simp only [Bool.not_true, Bool.false_eq_true, if_false] at h
      by_cases hc : 64 < registers.count ∨ 64 < locals.count
      · rw [if_pos hc] at h
        cases h
      · rw [if_neg hc] at h
        obtain ⟨boxedRegisters, roots, hbox, hroots, hnone⟩ :=
          boxFrom_roots registers rooting registerAnswers registers.count [] 0 []
            (by simp; omega) (by simp)
        obtain ⟨boxedLocals, roots', hbox', hroots', hnone'⟩ :=
          boxFrom_roots locals rooting localAnswers locals.count [] 0
            (roots.map .retained) (by simp; omega) (by simp)
        simp only [List.length_nil, List.nil_append, rootsFrom] at hbox hbox' hroots hroots'
        simp only [hbox, hbox', Option.some.injEq, Prod.mk.injEq] at h
        obtain ⟨-, rfl, rfl⟩ := h
        unfold BoxedDeoptFrame.roots
        simp only [hroots, hroots']
        split
        · rw [List.map_append]
        · rename_i hrel
          rw [hnone (Bool.eq_false_iff.mpr hrel), hnone' (Bool.eq_false_iff.mpr hrel)]
          rfl

theorem boxDeoptFrameRooted_moved {frame boxed : BoxedDeoptFrame} {registers locals : NativeSlots}
    {rooting : Option RootingHooks} {registerAnswers localAnswers : Nat → Word} {allocated : Bool}
    {status : Status} {events : List RootEvent}
    (h : boxDeoptFrameRooted frame registers locals rooting registerAnswers localAnswers allocated =
      some (status, boxed, events)) :
    Moved frame.roots boxed.roots
      (if rooting.any fun r => r.retain != r.release then [] else frame.roots) events := by
  rcases boxDeoptFrameRooted_cases h with ⟨hr, rfl, rfl⟩ | ⟨hr, rfl⟩
  · rw [if_pos hr]
    exact .refl _
  · rw [hr]
    intro q
    simp
    omega

theorem boxDeoptFrameRooted_isSome (frame : BoxedDeoptFrame) (registers locals : NativeSlots)
    (rooting : Option RootingHooks) (registerAnswers localAnswers : Nat → Word)
    (allocated : Bool) :
    (boxDeoptFrameRooted frame registers locals rooting registerAnswers localAnswers
      allocated).isSome = true ↔
    (allocated = true → (rooting.any fun r => r.retain != r.release) = false →
      registers.count ≤ 64 ∧ locals.count ≤ 64) := by
  unfold boxDeoptFrameRooted
  by_cases hr : (rooting.any fun r => r.retain != r.release) = true
  · simp [hr]
  · rw [if_neg hr]
    cases allocated with
    | false => simp
    | true =>
      by_cases hc : 64 < registers.count ∨ 64 < locals.count
      · simp [hc, hr]
        omega
      · simp [hc, hr]
        omega

theorem flatMap_set {α β : Type*} (f : α → List β) {l : List α} {i : Nat} {x : α}
    (h : l[i]? = some x) :
    ∃ a b, l.flatMap f = a ++ f x ++ b ∧ ∀ y, (l.set i y).flatMap f = a ++ f y ++ b := by
  obtain ⟨hi, hx⟩ := List.getElem?_eq_some_iff.mp h
  refine ⟨(l.take i).flatMap f, (l.drop (i + 1)).flatMap f, ?_, fun y => ?_⟩
  · conv_lhs => rw [← List.take_append_drop i l, List.drop_eq_getElem_cons hi, hx]
    rw [List.flatMap_append, List.flatMap_cons, List.append_assoc]
  · rw [List.set_eq_take_append_cons_drop, if_pos hi, List.flatMap_append, List.flatMap_cons,
      List.append_assoc]

theorem cellAt_some {cells : List (Option OwnerCell)} {kind : OwnerKind} {i : Nat}
    {c : OwnerCell} (h : cellAt cells kind i = some c) : cells[i]? = some (some c) := by
  obtain ⟨hj, -⟩ := Option.filter_eq_some_iff.mp h
  cases hc : cells[i]? with
  | none =>
    rw [hc] at hj
    cases hj
  | some cell =>
    rw [hc, Option.join_some] at hj
    rw [hj]

def CellsValid (cells : List (Option OwnerCell)) : Prop :=
  ∀ c, some c ∈ cells → c.owner.Valid

theorem CellsValid.cellAt {cells : List (Option OwnerCell)} (hv : CellsValid cells)
    {kind : OwnerKind} {i : Nat} {c : OwnerCell} (h : cellAt cells kind i = some c) :
    c.owner.Valid := hv c (List.mem_of_getElem? (cellAt_some h))

theorem CellsValid.snoc {cells : List (Option OwnerCell)} (hv : CellsValid cells) {c : OwnerCell}
    (hc : c.owner.Valid) : CellsValid (cells ++ [some c]) := by
  intro c' hc'
  rcases List.mem_append.mp hc' with h | h
  · exact hv c' h
  · obtain rfl := Option.some.inj (List.mem_singleton.mp h)
    exact hc

theorem ClosureOwner.valid_unowned {o : ClosureOwner} (h : o.ownsEnvironment = false) :
    o.Valid := fun ho => absurd ho (by rw [h]; exact Bool.false_ne_true)

theorem setClosureEnvironment_valid (site : ClosureOwner) (environment : Word)
    (rooting : Option RootingHooks) (answer : Word) :
    (setClosureEnvironment site environment rooting answer).2.1.Valid := by
  rcases setClosureEnvironment_cases site environment rooting answer with
    ⟨h, -, -⟩ | ⟨-, -, r, -, -, hr, heq⟩
  · exact ClosureOwner.valid_unowned h
  · rw [heq]
    exact fun _ => hr

theorem callableReferenceInitRooted_valid {o : ClosureOwner} (hv : o.Valid) (environment : Word)
    (rooting : Option RootingHooks) (answer : Word) :
    (callableReferenceInitRooted o environment rooting answer).2.1.Valid := by
  unfold callableReferenceInitRooted
  cases rooting with
  | none => exact hv
  | some r =>
    by_cases hr : (!r.retain || !r.release) = true
    · simp only [if_pos hr]
      exact hv
    · simp only [if_neg hr]
      have hrel : r.release = true := by
        cases h : r.release
        · simp [h] at hr
        · rfl
      split
      · split
        · exact ClosureOwner.valid_unowned rfl
        · exact fun _ => hrel
      · exact ClosureOwner.valid_unowned rfl

theorem cloneClosure_valid {source : ClosureOwner} (hv : source.Valid) (answer : Word) :
    (cloneClosure source answer).2.1.Valid := by
  unfold cloneClosure
  by_cases hs : source.closureEnvironment ≠ 0 ∧ source.ownsEnvironment = true
  · rw [if_pos hs]
    split
    · exact ClosureOwner.valid_unowned rfl
    · exact fun _ => hv hs.2
  · rw [if_neg hs]
    exact ClosureOwner.valid_unowned rfl

theorem forgetOwned_roots (function : Nat) (cells : List (Option OwnerCell)) :
    (forgetOwned function cells).flatMap cellRoots = cells.flatMap cellRoots := by
  unfold forgetOwned
  rw [List.flatMap_map]
  refine List.flatMap_congr fun cell _ => ?_
  cases cell with
  | none => rfl
  | some c =>
    simp only [Option.map_some]
    split <;> rfl

theorem forgetOwned_valid {cells : List (Option OwnerCell)} (hv : CellsValid cells)
    (function : Nat) : CellsValid (forgetOwned function cells) := by
  intro c hc
  obtain ⟨cell, hmem, heq⟩ := List.mem_map.mp hc
  cases cell with
  | none => cases heq
  | some c' =>
    simp only [Option.map_some, Option.some.injEq] at heq
    have hv' := hv c' hmem
    split at heq <;>
    · subst heq
      exact hv'

theorem destroyOwned_moved (function : Nat) (kind : OwnerKind) (cells : List (Option OwnerCell)) :
    Moved (cells.flatMap cellRoots) ((destroyOwned function kind cells).1.flatMap cellRoots) []
      (destroyOwned function kind cells).2 := by
  induction cells with
  | nil => exact .refl _
  | cons cell rest ih =>
    cases cell with
    | none => exact ih
    | some c =>
      unfold destroyOwned
      by_cases hc : c.function = some function ∧ c.kind = kind
      · simp only [if_pos hc]
        have hd := c.owner.destroy_moved
        rw [c.owner.destroy_root] at hd
        exact (hd.frame [] (rest.flatMap cellRoots)).trans ih
      · simp only [if_neg hc]
        have := ih.frame c.owner.root.toList []
        rwa [List.append_nil, List.append_nil] at this

theorem destroyOwned_events (function : Nat) (kind : OwnerKind) (cells : List (Option OwnerCell)) :
    ∃ roots : List Root, (destroyOwned function kind cells).2 = roots.map .released := by
  induction cells with
  | nil => exact ⟨[], rfl⟩
  | cons cell rest ih =>
    obtain ⟨roots, hroots⟩ := ih
    cases cell with
    | none => exact ⟨roots, hroots⟩
    | some c =>
      unfold destroyOwned
      by_cases hc : c.function = some function ∧ c.kind = kind
      · simp only [if_pos hc]
        exact ⟨c.owner.root.toList ++ roots, by rw [hroots, c.owner.destroy_snd, List.map_append]⟩
      · simp only [if_neg hc]
        exact ⟨roots, hroots⟩

theorem destroyOwned_valid {cells : List (Option OwnerCell)} (hv : CellsValid cells)
    (function : Nat) (kind : OwnerKind) : CellsValid (destroyOwned function kind cells).1 := by
  induction cells with
  | nil => exact hv
  | cons cell rest ih =>
    have hrest := ih fun c hc => hv c (List.mem_cons_of_mem _ hc)
    cases cell with
    | none =>
      intro c hc
      exact hrest c ((List.mem_cons.mp hc).resolve_left nofun)
    | some c' =>
      unfold destroyOwned
      by_cases hc : c'.function = some function ∧ c'.kind = kind
      · simp only [if_pos hc]
        intro c hc
        exact hrest c ((List.mem_cons.mp hc).resolve_left nofun)
      · simp only [if_neg hc]
        intro c hc
        rcases List.mem_cons.mp hc with heq | hmem
        · obtain rfl := Option.some.inj heq
          exact hv c List.mem_cons_self
        · exact hrest c hmem

theorem functionDestroy_moved (function : Nat) (cells : List (Option OwnerCell)) :
    Moved (cells.flatMap cellRoots) ((functionDestroy function cells).1.flatMap cellRoots) []
      (functionDestroy function cells).2 :=
  (destroyOwned_moved function .callSite cells).trans
    (destroyOwned_moved function .callableReference _)

theorem functionDestroy_events (function : Nat) (cells : List (Option OwnerCell)) :
    ∃ roots : List Root, (functionDestroy function cells).2 = roots.map .released := by
  obtain ⟨sites, hs⟩ := destroyOwned_events function .callSite cells
  obtain ⟨references, hr⟩ := destroyOwned_events function .callableReference
    (destroyOwned function .callSite cells).1
  refine ⟨sites ++ references, ?_⟩
  unfold functionDestroy
  simp only [hs, hr, List.map_append]

theorem functionDestroy_valid {cells : List (Option OwnerCell)} (hv : CellsValid cells)
    (function : Nat) : CellsValid (functionDestroy function cells).1 :=
  destroyOwned_valid (destroyOwned_valid hv function .callSite) function .callableReference

theorem specializedSite_moved (reference : ClosureOwner) (answer : Word) :
    Moved [] (specializedSite reference answer).2.1.root.toList []
      (specializedSite reference answer).2.2 := by
  unfold specializedSite
  split
  · exact setClosureEnvironment_moved {} _ _ _
  · exact .refl _

theorem specializedSite_valid (reference : ClosureOwner) (answer : Word) :
    (specializedSite reference answer).2.1.Valid := by
  unfold specializedSite
  split
  · exact setClosureEnvironment_valid _ _ _ _
  · exact ClosureOwner.valid_unowned rfl

theorem specializedSite_events (reference : ClosureOwner) (answer : Word) :
    ∃ roots : List Root, (specializedSite reference answer).2.2 = roots.map .retained := by
  unfold specializedSite
  split
  · rcases setClosureEnvironment_cases {} reference.closureEnvironment
        (if reference.ownsEnvironment then some reference.environmentRooting else none) answer with
      ⟨-, h, -⟩ | ⟨-, -, r, -, -, -, heq⟩
    · exact ⟨[], h⟩
    · exact ⟨[⟨r, answer⟩], by rw [heq]; rfl⟩
  · exact ⟨[], rfl⟩

theorem specializeCalls_spec (output : Nat) (calls : List (Nat × Word))
    {cells : List (Option OwnerCell)} (hv : CellsValid cells) :
    Moved (cells.flatMap cellRoots) ((specializeCalls output calls cells).2.1.flatMap cellRoots) []
        (specializeCalls output calls cells).2.2 ∧
      CellsValid (specializeCalls output calls cells).2.1 ∧
      ∃ roots : List Root, (specializeCalls output calls cells).2.2 = roots.map .retained := by
  induction calls generalizing cells with
  | nil => exact ⟨.refl _, hv, [], rfl⟩
  | cons call rest ih =>
    obtain ⟨i, answer⟩ := call
    unfold specializeCalls
    cases hc : cellAt cells .callableReference i with
    | none => exact ⟨.refl _, hv, [], rfl⟩
    | some reference =>
      have hsite : Moved (cells.flatMap cellRoots)
          ((cells ++ [some (⟨.callSite, some output,
            (specializedSite reference.owner answer).2.1⟩ : OwnerCell)]).flatMap cellRoots) []
          (specializedSite reference.owner answer).2.2 := by
        rw [List.flatMap_append]
        have h := (specializedSite_moved reference.owner answer).frame (cells.flatMap cellRoots) []
        simpa [cellRoots] using h
      have hvalid := hv.snoc (c := ⟨.callSite, some output, _⟩)
        (specializedSite_valid reference.owner answer)
      obtain ⟨retains, hretains⟩ := specializedSite_events reference.owner answer
      obtain ⟨hmoved, hv', roots, hroots⟩ := ih hvalid
      by_cases hok : (specializedSite reference.owner answer).1 = .ok
      · simp only [if_pos hok]
        exact ⟨hsite.trans hmoved, hv', retains ++ roots, by rw [hretains, hroots, List.map_append]⟩
      · simp only [if_neg hok]
        exact ⟨hsite, hvalid, retains, hretains⟩

theorem specializeReferences_spec {cells : List (Option OwnerCell)} (hv : CellsValid cells)
    (output : Nat) (calls : List (Nat × Word)) (succeeds : Bool) :
    Moved (cells.flatMap cellRoots)
        ((specializeReferences cells output calls succeeds).1.flatMap cellRoots) []
        (specializeReferences cells output calls succeeds).2 ∧
      CellsValid (specializeReferences cells output calls succeeds).1 ∧
      RetainsFirst (specializeReferences cells output calls succeeds).2 := by
  obtain ⟨hmoved, hvalid, roots, hroots⟩ :=
    specializeCalls_spec output calls (forgetOwned_valid hv output)
  rw [forgetOwned_roots] at hmoved
  unfold specializeReferences
  by_cases hs : ((specializeCalls output calls (forgetOwned output cells)).1 && succeeds) = true
  · simp only [if_pos hs]
    exact ⟨hmoved, hvalid, by rw [hroots]; exact .retained roots⟩
  · simp only [if_neg hs]
    obtain ⟨released, hreleased⟩ := functionDestroy_events output
      (specializeCalls output calls (forgetOwned output cells)).2.1
    refine ⟨hmoved.trans (functionDestroy_moved output _), functionDestroy_valid hvalid output, ?_⟩
    rw [hroots, hreleased]
    exact ⟨roots, released, rfl⟩

theorem RootState.onOwner_spec {s : RootState} (hv : CellsValid s.cells) (kind : OwnerKind)
    (i : Nat) {f : ClosureOwner → ClosureOwner × List RootEvent} {lost : List Root}
    (h : ∀ c, cellAt s.cells kind i = some c →
      Moved c.owner.root.toList (f c.owner).1.root.toList lost (f c.owner).2 ∧
        (f c.owner).1.Valid)
    (hnone : cellAt s.cells kind i = none → lost = []) :
    Moved s.holders (s.onOwner kind i f).1.holders lost (s.onOwner kind i f).2 ∧
      CellsValid (s.onOwner kind i f).1.cells := by
  unfold onOwner
  cases hc : cellAt s.cells kind i with
  | none =>
    rw [hnone hc]
    exact ⟨.refl _, hv⟩
  | some c =>
    obtain ⟨hmoved, hvalid⟩ := h c hc
    refine ⟨?_, fun c' hc' => ?_⟩
    · obtain ⟨a, b, hbefore, hafter⟩ := flatMap_set cellRoots (cellAt_some hc)
      unfold holders
      simp only [hbefore, hafter, cellRoots, List.append_assoc]
      simpa only [List.append_assoc] using
        hmoved.frame a (b ++ s.frames.flatMap BoxedDeoptFrame.roots)
    · rcases List.mem_or_eq_of_mem_set hc' with hmem | heq
      · exact hv c' hmem
      · obtain rfl := Option.some.inj heq
        exact hvalid

theorem RootState.onOwner_events {s : RootState} {P : List RootEvent → Prop} (hnil : P [])
    (kind : OwnerKind) (i : Nat) {f : ClosureOwner → ClosureOwner × List RootEvent}
    (h : ∀ o, P (f o).2) : P (s.onOwner kind i f).2 := by
  unfold onOwner
  split
  · exact hnil
  · exact h _

theorem RootState.holders_cells {s : RootState} {cells : List (Option OwnerCell)}
    {lost : List Root} {events : List RootEvent}
    (h : Moved (s.cells.flatMap cellRoots) (cells.flatMap cellRoots) lost events) :
    Moved s.holders { s with cells }.holders lost events := by
  have := h.frame [] (s.frames.flatMap BoxedDeoptFrame.roots)
  rwa [List.nil_append, List.nil_append] at this

theorem RootState.holders_frame {s : RootState} {i : Nat} {frame frame' : BoxedDeoptFrame}
    (hf : s.frames[i]? = some frame) {lost : List Root} {events : List RootEvent}
    (h : Moved frame.roots frame'.roots lost events) :
    Moved s.holders { s with frames := s.frames.set i frame' }.holders lost events := by
  obtain ⟨a, b, hbefore, hafter⟩ := flatMap_set BoxedDeoptFrame.roots hf
  unfold holders
  simp only [hbefore, hafter]
  have := h.frame (s.cells.flatMap cellRoots ++ a) b
  simpa only [List.append_assoc] using this

theorem BoxedDeoptFrame.destroy_moved (frame : BoxedDeoptFrame) :
    Moved frame.roots frame.destroy.1.roots [] frame.destroy.2 := by
  intro q
  have hnone : frame.destroy.1.roots = [] := rfl
  rw [hnone, BoxedDeoptFrame.destroy]
  simp

/-- What an operation does to the account of the roots. -/
theorem RootState.step_spec {s : RootState} {op : RootOp} {r : RootState × List RootEvent}
    (hv : CellsValid s.cells) (h : s.step op = some r) :
    Moved s.holders r.1.holders (s.lost op) r.2 ∧ CellsValid r.1.cells := by
  cases op with
  | allocate kind function =>
    obtain rfl := Option.some.inj h
    refine ⟨holders_cells ?_, hv.snoc (ClosureOwner.valid_unowned rfl)⟩
    rw [List.flatMap_append]
    have h0 : [some (⟨kind, function, {}⟩ : OwnerCell)].flatMap cellRoots = [] := rfl
    rw [h0, List.append_nil]
    exact .refl _
  | initReference i environment rooting answer =>
    obtain rfl := Option.some.inj h
    refine onOwner_spec hv .callableReference i (fun c hc => ⟨?_, ?_⟩) fun hc => ?_
    · have := callableReferenceInitRooted_moved c.owner environment rooting answer
      simpa only [lost, hc, cellRoots] using this
    · exact callableReferenceInitRooted_valid (hv.cellAt hc) _ _ _
    · simp only [lost, hc, cellRoots, ite_self]
  | destroyReference i =>
    obtain rfl := Option.some.inj h
    refine onOwner_spec hv .callableReference i (fun c _ => ⟨c.owner.destroy_moved, ?_⟩)
      fun _ => rfl
    rw [c.owner.destroy_fst]
    exact ClosureOwner.valid_unowned rfl
  | setEnvironment i environment rooting answer =>
    obtain rfl := Option.some.inj h
    exact onOwner_spec hv .callSite i (fun c _ => ⟨setClosureEnvironment_moved c.owner _ _ _,
      setClosureEnvironment_valid _ _ _ _⟩) fun _ => rfl
  | cloneSite destination source answer =>
    simp only [step] at h
    cases hs : cellAt s.cells .callSite source with
    | none =>
      simp only [hs] at h
      obtain rfl := Option.some.inj h
      simp only [lost, hs, Option.isSome_none, Bool.false_eq_true, if_false]
      exact ⟨.refl _, hv⟩
    | some source' =>
      simp only [hs] at h
      obtain rfl := Option.some.inj h
      refine onOwner_spec hv .callSite destination (fun c hc => ?_) fun hc => ?_
      · simp only [lost, hs, Option.isSome_some, if_true, hc, cellRoots]
        by_cases hd : destination = source
        · simp only [if_pos hd]
          exact ⟨cloneToItself_moved _, ClosureOwner.valid_unowned rfl⟩
        · simp only [if_neg hd]
          exact ⟨cloneClosure_moved (hv.cellAt hs) _ _, cloneClosure_valid (hv.cellAt hs) _⟩
      · simp only [lost, hc, cellRoots, ite_self]
  | destroySite i =>
    obtain rfl := Option.some.inj h
    refine onOwner_spec hv .callSite i (fun c _ => ⟨c.owner.destroy_moved, ?_⟩) fun _ => rfl
    rw [c.owner.destroy_fst]
    exact ClosureOwner.valid_unowned rfl
  | specialize output calls succeeds =>
    obtain rfl := Option.some.inj h
    obtain ⟨hmoved, hvalid, -⟩ := specializeReferences_spec hv output calls succeeds
    exact ⟨holders_cells hmoved, hvalid⟩
  | destroyFunction function =>
    obtain rfl := Option.some.inj h
    exact ⟨holders_cells (functionDestroy_moved function s.cells),
      functionDestroy_valid hv function⟩
  | allocateFrame =>
    obtain rfl := Option.some.inj h
    refine ⟨?_, hv⟩
    have h0 : [({} : BoxedDeoptFrame)].flatMap BoxedDeoptFrame.roots = [] := rfl
    simp only [holders, List.flatMap_append, h0, List.append_nil]
    exact .refl _
  | boxFrame i registers locals rooting registerAnswers localAnswers allocated =>
    simp only [step] at h
    cases hf : s.frames[i]? with
    | none =>
      simp only [hf] at h
      obtain rfl := Option.some.inj h
      simp only [lost, heldAt, hf, Option.map_none, Option.getD_none, ite_self]
      exact ⟨.refl _, hv⟩
    | some frame =>
      simp only [hf] at h
      obtain ⟨⟨status, boxed, events'⟩, hbox, heq⟩ := Option.map_eq_some_iff.mp h
      subst heq
      refine ⟨holders_frame hf ?_, hv⟩
      simp only [lost, heldAt, hf, Option.map_some, Option.getD_some]
      exact boxDeoptFrameRooted_moved hbox
  | destroyFrame i =>
    simp only [step] at h
    cases hf : s.frames[i]? with
    | none =>
      simp only [hf] at h
      obtain rfl := Option.some.inj h
      exact ⟨.refl _, hv⟩
    | some frame =>
      simp only [hf] at h
      obtain rfl := Option.some.inj h
      exact ⟨holders_frame hf frame.destroy_moved, hv⟩

theorem RootState.step_isSome (s : RootState) (op : RootOp) :
    (s.step op).isSome = true ↔ s.Masked op := by
  cases op with
  | boxFrame i registers locals rooting registerAnswers localAnswers allocated =>
    simp only [step, Masked]
    cases hf : s.frames[i]? with
    | none => simp
    | some frame =>
      simp only [Option.isSome_map, Option.isSome_some, true_imp_iff]
      exact boxDeoptFrameRooted_isSome _ _ _ _ _ _ _
  | cloneSite destination source answer =>
    simp only [step, Masked, iff_true]
    split <;> rfl
  | destroyFrame i =>
    simp only [step, Masked, iff_true]
    split <;> rfl
  | _ => exact iff_of_true rfl trivial

/-- Only where an environment is replaced, a release comes before a retain. -/
theorem RootState.step_events {s : RootState} {op : RootOp} {r : RootState × List RootEvent}
    (hv : CellsValid s.cells) (h : s.step op = some r) :
    RetainsFirst r.2 ∨ ∃ i environment rooting answer,
      op = .setEnvironment i environment rooting answer := by
  cases op with
  | setEnvironment i environment rooting answer => exact .inr ⟨_, _, _, _, rfl⟩
  | allocate kind function =>
    obtain rfl := Option.some.inj h
    exact .inl .nil
  | initReference i environment rooting answer =>
    obtain rfl := Option.some.inj h
    refine .inl (onOwner_events .nil _ _ fun o => ?_)
    unfold callableReferenceInitRooted
    repeat' split
    all_goals first | exact .nil | exact .retained [_]
  | destroyReference i | destroySite i =>
    obtain rfl := Option.some.inj h
    refine .inl (onOwner_events .nil _ _ fun o => ?_)
    rw [o.destroy_snd]
    exact .released _
  | cloneSite destination source answer =>
    simp only [step] at h
    cases hs : cellAt s.cells .callSite source with
    | none =>
      simp only [hs] at h
      obtain rfl := Option.some.inj h
      exact .inl .nil
    | some source' =>
      simp only [hs] at h
      obtain rfl := Option.some.inj h
      refine .inl (onOwner_events .nil _ _ fun o => ?_)
      unfold cloneToItself cloneClosure
      repeat' split
      all_goals first | exact .nil | exact .retained [_]
  | specialize output calls succeeds =>
    obtain rfl := Option.some.inj h
    exact .inl (specializeReferences_spec hv output calls succeeds).2.2
  | destroyFunction function =>
    obtain rfl := Option.some.inj h
    obtain ⟨roots, hroots⟩ := functionDestroy_events function s.cells
    have hreleased := RetainsFirst.released roots
    rw [← hroots] at hreleased
    exact .inl hreleased
  | allocateFrame =>
    obtain rfl := Option.some.inj h
    exact .inl .nil
  | boxFrame i registers locals rooting registerAnswers localAnswers allocated =>
    simp only [step] at h
    cases hf : s.frames[i]? with
    | none =>
      simp only [hf] at h
      obtain rfl := Option.some.inj h
      exact .inl .nil
    | some frame =>
      simp only [hf] at h
      obtain ⟨⟨status, boxed, events⟩, hbox, heq⟩ := Option.map_eq_some_iff.mp h
      subst heq
      rcases boxDeoptFrameRooted_cases hbox with ⟨-, -, rfl⟩ | ⟨-, rfl⟩
      · exact .inl .nil
      · exact .inl (.retained _)
  | destroyFrame i =>
    simp only [step] at h
    cases hf : s.frames[i]? with
    | none =>
      simp only [hf] at h
      obtain rfl := Option.some.inj h
      exact .inl .nil
    | some frame =>
      simp only [hf] at h
      obtain rfl := Option.some.inj h
      exact .inl (.released frame.roots)

theorem RootState.mem_holders {s : RootState} {place : OwnerPlace} {root : Root}
    (h : root ∈ s.heldAt place) : root ∈ s.holders := by
  unfold heldAt at h
  unfold holders
  cases place with
  | cell i =>
    cases hc : s.cells[i]? with
    | none => simp [hc] at h
    | some cell =>
      simp only [hc, Option.map_some, Option.getD_some] at h
      exact List.mem_append_left _ (List.mem_flatMap.mpr ⟨cell, List.mem_of_getElem? hc, h⟩)
  | frame i =>
    cases hf : s.frames[i]? with
    | none => simp [hf] at h
    | some frame =>
      simp only [hf, Option.map_some, Option.getD_some] at h
      exact List.mem_append_right _ (List.mem_flatMap.mpr ⟨frame, List.mem_of_getElem? hf, h⟩)

theorem pointerCount_pos {roots : List Root} {pointer : Word} :
    0 < pointerCount roots pointer ↔ ∃ r ∈ roots, r.pointer = pointer := by
  simp [pointerCount, List.countP_pos_iff]

theorem RootState.held_count {s : RootState} {place : OwnerPlace} {pointer : Word}
    (h : ∃ r ∈ s.heldAt place, r.pointer = pointer) : 0 < pointerCount s.holders pointer := by
  obtain ⟨r, hr, hp⟩ := h
  exact pointerCount_pos.mpr ⟨r, mem_holders hr, hp⟩

theorem RootState.held_twice {s : RootState} {place : OwnerPlace} {i : Nat}
    {cell : Option OwnerCell} {pointer : Word} (hc : s.cells[i]? = some cell)
    (hcell : ∃ r ∈ cellRoots cell, r.pointer = pointer) (hne : place ≠ .cell i)
    (h : ∃ r ∈ s.heldAt place, r.pointer = pointer) : 2 ≤ pointerCount s.holders pointer := by
  obtain ⟨a, b, hbefore, hafter⟩ := flatMap_set cellRoots hc
  have hothers : { s with cells := s.cells.set i none }.heldAt place = s.heldAt place := by
    cases place with
    | frame j => rfl
    | cell j =>
      have hij : i ≠ j := fun h => hne (congrArg OwnerPlace.cell h.symm)
      simp only [heldAt, List.getElem?_set_ne hij]
  have hrest := held_count (s := { s with cells := s.cells.set i none }) (hothers ▸ h)
  have hown := pointerCount_pos.mpr hcell
  have hnone : cellRoots none = [] := rfl
  unfold pointerCount at hrest hown ⊢
  simp only [holders, hbefore, hafter, hnone, List.countP_append, List.countP_nil] at hrest ⊢
  omega

theorem RootRun.Balanced.count {r : RootRun} (h : r.Balanced) (pointer : Word) :
    pointerCount (retainedBy r.log) pointer =
      pointerCount (releasedBy r.log) pointer + pointerCount r.state.holders pointer := by
  unfold pointerCount
  rw [h.countP_eq, List.countP_append]

theorem RootRun.Balanced.step {r : RootRun} (h : r.Balanced) {s : RootState}
    {events : List RootEvent} (hm : Moved r.state.holders s.holders [] events) :
    RootRun.Balanced ⟨s, r.log ++ events⟩ := by
  unfold Balanced
  rw [retainedBy_append, releasedBy_append, List.perm_iff_count]
  intro root
  have hbefore := h.count_eq root
  have hmoved := hm (· == root)
  simp only [List.count, List.countP_append, List.countP_nil] at hbefore hmoved ⊢
  omega

theorem RootRun.kept_of_retainsFirst {r : RootRun} (hb : r.Balanced) {s : RootState}
    {events : List RootEvent} (hs : RootRun.Balanced ⟨s, r.log ++ events⟩)
    (hfirst : RetainsFirst events) {pointer : Word} (hkeep : HeldAcross r.state s pointer)
    {before : List RootEvent} (hbefore : before <+: events) :
    pointerCount (releasedBy (r.log ++ before)) pointer <
      pointerCount (retainedBy (r.log ++ before)) pointer := by
  obtain ⟨place, hold, hnew⟩ := hkeep
  have h1 := RootState.held_count hold
  have h2 := RootState.held_count hnew
  have hc1 := hb.count pointer
  have hc2 := hs.count pointer
  have hp := hfirst.prefix hbefore fun r => r.pointer == pointer
  unfold pointerCount at *
  simp only [retainedBy_append, releasedBy_append, List.countP_append] at hc2 ⊢
  omega

theorem RootState.step_setEnvironment {s : RootState} {i : Nat} {c : OwnerCell}
    (hc : cellAt s.cells .callSite i = some c) (environment : Word)
    (rooting : Option RootingHooks) (answer : Word) :
    s.step (.setEnvironment i environment rooting answer) =
      some ({ s with cells := s.cells.set i (some { c with
          owner := (setClosureEnvironment c.owner environment rooting answer).2.1 }) },
        (setClosureEnvironment c.owner environment rooting answer).2.2) := by
  simp only [step, onOwner, hc]

theorem RootState.heldAt_cellAt {s : RootState} {kind : OwnerKind} {i : Nat} {c : OwnerCell}
    (hc : cellAt s.cells kind i = some c) : s.heldAt (.cell i) = c.owner.root.toList := by
  simp only [heldAt, cellAt_some hc, Option.map_some, Option.getD_some, cellRoots]

theorem RootState.heldAt_set {s : RootState} {kind : OwnerKind} {i : Nat} {c : OwnerCell}
    (hc : cellAt s.cells kind i = some c) (c' : OwnerCell) :
    { s with cells := s.cells.set i (some c') }.heldAt (.cell i) = c'.owner.root.toList := by
  obtain ⟨hi, -⟩ := List.getElem?_eq_some_iff.mp (cellAt_some hc)
  simp only [heldAt, List.getElem?_set_self hi, Option.map_some, Option.getD_some, cellRoots]

theorem pointerCount_root {root : Option Root} {pointer : Word} :
    pointerCount root.toList pointer = 1 ↔ ∃ r, root = some r ∧ r.pointer = pointer := by
  cases root with
  | none => simp [pointerCount]
  | some r => simp [pointerCount]

theorem RootRun.kept_of_replaced {r : RootRun} (hb : r.Balanced) {i : Nat} {c : OwnerCell}
    (hc : cellAt r.state.cells .callSite i = some c) {environment : Word}
    {rooting : Option RootingHooks} {answer : Word} {s : RootState} {events : List RootEvent}
    (hstep : r.state.step (.setEnvironment i environment rooting answer) = some (s, events))
    (hs : RootRun.Balanced ⟨s, r.log ++ events⟩)
    (hre : ¬ r.state.Reroots (.setEnvironment i environment rooting answer)) {pointer : Word}
    (hkeep : HeldAcross r.state s pointer) {before : List RootEvent} (hbefore : before <+: events) :
    pointerCount (releasedBy (r.log ++ before)) pointer <
      pointerCount (retainedBy (r.log ++ before)) pointer := by
  rw [RootState.step_setEnvironment hc, Option.some.injEq, Prod.mk.injEq] at hstep
  obtain ⟨rfl, rfl⟩ := hstep
  rcases setClosureEnvironment_cases c.owner environment rooting answer with
    ⟨-, hevents, -⟩ | ⟨henv, ha, hooks, rfl, hr1, hr2, heq⟩
  · refine kept_of_retainsFirst hb hs ?_ hkeep hbefore
    rw [hevents, c.owner.destroy_snd]
    exact .released _
  · cases hroot : c.owner.root with
    | none =>
      refine kept_of_retainsFirst hb hs ?_ hkeep hbefore
      rw [heq, c.owner.destroy_snd, hroot]
      exact .retained [_]
    | some root =>
      have hevents : (setClosureEnvironment c.owner environment (some hooks) answer).2.2 =
          [.released root, .retained ⟨hooks, answer⟩] := by
        rw [heq, c.owner.destroy_snd, hroot]
        rfl
      obtain ⟨place, hold, hnew⟩ := hkeep
      have h1 := RootState.held_count hold
      have h2 := RootState.held_count hnew
      have hc1 := hb.count pointer
      have hc2 := hs.count pointer
      -- of the release alone, the account is one less for the pointer of the old root
      have htwice : root.pointer = pointer → 2 ≤ pointerCount r.state.holders pointer := by
        rintro rfl
        by_contra hlt
        have hone : pointerCount r.state.holders root.pointer = 1 := by omega
        have hown : ∃ r ∈ cellRoots (some c), r.pointer = root.pointer :=
          ⟨root, by simp [cellRoots, hroot], rfl⟩
        have hplace : place = .cell i := by
          by_contra hne
          have := RootState.held_twice (cellAt_some hc) hown hne hold
          omega
        subst hplace
        rw [RootState.heldAt_set hc, heq, ClosureOwner.root_owned ha hr2] at hnew
        obtain ⟨r', hr', hp⟩ := hnew
        obtain rfl := List.mem_singleton.mp hr'
        simp only at hp
        refine hre ⟨henv, ?_, ?_, ?_⟩
        · simp [hr1, hr2]
        · rw [hc, cellRoots, pointerCount_root]
          exact ⟨root, hroot, hp.symm⟩
        · rw [hp]
          exact hone
      rw [hevents] at hbefore hc2
      have hprefix : before = [] ∨ before = [.released root] ∨
          before = [.released root, .retained ⟨hooks, answer⟩] := by
        simpa only [List.prefix_cons_iff, List.prefix_nil, exists_eq_right_right', exists_or,
          and_or_left, exists_eq_right, or_assoc] using hbefore
      rcases hprefix with rfl | rfl | rfl
      · rw [List.append_nil]
        omega
      · unfold pointerCount at *
        have hrel : releasedBy [.released root] = [root] := rfl
        have hret : retainedBy [.released root] = [] := rfl
        simp only [retainedBy_append, releasedBy_append, hrel, hret, List.countP_append,
          List.countP_nil, List.countP_singleton]
        by_cases hp : root.pointer = pointer
        · have := htwice hp
          simp only [hp, beq_self_eq_true, if_true]
          omega
        · simp only [beq_eq_false_iff_ne.mpr hp, Bool.false_eq_true, if_false]
          omega
      · have h2' := h2
        simp only at hc2
        omega

theorem ClosureOwner.root_pointer {o : ClosureOwner} {root : Root} (h : o.root = some root) :
    root.pointer ≠ 0 := by
  unfold ClosureOwner.root at h
  split at h
  · rename_i hown
    cases h
    simp only [Bool.and_eq_true, bne_iff_ne, ne_eq] at hown
    exact hown.1.2
  · cases h

theorem RootRun.not_kept_of_reroots {r : RootRun} (hb : r.Balanced) {op : RootOp}
    (hre : r.state.Reroots op) {s : RootState} {events : List RootEvent}
    (hstep : r.state.step op = some (s, events)) :
    ¬ ∀ pointer, HeldAcross r.state s pointer → ∀ before, before <+: events →
      pointerCount (releasedBy (r.log ++ before)) pointer <
        pointerCount (retainedBy (r.log ++ before)) pointer := by
  intro hkeep
  cases op with
  | setEnvironment i environment rooting answer =>
    obtain ⟨henv, hhooks, hcell, hone⟩ := hre
    cases hc : cellAt r.state.cells .callSite i with
    | none =>
      rw [hc] at hcell
      cases hcell
    | some c =>
      rw [hc, cellRoots, pointerCount_root] at hcell
      obtain ⟨root, hroot, hp⟩ := hcell
      have hanswer : answer ≠ 0 := hp ▸ ClosureOwner.root_pointer hroot
      rw [RootState.step_setEnvironment hc, Option.some.injEq, Prod.mk.injEq] at hstep
      obtain ⟨rfl, rfl⟩ := hstep
      rcases setClosureEnvironment_cases c.owner environment rooting answer with
        ⟨-, -, hno⟩ | ⟨-, -, hooks, rfl, -, hr2, heq⟩
      · exact hno ⟨henv, hhooks, hanswer⟩
      · rw [heq] at hkeep
        have hold : ∃ r' ∈ r.state.heldAt (.cell i), r'.pointer = answer := by
          rw [RootState.heldAt_cellAt hc, hroot]
          exact ⟨root, List.mem_singleton_self _, hp⟩
        have hnew : ∃ r' ∈ RootState.heldAt { r.state with
            cells := r.state.cells.set i (some { c with owner := ⟨answer, hooks, true⟩ }) }
              (.cell i), r'.pointer = answer := by
          rw [RootState.heldAt_set hc, ClosureOwner.root_owned hanswer hr2]
          exact ⟨⟨hooks, answer⟩, List.mem_singleton_self _, rfl⟩
        have hbad := hkeep answer ⟨.cell i, hold, hnew⟩ [.released root] (by
          rw [c.owner.destroy_snd, hroot]
          exact ⟨[.retained ⟨hooks, answer⟩], rfl⟩)
        have hcount := hb.count answer
        have hrel : releasedBy [.released root] = [root] := rfl
        have hret : retainedBy [.released root] = [] := rfl
        unfold pointerCount at hbad hcount hone
        simp only [retainedBy_append, releasedBy_append, hrel, hret, List.countP_append,
          List.countP_nil, List.countP_singleton, hp, beq_self_eq_true, if_true] at hbad
        omega
  | _ => exact hre

theorem RootRun.staysBalanced_iff {r : RootRun} (hv : CellsValid r.state.cells) (hb : r.Balanced)
    (op : RootOp) : r.StaysBalanced op ↔ r.state.KeepsRoots op := by
  constructor
  · rintro ⟨s, events, hstep, hbal, hkeep⟩
    obtain ⟨hmoved, -⟩ := RootState.step_spec hv hstep
    refine ⟨?_, ?_, ?_⟩
    · have hall := hmoved fun _ => true
      have h1 := hb.length_eq
      have h2 := hbal.length_eq
      simp only [retainedBy_append, releasedBy_append, List.length_append, List.countP_true]
        at h1 h2 hall
      exact List.length_eq_zero_iff.mp (by omega)
    · exact (RootState.step_isSome _ _).mp (by rw [hstep]; rfl)
    · exact fun hre => not_kept_of_reroots hb hre hstep hkeep
  · rintro ⟨hlost, hmasked, hre⟩
    obtain ⟨⟨s, events⟩, hstep⟩ :=
      Option.isSome_iff_exists.mp ((RootState.step_isSome _ _).mpr hmasked)
    obtain ⟨hmoved, -⟩ := RootState.step_spec hv hstep
    rw [hlost] at hmoved
    have hbal := hb.step hmoved
    refine ⟨s, events, hstep, hbal, fun pointer hheld before hbefore => ?_⟩
    rcases RootState.step_events hv hstep with hfirst | ⟨i, environment, rooting, answer, rfl⟩
    · exact kept_of_retainsFirst hb hbal hfirst hheld hbefore
    · cases hc : cellAt r.state.cells .callSite i with
      | none =>
        simp only [RootState.step, RootState.onOwner, hc, Option.some.injEq, Prod.mk.injEq] at hstep
        obtain ⟨rfl, rfl⟩ := hstep
        exact kept_of_retainsFirst hb hbal .nil hheld hbefore
      | some c => exact kept_of_replaced hb hc hstep hbal hre hheld hbefore

theorem RootRun.step_valid {r : RootRun} (hv : CellsValid r.state.cells) (op : RootOp) :
    CellsValid (r.step op).state.cells := by
  unfold step
  cases hstep : r.state.step op with
  | none => exact hv
  | some result => exact (RootState.step_spec hv hstep).2

/-- A run keeps its roots balanced as long as no operation overwrites a root, boxes a slot beyond
its mask, or gives an environment again to the only owner that it has. -/
theorem roots_balanced_iff (ops : List RootOp) :
    Along RootRun.step RootRun.StaysBalanced {} ops ↔
      Along RootRun.step (fun r op => r.state.KeepsRoots op) {} ops := by
  refine along_iff_of_kept (I := fun r => CellsValid r.state.cells ∧ r.Balanced)
    (K := fun _ => True) ?_ ?_ ⟨?_, List.Perm.refl _⟩
    (fun _ _ => trivial)
  · rintro r op ⟨hv, hb⟩ - hq
    refine ⟨RootRun.step_valid hv op, ?_⟩
    obtain ⟨s, events, hstep, hbal, -⟩ := (RootRun.staysBalanced_iff hv hb op).mpr hq
    unfold RootRun.step
    rw [hstep]
    exact hbal
  · rintro r op ⟨hv, hb⟩ -
    exact RootRun.staysBalanced_iff hv hb op
  · intro c hc
    cases hc

/-- A call site is given the environment that it has: the only retain of the environment is
undone before the new one is made. -/
theorem environment_given_again_drops_to_zero :
    ¬ ∀ ops, Along RootRun.step RootRun.StaysBalanced {} ops := by
  intro h
  let hooks : RootingHooks := ⟨1, true, true⟩
  let op : RootOp := .setEnvironment 0 16 (some hooks) 16
  obtain ⟨-, -, ⟨s, events, hstep, -, hkeep⟩, -⟩ := h [.allocate .callSite none, op, op]
  have hresult : (RootRun.step (RootRun.step {} (.allocate .callSite none)) op).state.step op =
      some (⟨[some ⟨.callSite, none, ⟨16, hooks, true⟩⟩], []⟩,
        [.released ⟨hooks, 16⟩, .retained ⟨hooks, 16⟩]) := by decide
  rw [hresult, Option.some.injEq, Prod.mk.injEq] at hstep
  obtain ⟨rfl, rfl⟩ := hstep
  have hheld : HeldAcross (RootRun.step (RootRun.step {} (.allocate .callSite none)) op).state
      ⟨[some ⟨.callSite, none, ⟨16, hooks, true⟩⟩], []⟩ 16 :=
    ⟨.cell 0, by decide, by decide⟩
  have hbad := hkeep 16 hheld [.released ⟨hooks, 16⟩] ⟨_, rfl⟩
  revert hbad
  decide

end TurboJS.Runtime
