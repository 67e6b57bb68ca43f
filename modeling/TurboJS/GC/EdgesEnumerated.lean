import TurboJS.GC.HeapRuns
import TurboJS.GC.TrialDeletion

namespace TurboJS.GC
open Foundation Objects

/-! The collector enumerates the references that the counts are made of, except for the shapes
that the property caches retain. -/

namespace JSHeap

def collectorRuntime (h : JSHeap) (stale : List Ref) : Runtime Ref where
  refCount := h.refCount
  mark := fun _ => 0
  gcObjList := h.gcObjList
  tmpObjList := stale

def ReachedFromOutside (h : JSHeap) (r : Ref) : Prop :=
  ∃ o ∈ h.outside, Relation.ReflTransGen (fun x y => y ∈ h.heldAt Node.held x) o r

def RetainsNoShape (h : JSHeap) : Prop :=
  ∀ b cpool realm propertyIC,
    h.node ⟨.functionBytecode, b⟩ = some (.functionBytecode cpool realm propertyIC) →
    ∀ e ∈ propertyIC, e.ways = []

/-- The marker is called once for every reference to a GC object that a GC object is counted
for; what is left of a count are the references from outside; and the collector finds exactly
what these do not lead to. -/
structure EveryEdgeEnumerated (h : JSHeap) : Prop where
  enumerated : ∀ r ∈ h.gcObjList,
    (h.markChildren r).Perm ((h.heldAt Node.held r).filter h.isGCObject)
  outsideHolders : ∀ r ∈ h.gcObjList,
    h.refCount r = (h.gcObjList.flatMap h.markChildren).count r + h.outside.count r
  collected : ∀ stale, ∃ rt, findGarbage h.markChildren (h.collectorRuntime stale) = some rt ∧
    ∀ r, r ∈ rt.tmpObjList ↔ r ∈ h.gcObjList ∧ ¬ h.ReachedFromOutside r

section

variable {P : Node → Prop} {h : JSHeap} {r x y : Ref} {n : Node} {rs : List Ref}

theorem mem_gcObjList (hi : Inv P h) : r ∈ h.gcObjList ↔ h.isGCObject r = true := by
  rw [gcObjList, List.mem_filter]
  refine ⟨And.right, fun hgc => ⟨?_, hgc⟩⟩
  rw [isGCObject] at hgc
  split at hgc
  · rename_i n hn
    exact hi.balanced.mem_blocks hn
  · cases hgc

theorem isGCObject_of_kind (hi : Inv P h) (hn : h.node r = some n) (hkind : r.kind ≠ .varRef) :
    h.isGCObject r = true := by
  have hnode := hi.kinds r n hn
  rw [isGCObject, hn]
  cases n with
  | openVarRef sf varRefIdx => exact absurd hnode.symm hkind
  | _ => rfl

theorem isGCObject_varRef (hi : Inv P h) (v : Nat) :
    h.isGCObject ⟨.varRef, v⟩ = h.isDetached v := by
  rw [isGCObject, isDetached]
  cases hn : h.node ⟨.varRef, v⟩ with
  | none => rfl
  | some n =>
    have hkind := hi.kinds _ n hn
    cases n with
    | openVarRef sf varRefIdx => rfl
    | detachedVarRef val => rfl
    | _ => cases hkind

theorem filter_varRef (hi : Inv P h) (v : Nat) :
    [(⟨.varRef, v⟩ : Ref)].filter h.isGCObject = h.markVarRef v := by
  rw [markVarRef, ← isGCObject_varRef hi v]
  cases hgc : h.isGCObject ⟨.varRef, v⟩ <;> simp [hgc]

theorem filter_varRefs (hi : Inv P h) (varRefs : List (Option Nat)) :
    (varRefs.flatMap (pointer .varRef)).filter h.isGCObject =
      varRefs.flatMap fun v => v.toList.flatMap h.markVarRef := by
  rw [List.filter_flatMap]
  apply List.flatMap_congr
  intro v hv
  cases v with
  | none => rfl
  | some v =>
    have hone := filter_varRef hi v
    simpa [pointer] using hone

theorem filter_others (hi : Inv P h) (hlive : ∀ x ∈ rs, ∃ n, h.node x = some n)
    (hkind : ∀ x ∈ rs, x.kind ≠ .varRef) : rs.filter h.isGCObject = rs := by
  rw [List.filter_eq_self]
  intro x hx
  obtain ⟨n, hn⟩ := hlive x hx
  exact isGCObject_of_kind hi hn (hkind x hx)

theorem pointer_kind {kind : Kind} {p : Option Nat} (hx : x ∈ pointer kind p) : x.kind = kind := by
  obtain ⟨i, -, rfl⟩ := List.mem_map.mp hx
  rfl

theorem refs_kind {val : Value} (hx : x ∈ val.refs) :
    x.kind = .object ∨ x.kind = .functionBytecode := by
  cases val with
  | plain => cases hx
  | object p => exact .inl (by rw [List.mem_singleton.mp hx])
  | functionBytecode b => exact .inr (by rw [List.mem_singleton.mp hx])

theorem filter_pointer (hi : Inv P h) (kind : Kind) (p : Option Nat) (hne : kind ≠ .varRef)
    (hlive : ∀ x ∈ pointer kind p, ∃ n, h.node x = some n) :
    (pointer kind p).filter h.isGCObject = pointer kind p :=
  filter_others hi hlive fun _ hx => pointer_kind hx ▸ hne

theorem filter_refs (hi : Inv P h) {val : Value}
    (hlive : ∀ x ∈ val.refs, ∃ n, h.node x = some n) :
    val.refs.filter h.isGCObject = val.refs := by
  apply filter_others hi hlive
  intro x hx hkind
  rcases refs_kind hx with hk | hk
  · rw [hk] at hkind
    cases hkind
  · rw [hk] at hkind
    cases hkind

theorem filter_values (hi : Inv P h) {values : List Value}
    (hlive : ∀ x ∈ values.flatMap Value.refs, ∃ n, h.node x = some n) :
    (values.flatMap Value.refs).filter h.isGCObject = values.flatMap Value.refs := by
  rw [List.filter_flatMap]
  apply List.flatMap_congr
  intro val hval
  exact filter_refs hi fun x hx => hlive x (List.mem_flatMap.mpr ⟨val, hval, hx⟩)

theorem filter_property (hi : Inv P h) {pr : Property}
    (hlive : ∀ x ∈ pr.held, ∃ n, h.node x = some n) :
    pr.held.filter h.isGCObject = h.markProperty pr := by
  cases pr with
  | value val => exact filter_refs hi hlive
  | getset getter setter =>
    rw [Property.held, List.filter_append, markProperty,
      filter_pointer hi .object getter nofun fun x hx => hlive x (List.mem_append_left _ hx),
      filter_pointer hi .object setter nofun fun x hx => hlive x (List.mem_append_right _ hx)]
  | varRef v => exact filter_varRef hi v
  | autoinit realm => exact filter_pointer hi .context (some realm) nofun hlive
  | deleted => rfl

theorem filter_data (hi : Inv P h) {u : ClassData} (hlive : ∀ x ∈ u.held, ∃ n, h.node x = some n) :
    u.held.filter h.isGCObject = h.gcMark u := by
  cases u with
  | plain => rfl
  | array values => exact filter_values hi hlive
  | objectData val => exact filter_refs hi hlive
  | mappedArguments varRefs => exact filter_varRefs hi varRefs
  | cFunction realm => exact filter_pointer hi .context realm nofun hlive
  | bytecodeFunction homeObject varRefs functionBytecode =>
    cases functionBytecode with
    | none =>
      rw [ClassData.held, List.filter_append, gcMark,
        filter_pointer hi .object homeObject nofun fun x hx => hlive x (List.mem_append_left _ hx)]
      rfl
    | some b =>
      have hcode : [(⟨.functionBytecode, b⟩ : Ref)].filter h.isGCObject = [⟨.functionBytecode, b⟩] :=
        filter_pointer hi .functionBytecode (some b) nofun fun x hx =>
          hlive x (List.mem_append_right _ (List.mem_append_right _ hx))
      rw [ClassData.held, List.filter_append, gcMark,
        filter_pointer hi .object homeObject nofun fun x hx => hlive x (List.mem_append_left _ hx)]
      rw [List.filter_append, filter_varRefs hi varRefs, hcode]
  | boundFunction funcObj thisVal argv =>
    rw [ClassData.held, List.filter_append, List.filter_append, gcMark,
      filter_refs hi fun x hx => hlive x (List.mem_append_left _ (List.mem_append_left _ hx)),
      filter_refs hi fun x hx => hlive x (List.mem_append_left _ (List.mem_append_right _ hx)),
      filter_values hi fun x hx => hlive x (List.mem_append_right _ hx)]
  | cFunctionData data => exact filter_values hi hlive
  | forInIterator obj => exact filter_refs hi hlive

theorem markNode_perm (hi : Inv P h) (hn : h.node r = some n)
    (hnone : ∀ cpool realm propertyIC, n = .functionBytecode cpool realm propertyIC →
      ∀ e ∈ propertyIC, e.ways = []) :
    (h.markNode n).Perm (n.held.filter h.isGCObject) := by
  have hlive : ∀ x ∈ n.held, ∃ m, h.node x = some m := fun x hx => hi.balanced.held_live hn hx
  cases n with
  | object sh prop u =>
    have hprops : (prop.flatMap Property.held).filter h.isGCObject = prop.flatMap h.markProperty := by
      rw [List.filter_flatMap]
      apply List.flatMap_congr
      intro pr hpr
      exact filter_property hi fun x hx => hlive x (List.mem_append_left _
        (List.mem_append_left _ (List.mem_flatMap.mpr ⟨pr, hpr, hx⟩)))
    have hshape : [(⟨.shape, sh⟩ : Ref)].filter h.isGCObject = [⟨.shape, sh⟩] :=
      filter_pointer hi .shape (some sh) nofun fun x hx =>
        hlive x (List.mem_append_left _ (List.mem_append_right _ hx))
    rw [Node.held, List.filter_append, List.filter_append, hprops, hshape,
      filter_data hi fun x hx => hlive x (List.mem_append_right _ hx), markNode]
    exact List.perm_append_comm.append_right _
  | functionBytecode cpool realm propertyIC =>
    have hcache : propertyICHeld propertyIC = [] := by
      rw [propertyICHeld, List.flatMap_eq_nil_iff]
      intro e he
      rw [wayShapes, hnone cpool realm propertyIC rfl e he, List.map_nil]
    rw [Node.held, hcache] at hlive
    rw [Node.held, hcache, List.nil_append, List.filter_append,
      filter_values hi fun x hx => hlive x (List.mem_append_left _ hx),
      filter_pointer hi .context realm nofun fun x hx => hlive x (List.mem_append_right _ hx), markNode]
  | openVarRef sf varRefIdx => exact .refl _
  | detachedVarRef val =>
    rw [Node.held, filter_refs hi hlive, markNode]
  | shape proto =>
    rw [Node.held, filter_pointer hi .object proto nofun hlive, markNode]
  | context values shapes =>
    have hshapes : (shapes.flatMap (pointer .shape)).filter h.isGCObject =
        shapes.flatMap (pointer .shape) := by
      rw [List.filter_flatMap]
      apply List.flatMap_congr
      intro sh hsh
      exact filter_pointer hi .shape sh nofun fun x hx =>
        hlive x (List.mem_append_right _ (List.mem_flatMap.mpr ⟨sh, hsh, hx⟩))
    rw [Node.held, List.filter_append, hshapes,
      filter_values hi fun x hx => hlive x (List.mem_append_left _ hx), markNode]

theorem markChildren_perm (hi : Inv P h) (hnone : h.RetainsNoShape) (r : Ref) :
    (h.markChildren r).Perm ((h.heldAt Node.held r).filter h.isGCObject) := by
  rw [markChildren, CountedHeap.heldAt]
  cases hn : h.node r with
  | none => exact .refl _
  | some n =>
    apply markNode_perm hi hn
    intro cpool realm propertyIC he
    subst he
    have hkind := hi.kinds r _ hn
    obtain ⟨kind, b⟩ := r
    cases hkind
    exact hnone b cpool realm propertyIC hn

theorem edges_eq :
    h.edges Node.held = h.gcObjList.flatMap (h.heldAt Node.held) := by
  have hskip : ∀ l : List Ref, l.flatMap (h.heldAt Node.held) =
      (l.filter h.isGCObject).flatMap (h.heldAt Node.held) := by
    intro l
    induction l with
    | nil => rfl
    | cons x l ih =>
      cases hgc : h.isGCObject x with
      | true => rw [List.filter_cons_of_pos hgc, List.flatMap_cons, List.flatMap_cons, ih]
      | false =>
        have hnil : h.heldAt Node.held x = [] := by
          rw [isGCObject] at hgc
          rw [CountedHeap.heldAt]
          cases hn : h.node x with
          | none => rfl
          | some n =>
            rw [hn] at hgc
            cases n with
            | openVarRef sf varRefIdx => rfl
            | _ => cases hgc
        rw [List.filter_cons_of_neg (by simp [hgc]), List.flatMap_cons, hnil, List.nil_append, ih]
  exact hskip h.blocks

theorem count_marked (hi : Inv P h) (hnone : h.RetainsNoShape) (hgc : h.isGCObject r = true) :
    (h.gcObjList.flatMap h.markChildren).count r = (h.edges Node.held).count r := by
  have hperm := List.Perm.flatMap_left h.gcObjList fun x _ => markChildren_perm hi hnone x
  rw [hperm.count_eq, ← List.filter_flatMap, List.count_filter hgc, ← edges_eq]

theorem refCount_eq (hi : Inv P h) (hnone : h.RetainsNoShape) (hgc : h.isGCObject r = true) :
    h.refCount r = (h.gcObjList.flatMap h.markChildren).count r + h.outside.count r := by
  have hcount := hi.balanced.counted r
  rw [List.count_nil] at hcount
  rw [count_marked hi hnone hgc]
  omega

theorem mem_marked (hi : Inv P h) (hnone : h.RetainsNoShape) :
    y ∈ h.markChildren x ↔ y ∈ h.heldAt Node.held x ∧ h.isGCObject y = true := by
  rw [(markChildren_perm hi hnone x).mem_iff, List.mem_filter]

def collected (h : JSHeap) (hi : Inv P h) (hnone : h.RetainsNoShape) : Heap Ref where
  objects := h.gcObjList
  nodup := hi.balanced.nodup.filter _
  children := h.markChildren
  closed := by
    intro x _ y hy
    exact (mem_gcObjList hi).mpr ((mem_marked hi hnone).mp hy).2
  refCount := h.refCount
  counted := by
    intro x hx
    have heq := refCount_eq hi hnone ((mem_gcObjList hi).mp hx)
    omega

theorem collected_root (hi : Inv P h) (hnone : h.RetainsNoShape) :
    (h.collected hi hnone).Root r ↔ r ∈ h.gcObjList ∧ r ∈ h.outside := by
  apply and_congr_right
  intro hr
  have heq := refCount_eq hi hnone ((mem_gcObjList hi).mp hr)
  have hpos := List.count_pos_iff (a := r) (l := h.outside)
  change (h.gcObjList.flatMap h.markChildren).count r < h.refCount r ↔ _
  rw [← hpos]
  omega

theorem isGCObject_of_held (hy : y ∈ h.heldAt Node.held x) : h.isGCObject x = true := by
  rw [CountedHeap.heldAt] at hy
  rw [isGCObject]
  cases hn : h.node x with
  | none =>
    rw [hn] at hy
    cases hy
  | some n =>
    rw [hn] at hy
    cases n with
    | openVarRef sf varRefIdx => cases hy
    | _ => rfl

theorem marked_path (hi : Inv P h) (hnone : h.RetainsNoShape) (hgc : h.isGCObject r = true)
    (hpath : Relation.ReflTransGen (fun x y => y ∈ h.heldAt Node.held x) x r) :
    h.isGCObject x = true ∧
      Relation.ReflTransGen (fun x y => y ∈ h.markChildren x) x r := by
  induction hpath using Relation.ReflTransGen.head_induction_on with
  | refl => exact ⟨hgc, .refl⟩
  | head hstep _ ih =>
    exact ⟨isGCObject_of_held hstep, .head ((mem_marked hi hnone).mpr ⟨hstep, ih.1⟩) ih.2⟩

theorem collected_live (hi : Inv P h) (hnone : h.RetainsNoShape) (hr : r ∈ h.gcObjList) :
    (h.collected hi hnone).Live r ↔ h.ReachedFromOutside r := by
  constructor
  · rintro ⟨o, hroot, hpath⟩
    refine ⟨o, ((collected_root hi hnone).mp hroot).2, ?_⟩
    exact Relation.ReflTransGen.mono (fun x y hy => ((mem_marked hi hnone).mp hy).1) _ _ hpath
  · rintro ⟨o, ho, hpath⟩
    obtain ⟨hgc, hmarked⟩ := marked_path hi hnone ((mem_gcObjList hi).mp hr) hpath
    exact ⟨o, (collected_root hi hnone).mpr ⟨(mem_gcObjList hi).mpr hgc, ho⟩, hmarked⟩

theorem everyEdgeEnumerated (hi : Inv P h) (hnone : h.RetainsNoShape) : EveryEdgeEnumerated h where
  enumerated r _ := markChildren_perm hi hnone r
  outsideHolders r hr := refCount_eq hi hnone ((mem_gcObjList hi).mp hr)
  collected := by
    intro stale
    obtain ⟨rt, hrun, hfound⟩ := (h.collected hi hnone).found stale
    refine ⟨rt, hrun, ?_⟩
    intro r
    rw [hfound.garbage r]
    apply and_congr_right
    intro hr
    exact not_congr (collected_live hi hnone hr)

theorem retainsNoShape (hi : Inv P h) (he : EveryEdgeEnumerated h) :
    h.RetainsNoShape := by
  intro b cpool realm propertyIC hb e hmem
  by_contra hways
  obtain ⟨w, hw⟩ := List.exists_mem_of_ne_nil _ hways
  have hheld : (⟨.shape, w.shape⟩ : Ref) ∈ (Node.functionBytecode cpool realm propertyIC).held :=
    List.mem_append_left _ (List.mem_append_left _
      (List.mem_flatMap.mpr ⟨e, hmem, List.mem_map.mpr ⟨w, hw, rfl⟩⟩))
  obtain ⟨n, hn⟩ := hi.balanced.held_live hb hheld
  have hgc := isGCObject_of_kind hi hn nofun
  have hlisted : (⟨.functionBytecode, b⟩ : Ref) ∈ h.gcObjList :=
    (mem_gcObjList hi).mpr (isGCObject_of_kind hi hb nofun)
  have hmarked : (⟨.shape, w.shape⟩ : Ref) ∈ h.markChildren ⟨.functionBytecode, b⟩ := by
    apply (he.enumerated _ hlisted).mem_iff.mpr
    rw [CountedHeap.heldAt, hb]
    exact List.mem_filter.mpr ⟨hheld, hgc⟩
  rw [markChildren, hb] at hmarked
  rcases List.mem_append.mp hmarked with hconst | hrealm
  · obtain ⟨val, -, hval⟩ := List.mem_flatMap.mp hconst
    rcases refs_kind hval with hkind | hkind
    · cases hkind
    · cases hkind
  · cases pointer_kind hrealm

end

end JSHeap

def Node.NoWays (n : Node) : Prop :=
  ∀ cpool realm propertyIC, n = .functionBytecode cpool realm propertyIC →
    ∀ e ∈ propertyIC, e.ways = []

theorem spares_true : JSHeap.Spares fun _ => True where
  object _ _ _ := trivial
  openVarRef _ _ := trivial
  detachedVarRef _ := trivial
  shape _ := trivial
  context _ _ := trivial
  created _ _ := trivial
  looked _ _ _ _ _ _ _ _ _ _ _ := trivial

theorem spares_noWays : JSHeap.Spares Node.NoWays where
  object _ _ _ := nofun
  openVarRef _ _ := nofun
  detachedVarRef _ := nofun
  shape _ := nofun
  context _ _ := nofun
  created := by
    intro cpool realm _ _ _ heq
    cases heq
    nofun
  looked := by
    intro cpool realm propertyIC table i e e' hold htable hget hways _ _ _ heq
    cases heq
    have htableWays : ∀ e ∈ table, e.ways = [] := by
      intro e he
      rw [htable] at he
      split at he
      · rw [List.eq_of_mem_replicate he]
        rfl
      · exact hold _ _ _ rfl e he
    intro f hf
    rcases List.mem_or_eq_of_mem_set hf with hmem | rfl
    · exact htableWays f hmem
    · rw [hways]
      exact htableWays e (List.mem_of_getElem? hget)

section

open JSHeap

/-- Every counted reference is enumerated exactly in the heaps whose property caches retain no
shape, and these are all heaps of a run that fills no cache. -/
theorem every_counted_edge_is_enumerated_iff (ops : List HeapOp) (h : JSHeap)
    (hr : runHeap ops = some h) :
    (EveryEdgeEnumerated h ↔ h.RetainsNoShape) ∧
      ((∀ op ∈ ops, op.fillsCache = false) → EveryEdgeEnumerated h) := by
  have hi : Inv (fun _ => True) h := runHeap_inv spares_true (fun _ _ _ _ => trivial) hr
  refine ⟨⟨retainsNoShape hi, everyEdgeEnumerated hi⟩, ?_⟩
  intro hquiet
  have hw : Inv Node.NoWays h := by
    apply runHeap_inv spares_noWays _ hr
    intro op hop hfill
    rw [hquiet op hop] at hfill
    cases hfill
  apply everyEdgeEnumerated hi
  intro b cpool realm propertyIC hb
  exact hw.nodes _ _ hb cpool realm propertyIC rfl

/-- A constructor's prototype with a method: the context `0`, the prototype `1` with the shape
`0`, an instance `2` whose shape `1` leads to the prototype, and the method `3` with the
bytecode `0`. -/
def prototypeOps : List HeapOp :=
  [.newContextRaw 0 1,
    .newShape 0 none, .dup ⟨.shape, 0⟩,
    .newObjectFromShape 1 0 .plain [],
    .newShape 1 (some 1),
    .newObjectFromShape 2 1 .plain [.value .plain],
    .createFunction 0 0 [],
    .newObjectFromShape 3 0 (.bytecodeFunction none [] none) [],
    .closure 3 0 [],
    .addProperty 1 (.value (.object 3))]

theorem prototype_is_enumerated : ∃ h, runHeap prototypeOps = some h ∧ EveryEdgeEnumerated h := by
  have hsome : (runHeap prototypeOps).isSome := by decide +kernel
  obtain ⟨h, hr⟩ := Option.isSome_iff_exists.mp hsome
  have hquiet : ∀ op ∈ prototypeOps, op.fillsCache = false := by decide
  exact ⟨h, hr, (every_counted_edge_is_enumerated_iff prototypeOps h hr).2 hquiet⟩

def leakingOps : List HeapOp :=
  prototypeOps ++
    [.icFill 0 7 2 100 0, .free ⟨.object, 2⟩, .free ⟨.object, 1⟩, .free ⟨.context, 0⟩]

/-- The shape in the cache of the method leads to the prototype, and from there back to the
method: nothing outside refers to them, and the collector finds no garbage. -/
theorem retained_shape_leaks_the_prototype :
    ∃ h, runHeap leakingOps = some h ∧ h.outside = [] ∧ ⟨.object, 1⟩ ∈ h.gcObjList ∧
      (findGarbage h.markChildren (h.collectorRuntime [])).map (·.tmpObjList) = some [] ∧
      ¬ EveryEdgeEnumerated h := by
  have heval : (runHeap leakingOps).map (fun h => (h.outside, h.gcObjList.contains ⟨.object, 1⟩,
      (findGarbage h.markChildren (h.collectorRuntime [])).map (·.tmpObjList))) =
        some ([], true, some []) := by decide +kernel
  obtain ⟨h, hr, hvals⟩ := Option.map_eq_some_iff.mp heval
  obtain ⟨hout, hrest⟩ := Prod.mk.inj hvals
  obtain ⟨hcontains, hfound⟩ := Prod.mk.inj hrest
  have hmem : (⟨.object, 1⟩ : Ref) ∈ h.gcObjList := by simpa using hcontains
  refine ⟨h, hr, hout, hmem, hfound, ?_⟩
  intro he
  obtain ⟨rt, hrun, hgarbage⟩ := he.collected []
  rw [hrun] at hfound
  have htmp : rt.tmpObjList = [] := Option.some.inj hfound
  have hlost : (⟨.object, 1⟩ : Ref) ∈ rt.tmpObjList := by
    apply (hgarbage _).mpr
    refine ⟨hmem, ?_⟩
    rintro ⟨o, ho, -⟩
    rw [hout] at ho
    cases ho
  rw [htmp] at hlost
  cases hlost

end

namespace JSHeap

def retainedShapes (h : JSHeap) (r : Ref) : List Ref :=
  match h.node r with
  | some (.functionBytecode _ _ propertyIC) => propertyICHeld propertyIC
  | _ => []

def collectorRoots (h : JSHeap) : List Ref := h.outside ++ h.gcObjList.flatMap h.retainedShapes

def ReachedFromRoots (h : JSHeap) (r : Ref) : Prop :=
  ∃ o ∈ h.collectorRoots, Relation.ReflTransGen (fun x y => y ∈ h.heldAt Node.held x) o r

section

variable {P : Node → Prop} {h : JSHeap} {r x y : Ref}

theorem retained_marked_perm (hi : Inv P h) (r : Ref) :
    (h.retainedShapes r ++ h.markChildren r).Perm
      ((h.heldAt Node.held r).filter h.isGCObject) := by
  rw [retainedShapes, markChildren, CountedHeap.heldAt]
  cases hn : h.node r with
  | none => exact .refl _
  | some n =>
    have hlive : ∀ x ∈ n.held, ∃ m, h.node x = some m :=
      fun x hx => hi.balanced.held_live hn hx
    cases n with
    | functionBytecode cpool realm propertyIC =>
      have hcache : (propertyICHeld propertyIC).filter h.isGCObject = propertyICHeld propertyIC := by
        refine filter_others hi (fun x hx => hlive x (List.mem_append_left _
          (List.mem_append_left _ hx))) fun x hx => ?_
        obtain ⟨e, -, hx⟩ := List.mem_flatMap.mp hx
        obtain ⟨w, -, rfl⟩ := List.mem_map.mp hx
        exact Kind.noConfusion
      simp only [Option.elim, Node.held, markNode, List.filter_append, List.append_assoc, hcache]
      rw [filter_values hi fun x hx => hlive x (List.mem_append_left _ (List.mem_append_right _ hx)),
        filter_pointer hi .context realm Kind.noConfusion fun x hx =>
          hlive x (List.mem_append_right _ hx)]
    | _ => exact markNode_perm hi hn fun _ _ _ he => by cases he

theorem mem_held (hi : Inv P h) : y ∈ h.heldAt Node.held x ∧ h.isGCObject y = true ↔
    y ∈ h.retainedShapes x ∨ y ∈ h.markChildren x := by
  rw [← List.mem_append, (retained_marked_perm hi x).mem_iff, List.mem_filter]

theorem refCount_roots (hi : Inv P h) (hgc : h.isGCObject r = true) :
    h.refCount r = (h.gcObjList.flatMap h.markChildren).count r + h.collectorRoots.count r := by
  have hcount := hi.balanced.counted r
  have hperm := List.Perm.flatMap_left h.gcObjList fun x _ => retained_marked_perm hi x
  have hedges : (h.edges Node.held).count r =
      (h.gcObjList.flatMap h.retainedShapes).count r +
        (h.gcObjList.flatMap h.markChildren).count r := by
    rw [edges_eq, ← List.count_filter hgc, List.filter_flatMap, ← hperm.count_eq,
      ← (List.flatMap_append_perm _ _ _).count_eq, List.count_append]
  rw [List.count_nil] at hcount
  rw [collectorRoots, List.count_append]
  omega

def collectedHeap (h : JSHeap) (hi : Inv P h) : Heap Ref where
  objects := h.gcObjList
  nodup := hi.balanced.nodup.filter _
  children := h.markChildren
  closed x _ y hy := (mem_gcObjList hi).mpr ((mem_held hi).mpr (.inr hy)).2
  refCount := h.refCount
  counted x hx := by
    have heq := refCount_roots hi ((mem_gcObjList hi).mp hx)
    omega

theorem collectedHeap_root (hi : Inv P h) :
    (h.collectedHeap hi).Root r ↔ r ∈ h.gcObjList ∧ r ∈ h.collectorRoots := by
  apply and_congr_right
  intro hr
  have heq := refCount_roots hi ((mem_gcObjList hi).mp hr)
  have hpos := List.count_pos_iff (a := r) (l := h.collectorRoots)
  change (h.gcObjList.flatMap h.markChildren).count r < h.refCount r ↔ _
  rw [← hpos]
  omega

theorem live_of_held (hi : Inv P h) (hx : (h.collectedHeap hi).Live x)
    (hy : y ∈ h.heldAt Node.held x) (hgc : h.isGCObject y = true) :
    (h.collectedHeap hi).Live y := by
  rcases (mem_held hi).mp ⟨hy, hgc⟩ with hretained | hmarked
  · have hlisted : x ∈ h.gcObjList := (mem_gcObjList hi).mpr (isGCObject_of_held hy)
    refine ⟨y, (collectedHeap_root hi).mpr ⟨(mem_gcObjList hi).mpr hgc, ?_⟩, .refl⟩
    exact List.mem_append_right _ (List.mem_flatMap.mpr ⟨x, hlisted, hretained⟩)
  · exact hx.child hmarked

theorem collectedHeap_live (hi : Inv P h) (hr : r ∈ h.gcObjList) :
    (h.collectedHeap hi).Live r ↔ h.ReachedFromRoots r := by
  constructor
  · rintro ⟨o, hroot, hpath⟩
    refine ⟨o, ((collectedHeap_root hi).mp hroot).2, ?_⟩
    exact Relation.ReflTransGen.mono (fun x y hy => ((mem_held hi).mpr (.inr hy)).1) _ _ hpath
  · rintro ⟨o, ho, hpath⟩
    have hgc := (mem_gcObjList hi).mp hr
    -- Every block on the path is a GC object: it holds the next one, or is the last one.
    induction hpath with
    | refl => exact ⟨o, (collectedHeap_root hi).mpr ⟨hr, ho⟩, .refl⟩
    | tail _ hstep ih =>
      have hheld := isGCObject_of_held hstep
      exact live_of_held hi (ih ((mem_gcObjList hi).mpr hheld) hheld) hstep hgc

end

end JSHeap

section

open JSHeap

/-- In every heap of a run, the collector finds its garbage without a failed assertion, and this is
what no reference from outside and no retained shape leads to; the counts are as before. -/
theorem collector_spares_reachable (ops : List HeapOp) (h : JSHeap) (hr : runHeap ops = some h)
    (stale : List Ref) :
    ∃ rt, findGarbage h.markChildren (h.collectorRuntime stale) = some rt ∧
      (∀ r, r ∈ rt.tmpObjList ↔ r ∈ h.gcObjList ∧ ¬ h.ReachedFromRoots r) ∧
      (∀ r ∈ rt.tmpObjList, ¬ h.ReachedFromOutside r) ∧
      (∀ r ∈ h.gcObjList, rt.refCount r = h.refCount r) ∧
      (rt.gcObjList ++ rt.tmpObjList).Perm h.gcObjList := by
  have hi : Inv (fun _ => True) h := runHeap_inv spares_true (fun _ _ _ _ => trivial) hr
  obtain ⟨rt, hrun, hfound⟩ := (h.collectedHeap hi).found stale
  have hgarbage (r : Ref) : r ∈ rt.tmpObjList ↔ r ∈ h.gcObjList ∧ ¬ h.ReachedFromRoots r := by
    rw [hfound.garbage r]
    apply and_congr_right
    intro hr
    exact not_congr (collectedHeap_live hi hr)
  refine ⟨rt, hrun, hgarbage, ?_, hfound.counts, hfound.lists⟩
  rintro r hr ⟨o, ho, hpath⟩
  exact ((hgarbage r).mp hr).2 ⟨o, List.mem_append_left _ ho, hpath⟩

theorem leaking_heap_is_collected :
    ∃ h rt, runHeap leakingOps = some h ∧
      findGarbage h.markChildren (h.collectorRuntime []) = some rt ∧
      ∀ r, r ∈ rt.tmpObjList ↔ r ∈ h.gcObjList ∧ ¬ h.ReachedFromRoots r := by
  have hsome : (runHeap leakingOps).isSome := by decide +kernel
  obtain ⟨h, hr⟩ := Option.isSome_iff_exists.mp hsome
  obtain ⟨rt, hrun, hgarbage, -⟩ := collector_spares_reachable leakingOps h hr []
  exact ⟨h, rt, hr, hrun, hgarbage⟩

end

end TurboJS.GC
