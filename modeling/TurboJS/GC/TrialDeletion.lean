import TurboJS.Foundation.Cursor
import Mathlib.Data.List.Count
import Mathlib.Data.List.Perm.Basic
import Mathlib.Data.List.Nodup

namespace TurboJS.GC
open Foundation

/-! The cycle collector's two passes over the GC objects. -/

universe u

variable {α : Type u} [DecidableEq α]

structure Runtime (α : Type u) where
  refCount : α → Nat
  mark : α → Nat
  gcObjList : List α
  tmpObjList : List α

/-- `list_del`: an object is linked in one list. -/
def Runtime.listDel (rt : Runtime α) (p : α) : Runtime α :=
  { rt with gcObjList := rt.gcObjList.erase p, tmpObjList := rt.tmpObjList.erase p }

def Runtime.moveToTmp (rt : Runtime α) (p : α) : Runtime α :=
  let rt := rt.listDel p
  { rt with tmpObjList := rt.tmpObjList ++ [p] }

def Runtime.moveToGc (rt : Runtime α) (p : α) : Runtime α :=
  let rt := rt.listDel p
  { rt with gcObjList := rt.gcObjList ++ [p] }

def Runtime.setMark (rt : Runtime α) (p : α) (mark : Nat) : Runtime α :=
  { rt with mark := Function.update rt.mark p mark }

def Runtime.setRefCount (rt : Runtime α) (p : α) (count : Nat) : Runtime α :=
  { rt with refCount := Function.update rt.refCount p count }

/-- `gc_decref_child`; a failed assertion gives no result. -/
def gcDecrefChild (rt : Runtime α) (p : α) : Option (Runtime α) :=
  if 0 < rt.refCount p then
    let rt := rt.setRefCount p (rt.refCount p - 1)
    some (if rt.refCount p = 0 ∧ rt.mark p = 1 then rt.moveToTmp p else rt)
  else none

/-- One round of the loop of `gc_decref`. -/
def gcDecrefObject (children : α → List α) (rt : Runtime α) (p : α) : Option (Runtime α) :=
  if rt.mark p = 0 then
    ((children p).foldlM gcDecrefChild rt).bind fun rt =>
      let rt := rt.setMark p 1
      some (if rt.refCount p = 0 then rt.moveToTmp p else rt)
  else none

def gcDecref (children : α → List α) (rt : Runtime α) : Option (Runtime α) :=
  forEachSafe Runtime.gcObjList (gcDecrefObject children) rt.gcObjList.length
    rt.gcObjList.head? { rt with tmpObjList := [] }

def gcScanIncrefChild (rt : Runtime α) (p : α) : Runtime α :=
  let rt := rt.setRefCount p (rt.refCount p + 1)
  if rt.refCount p = 1 then (rt.moveToGc p).setMark p 0 else rt

def gcScanIncrefChild2 (rt : Runtime α) (p : α) : Runtime α :=
  rt.setRefCount p (rt.refCount p + 1)

/-- One round of the first loop of `gc_scan`. -/
def gcScanObject (children : α → List α) (rt : Runtime α) (p : α) : Option (Runtime α) :=
  if 0 < rt.refCount p then
    some ((children p).foldl gcScanIncrefChild (rt.setMark p 0))
  else none

/-- One round of the second loop of `gc_scan`. -/
def gcScanGarbage (children : α → List α) (rt : Runtime α) (p : α) : Option (Runtime α) :=
  some ((children p).foldl gcScanIncrefChild2 rt)

def gcScan (children : α → List α) (rt : Runtime α) : Option (Runtime α) :=
  (forEach Runtime.gcObjList (gcScanObject children)
    (rt.gcObjList.length + rt.tmpObjList.length) rt.gcObjList.head? rt).bind fun rt =>
  forEach Runtime.tmpObjList (gcScanGarbage children) rt.tmpObjList.length rt.tmpObjList.head? rt

/-- The phases of `JS_RunGC` that find the garbage. -/
def findGarbage (children : α → List α) (rt : Runtime α) : Option (Runtime α) :=
  (gcDecref children rt).bind (gcScan children)

/-- A heap of GC objects: `children` enumerates the counted edges of an object, and each object
is counted at least once for each edge into it. -/
structure Heap (α : Type u) [DecidableEq α] where
  objects : List α
  nodup : objects.Nodup
  children : α → List α
  closed : ∀ x ∈ objects, ∀ y ∈ children x, y ∈ objects
  refCount : α → Nat
  counted : ∀ x ∈ objects, (objects.flatMap children).count x ≤ refCount x

def Heap.incoming (h : Heap α) (x : α) : Nat := (h.objects.flatMap h.children).count x

def Heap.runtime (h : Heap α) (stale : List α) : Runtime α where
  refCount := h.refCount
  mark := fun _ => 0
  gcObjList := h.objects
  tmpObjList := stale

def Heap.Root (h : Heap α) (x : α) : Prop := x ∈ h.objects ∧ h.incoming x < h.refCount x

def Heap.Live (h : Heap α) (x : α) : Prop :=
  ∃ r, h.Root r ∧ Relation.ReflTransGen (fun y z => z ∈ h.children y) r x

structure Found (h : Heap α) (rt : Runtime α) : Prop where
  garbage : ∀ x, x ∈ rt.tmpObjList ↔ x ∈ h.objects ∧ ¬ h.Live x
  kept : ∀ x ∈ h.objects, x ∉ rt.tmpObjList → x ∈ rt.gcObjList ∧ rt.mark x = 0
  counts : ∀ x ∈ h.objects, rt.refCount x = h.refCount x
  lists : (rt.gcObjList ++ rt.tmpObjList).Perm h.objects

/-- The state of `gc_decref` once it has passed the objects `done` and the edges to `passed`. -/
structure Decreased (h : Heap α) (passed done : List α) (rt : Runtime α) : Prop where
  counts : ∀ x ∈ h.objects, rt.refCount x + passed.count x = h.refCount x
  marks : ∀ x ∈ h.objects, rt.mark x = if x ∈ done then 1 else 0
  gcList : rt.gcObjList = h.objects.filter fun x => !(decide (x ∈ done) && rt.refCount x == 0)
  tmpNodup : rt.tmpObjList.Nodup
  tmpList : ∀ x, x ∈ rt.tmpObjList ↔ x ∈ h.objects ∧ x ∈ done ∧ rt.refCount x = 0

section

variable {h : Heap α} {rt rt' : Runtime α} {passed done todo : List α} {p c x : α}

theorem filter_erase {l : List α} (hl : l.Nodup) {keep keep' : α → Bool}
    (hkeep : ∀ x ∈ l, keep' x = (keep x && x != c)) :
    (l.filter keep).erase c = l.filter keep' := by
  rw [(hl.filter keep).erase_eq_filter, List.filter_filter]
  apply List.filter_congr
  intro x hx
  rw [hkeep x hx, Bool.and_comm]

theorem Decreased.child (hd : Decreased h passed done rt) (hc : c ∈ h.objects)
    (hedges : passed.count c < h.incoming c) :
    ∃ rt', gcDecrefChild rt c = some rt' ∧ Decreased h (passed ++ [c]) done rt' := by
  have hcount := hd.counts c hc
  have hincoming : h.incoming c ≤ h.refCount c := h.counted c hc
  have hpos : 0 < rt.refCount c := by omega
  have hsame : ∀ x, x ≠ c → (rt.setRefCount c (rt.refCount c - 1)).refCount x = rt.refCount x :=
    fun x hx => Function.update_of_ne hx _ _
  have hself : (rt.setRefCount c (rt.refCount c - 1)).refCount c = rt.refCount c - 1 :=
    Function.update_self _ _ _
  have hcounts : ∀ x ∈ h.objects, (rt.setRefCount c (rt.refCount c - 1)).refCount x +
      (passed ++ [c]).count x = h.refCount x := by
    intro x hx
    rw [List.count_append, List.count_singleton']
    by_cases hxc : x = c
    · subst hxc
      rw [hself, if_pos rfl]
      omega
    · rw [hsame x hxc, if_neg (fun he => hxc he.symm)]
      exact hd.counts x hx
  have hfresh : c ∉ rt.tmpObjList := by
    intro hmem
    have hzero := ((hd.tmpList c).mp hmem).2.2
    omega
  have hmark : rt.mark c = 1 ↔ c ∈ done := by
    rw [hd.marks c hc]
    split <;> simp_all
  rw [gcDecrefChild, if_pos hpos]
  refine ⟨_, rfl, ?_⟩
  split
  · rename_i hmove
    obtain ⟨hzero, hmarked⟩ := hmove
    have hdone : c ∈ done := hmark.mp hmarked
    refine ⟨hcounts, hd.marks, ?_, ?_, ?_⟩
    · change rt.gcObjList.erase c = _
      rw [hd.gcList]
      apply filter_erase h.nodup
      intro x hx
      by_cases hxc : x = c
      · subst hxc
        simp [Runtime.moveToTmp, Runtime.listDel, hzero, hdone]
      · simp [Runtime.moveToTmp, Runtime.listDel, hsame x hxc, hxc]
    · change (rt.tmpObjList.erase c ++ [c]).Nodup
      rw [List.erase_of_not_mem hfresh]
      exact List.nodup_append.mpr ⟨hd.tmpNodup, List.nodup_singleton c, by
        intro a ha b hb
        rw [List.mem_singleton.mp hb]
        exact fun he => hfresh (he ▸ ha)⟩
    · intro x
      change x ∈ rt.tmpObjList.erase c ++ [c] ↔ x ∈ h.objects ∧ x ∈ done ∧
        (rt.setRefCount c (rt.refCount c - 1)).refCount x = 0
      rw [List.erase_of_not_mem hfresh, List.mem_append, List.mem_singleton]
      by_cases hxc : x = c
      · subst hxc
        exact ⟨fun _ => ⟨hc, hdone, hzero⟩, fun _ => .inr rfl⟩
      · rw [hsame x hxc, hd.tmpList x]
        exact ⟨fun hx => hx.resolve_right hxc, fun hx => .inl hx⟩
  · rename_i hstay
    have hstay' : c ∈ done → rt.refCount c - 1 ≠ 0 := by
      intro hdone hzero
      exact hstay ⟨hself.trans hzero, hmark.mpr hdone⟩
    refine ⟨hcounts, hd.marks, ?_, hd.tmpNodup, ?_⟩
    · change rt.gcObjList = _
      rw [hd.gcList]
      apply List.filter_congr
      intro x hx
      by_cases hxc : x = c
      · subst hxc
        by_cases hdone : x ∈ done
        · simp [hself, hstay' hdone, hdone, Nat.ne_of_gt hpos]
        · simp [hdone]
      · rw [hsame x hxc]
    · intro x
      change x ∈ rt.tmpObjList ↔ x ∈ h.objects ∧ x ∈ done ∧
        (rt.setRefCount c (rt.refCount c - 1)).refCount x = 0
      rw [hd.tmpList x]
      by_cases hxc : x = c
      · subst hxc
        rw [hself]
        constructor
        · rintro ⟨-, -, hzero⟩
          omega
        · rintro ⟨-, hdone, hzero⟩
          exact absurd hzero (hstay' hdone)
      · rw [hsame x hxc]

theorem passed_lt_incoming {front back : List α} (hobjects : h.objects = done ++ p :: todo)
    (hchildren : h.children p = front ++ c :: back) :
    (done.flatMap h.children ++ front).count c < h.incoming c := by
  rw [Heap.incoming, hobjects, List.flatMap_append, List.flatMap_cons, hchildren]
  simp only [List.count_append, List.count_cons_self]
  omega

theorem Decreased.children (hobjects : h.objects = done ++ p :: todo)
    (hd : Decreased h (done.flatMap h.children) done rt) :
    ∃ rt', (h.children p).foldlM gcDecrefChild rt = some rt' ∧
      Decreased h ((done ++ [p]).flatMap h.children) done rt' := by
  have hp : p ∈ h.objects := by simp [hobjects]
  have hstep : ∀ front c back rt, h.children p = front ++ c :: back →
      Decreased h (done.flatMap h.children ++ front) done rt →
      ∃ rt', gcDecrefChild rt c = some rt' ∧
        Decreased h (done.flatMap h.children ++ (front ++ [c])) done rt' := by
    intro front c back rt hchildren hj
    have hc : c ∈ h.objects := h.closed p hp c (by simp [hchildren])
    obtain ⟨rt', hrt', hj'⟩ := hj.child hc (passed_lt_incoming hobjects hchildren)
    exact ⟨rt', hrt', by simpa using hj'⟩
  obtain ⟨rt', hrt', hd'⟩ := foldlM_rule
    (J := fun front rt => Decreased h (done.flatMap h.children ++ front) done rt) hstep
    (by simpa using hd)
  exact ⟨rt', hrt', by simpa using hd'⟩

/-- An object that has been passed gets its mark, and leaves if nothing is left of its count. -/
theorem Decreased.object (hobjects : h.objects = done ++ p :: todo)
    (hd : Decreased h (done.flatMap h.children) done rt) :
    ∃ rt', gcDecrefObject h.children rt p = some rt' ∧
      Decreased h ((done ++ [p]).flatMap h.children) (done ++ [p]) rt' := by
  have hp : p ∈ h.objects := by simp [hobjects]
  have hnodup := h.nodup
  rw [hobjects] at hnodup
  have hfresh : p ∉ done := by
    intro hmem
    exact (List.nodup_append.mp hnodup).2.2 p hmem p List.mem_cons_self rfl
  have hunmarked : rt.mark p = 0 := by
    rw [hd.marks p hp, if_neg hfresh]
  obtain ⟨rt', hrt', hd'⟩ := hd.children hobjects
  have hmarks : ∀ x ∈ h.objects, (rt'.setMark p 1).mark x = if x ∈ done ++ [p] then 1 else 0 := by
    intro x hx
    by_cases hxp : x = p
    · subst hxp
      simp [Runtime.setMark]
    · simp [Runtime.setMark, hxp, hd'.marks x hx]
  have hnot : p ∉ rt'.tmpObjList := fun hmem => hfresh ((hd'.tmpList p).mp hmem).2.1
  rw [gcDecrefObject, if_pos hunmarked, hrt', Option.bind_some]
  refine ⟨_, rfl, ?_⟩
  split
  · rename_i hzero
    change rt'.refCount p = 0 at hzero
    refine ⟨hd'.counts, hmarks, ?_, ?_, ?_⟩
    · change rt'.gcObjList.erase p = _
      rw [hd'.gcList]
      apply filter_erase h.nodup
      intro x hx
      by_cases hxp : x = p
      · subst hxp
        simp [Runtime.moveToTmp, Runtime.listDel, Runtime.setMark, hzero]
      · simp [Runtime.moveToTmp, Runtime.listDel, Runtime.setMark, hxp]
    · change (rt'.tmpObjList.erase p ++ [p]).Nodup
      rw [List.erase_of_not_mem hnot]
      exact List.nodup_append.mpr ⟨hd'.tmpNodup, List.nodup_singleton p, by
        intro a ha b hb
        rw [List.mem_singleton.mp hb]
        exact fun he => hnot (he ▸ ha)⟩
    · intro x
      change x ∈ rt'.tmpObjList.erase p ++ [p] ↔ x ∈ h.objects ∧ x ∈ done ++ [p] ∧
        rt'.refCount x = 0
      rw [List.erase_of_not_mem hnot, List.mem_append, List.mem_singleton, hd'.tmpList x]
      by_cases hxp : x = p
      · subst hxp
        simp [hp, hzero]
      · simp [hxp]
  · rename_i hpos
    change rt'.refCount p ≠ 0 at hpos
    refine ⟨hd'.counts, hmarks, ?_, hd'.tmpNodup, ?_⟩
    · change rt'.gcObjList = _
      rw [hd'.gcList]
      apply List.filter_congr
      intro x hx
      by_cases hxp : x = p
      · subst hxp
        simp [Runtime.setMark, hpos]
      · simp [Runtime.setMark, hxp]
    · intro x
      change x ∈ rt'.tmpObjList ↔ x ∈ h.objects ∧ x ∈ done ++ [p] ∧ rt'.refCount x = 0
      rw [hd'.tmpList x]
      by_cases hxp : x = p
      · subst hxp
        simp [hfresh, hpos]
      · simp [hxp]

theorem Decreased.next (hobjects : h.objects = done ++ p :: todo)
    (hd : Decreased h (done.flatMap h.children) done rt) :
    nextIn rt.gcObjList p = todo.head? := by
  have hnodup := h.nodup
  rw [hobjects] at hnodup
  obtain ⟨-, -, hdisjoint⟩ := List.nodup_append.mp hnodup
  have hrest : (p :: todo).filter (fun x => !(decide (x ∈ done) && rt.refCount x == 0)) =
      p :: todo := by
    apply List.filter_eq_self.mpr
    intro x hx
    have hx' : x ∉ done := fun hmem => hdisjoint x hmem x hx rfl
    simp [hx']
  rw [hd.gcList, hobjects, List.filter_append, hrest]
  apply nextIn_append
  intro hmem
  exact hdisjoint p (List.mem_filter.mp hmem).1 p List.mem_cons_self rfl

theorem gcDecref_decreased (h : Heap α) (stale : List α) :
    ∃ rt, gcDecref h.children (h.runtime stale) = some rt ∧
      Decreased h (h.objects.flatMap h.children) h.objects rt := by
  have hstart : h.objects = [] ++ h.objects ∧ Decreased h (([] : List α).flatMap h.children) []
      { h.runtime stale with tmpObjList := [] } := by
    refine ⟨rfl, ?_, ?_, ?_, List.nodup_nil, ?_⟩
    · intro x hx
      simp [Heap.runtime]
    · intro x hx
      simp [Heap.runtime]
    · simp [Heap.runtime]
    · simp
  have hnext : ∀ done p todo (rt : Runtime α),
      (h.objects = done ++ p :: todo ∧ Decreased h (done.flatMap h.children) done rt) →
      nextIn rt.gcObjList p = todo.head? := by
    rintro done p todo rt ⟨hobjects, hd⟩
    exact hd.next hobjects
  have hbody : ∀ done p todo (rt : Runtime α),
      (h.objects = done ++ p :: todo ∧ Decreased h (done.flatMap h.children) done rt) →
      ∃ rt', gcDecrefObject h.children rt p = some rt' ∧ h.objects = (done ++ [p]) ++ todo ∧
        Decreased h ((done ++ [p]).flatMap h.children) (done ++ [p]) rt' := by
    rintro done p todo rt ⟨hobjects, hd⟩
    obtain ⟨rt', hrt', hd'⟩ := hd.object hobjects
    exact ⟨rt', hrt', by simp [hobjects], hd'⟩
  obtain ⟨rt, hrt, -, hd⟩ := forEachSafe_rule
    (I := fun done todo rt => h.objects = done ++ todo ∧
      Decreased h (done.flatMap h.children) done rt)
    hnext hbody hstart (Nat.le_refl _)
  exact ⟨rt, hrt, by simpa using hd⟩

end

/-- The state of the first loop of `gc_scan` once it has passed the objects `done` and the
edges to `passed`; `base` holds the counts that `gc_decref` left. -/
structure Scanned (h : Heap α) (base : α → Nat) (passed done todo : List α) (rt : Runtime α) :
    Prop where
  gcList : rt.gcObjList = done ++ todo
  lists : (rt.gcObjList ++ rt.tmpObjList).Perm h.objects
  counts : ∀ x ∈ h.objects, rt.refCount x = base x + passed.count x
  listed : ∀ x ∈ h.objects, x ∈ rt.gcObjList ↔ 0 < rt.refCount x
  live : ∀ x ∈ rt.gcObjList, h.Live x
  marks : ∀ x ∈ done, rt.mark x = 0

section

variable {h : Heap α} {rt rt' : Runtime α} {passed done todo cs : List α} {p c x : α}
  {base : α → Nat}

theorem Heap.Live.child (hp : h.Live p) (hc : c ∈ h.children p) : h.Live c := by
  obtain ⟨r, hr, hpath⟩ := hp
  exact ⟨r, hr, hpath.tail hc⟩

theorem Scanned.nodup (hs : Scanned h base passed done todo rt) :
    (rt.gcObjList ++ rt.tmpObjList).Nodup := hs.lists.nodup_iff.mpr h.nodup

theorem Scanned.child (hs : Scanned h base passed done todo rt) (hc : c ∈ h.objects)
    (hlive : h.Live c) :
    ∃ added, Scanned h base (passed ++ [c]) done (todo ++ added) (gcScanIncrefChild rt c) := by
  have hcounts : ∀ x ∈ h.objects, (rt.setRefCount c (rt.refCount c + 1)).refCount x =
      base x + (passed ++ [c]).count x := by
    intro x hx
    have hcount := hs.counts x hx
    rw [List.count_append, List.count_singleton']
    by_cases hxc : x = c
    · subst hxc
      simp only [Runtime.setRefCount, Function.update_self, if_true]
      omega
    · simp only [Runtime.setRefCount, Function.update_of_ne hxc, if_neg (Ne.symm hxc)]
      omega
  by_cases hzero : rt.refCount c = 0
  · have hnot : c ∉ rt.gcObjList := by
      rw [hs.listed c hc]
      omega
    have hmem : c ∈ rt.tmpObjList := by
      have hin := hs.lists.mem_iff.mpr hc
      exact (List.mem_append.mp hin).resolve_left hnot
    have hmoved : gcScanIncrefChild rt c =
        (((rt.setRefCount c 1).moveToGc c).setMark c 0) := by
      simp [gcScanIncrefChild, hzero, Runtime.setRefCount]
    have hgc : (gcScanIncrefChild rt c).gcObjList = rt.gcObjList ++ [c] := by
      rw [hmoved]
      change rt.gcObjList.erase c ++ [c] = _
      rw [List.erase_of_not_mem hnot]
    have hrefs : (gcScanIncrefChild rt c).refCount =
        (rt.setRefCount c (rt.refCount c + 1)).refCount := by
      rw [hmoved, hzero]
      rfl
    refine ⟨[c], ?_, ?_, ?_, ?_, ?_, ?_⟩
    · rw [hgc, hs.gcList, List.append_assoc]
    · rw [hgc]
      have htmp : (gcScanIncrefChild rt c).tmpObjList = rt.tmpObjList.erase c := by
        rw [hmoved]
        rfl
      rw [htmp, List.append_assoc]
      exact ((List.perm_cons_erase hmem).symm.append_left rt.gcObjList).trans hs.lists
    · rw [hrefs]
      exact hcounts
    · intro x hx
      rw [hgc, hrefs, List.mem_append, List.mem_singleton, hs.listed x hx]
      by_cases hxc : x = c
      · subst hxc
        simp [Runtime.setRefCount]
      · simp [Runtime.setRefCount, hxc]
    · intro x hx
      rw [hgc] at hx
      rcases List.mem_append.mp hx with hx | hx
      · exact hs.live x hx
      · rw [List.mem_singleton.mp hx]
        exact hlive
    · intro x hx
      rw [hmoved]
      by_cases hxc : x = c
      · subst hxc
        simp [Runtime.setMark]
      · simp only [Runtime.setMark, Function.update_of_ne hxc]
        exact hs.marks x hx
  · have hstays : gcScanIncrefChild rt c = rt.setRefCount c (rt.refCount c + 1) := by
      simp [gcScanIncrefChild, Runtime.setRefCount, hzero]
    rw [hstays]
    have hgc : (rt.setRefCount c (rt.refCount c + 1)).gcObjList = done ++ (todo ++ []) := by
      rw [List.append_nil]
      exact hs.gcList
    refine ⟨[], hgc, hs.lists, hcounts, ?_, hs.live, hs.marks⟩
    intro x hx
    change x ∈ rt.gcObjList ↔ _
    rw [hs.listed x hx]
    by_cases hxc : x = c
    · subst hxc
      simp [Runtime.setRefCount, Nat.pos_of_ne_zero hzero]
    · simp [Runtime.setRefCount, hxc]

theorem Scanned.children (hs : Scanned h base passed done todo rt)
    (hcs : ∀ c ∈ cs, c ∈ h.objects ∧ h.Live c) :
    ∃ added, Scanned h base (passed ++ cs) done (todo ++ added)
      (cs.foldl gcScanIncrefChild rt) := by
  induction cs generalizing passed todo rt with
  | nil => exact ⟨[], by simpa using hs⟩
  | cons c cs ih =>
    obtain ⟨hc, hlive⟩ := hcs c List.mem_cons_self
    obtain ⟨added, hs'⟩ := hs.child hc hlive
    obtain ⟨added', hs''⟩ := ih hs' (fun d hd => hcs d (List.mem_cons_of_mem c hd))
    exact ⟨added ++ added', by simpa using hs''⟩

theorem Scanned.object (hs : Scanned h base (done.flatMap h.children) done (p :: todo) rt) :
    ∃ rt' added, gcScanObject h.children rt p = some rt' ∧
      nextIn rt'.gcObjList p = (todo ++ added).head? ∧
      Scanned h base ((done ++ [p]).flatMap h.children) (done ++ [p]) (todo ++ added) rt' := by
  have hlisted : p ∈ rt.gcObjList := by simp [hs.gcList]
  have hp : p ∈ h.objects := hs.lists.mem_iff.mp (List.mem_append_left _ hlisted)
  have hpos : 0 < rt.refCount p := (hs.listed p hp).mp hlisted
  have hlive := hs.live p hlisted
  have hmarked : Scanned h base (done.flatMap h.children) (done ++ [p]) todo
      (rt.setMark p 0) := by
    have hgc : (rt.setMark p 0).gcObjList = (done ++ [p]) ++ todo := by
      rw [List.append_assoc]
      exact hs.gcList
    refine ⟨hgc, hs.lists, hs.counts, hs.listed, hs.live, ?_⟩
    intro x hx
    by_cases hxp : x = p
    · subst hxp
      simp [Runtime.setMark]
    · have hdone : x ∈ done := by simpa [hxp] using hx
      simp [Runtime.setMark, hxp, hs.marks x hdone]
  obtain ⟨added, hs'⟩ := hmarked.children
    (fun c hc => ⟨h.closed p hp c hc, hlive.child hc⟩)
  refine ⟨_, added, by rw [gcScanObject, if_pos hpos], ?_, by simpa using hs'⟩
  have hnodup := (List.nodup_append.mp hs'.nodup).1
  rw [hs'.gcList] at hnodup ⊢
  rw [List.append_assoc] at hnodup ⊢
  apply nextIn_append
  intro hmem
  exact (List.nodup_append.mp hnodup).2.2 p hmem p List.mem_cons_self rfl

theorem Decreased.scanned (hd : Decreased h (h.objects.flatMap h.children) h.objects rt) :
    Scanned h rt.refCount [] [] rt.gcObjList rt := by
  have hgc : ∀ x, x ∈ rt.gcObjList ↔ x ∈ h.objects ∧ 0 < rt.refCount x := by
    intro x
    rw [hd.gcList, List.mem_filter]
    constructor
    · rintro ⟨hx, hkeep⟩
      simp only [hx, decide_true, Bool.true_and, Bool.not_eq_true', beq_eq_false_iff_ne] at hkeep
      exact ⟨hx, Nat.pos_of_ne_zero hkeep⟩
    · rintro ⟨hx, hpos⟩
      simp [hx, Nat.ne_of_gt hpos]
  refine ⟨rfl, ?_, by simp, ?_, ?_, by simp⟩
  · have hnodup : (rt.gcObjList ++ rt.tmpObjList).Nodup := by
      refine List.nodup_append.mpr ⟨hd.gcList ▸ h.nodup.filter _, hd.tmpNodup, ?_⟩
      rintro x hx y hy rfl
      have hpos := ((hgc x).mp hx).2
      have hzero := ((hd.tmpList x).mp hy).2.2
      omega
    refine (List.perm_ext_iff_of_nodup hnodup h.nodup).mpr ?_
    intro x
    rw [List.mem_append, hgc, hd.tmpList]
    constructor
    · rintro (⟨hx, -⟩ | ⟨hx, -⟩)
      · exact hx
      · exact hx
    · intro hx
      by_cases hzero : rt.refCount x = 0
      · exact .inr ⟨hx, hx, hzero⟩
      · exact .inl ⟨hx, Nat.pos_of_ne_zero hzero⟩
  · intro x hx
    rw [hgc]
    exact ⟨fun hmem => hmem.2, fun hpos => ⟨hx, hpos⟩⟩
  · intro x hx
    obtain ⟨hmem, hpos⟩ := (hgc x).mp hx
    have hcount := hd.counts x hmem
    exact ⟨x, ⟨hmem, by rw [Heap.incoming]; omega⟩, .refl⟩

theorem Scanned.keeps (hs : Scanned h base (done.flatMap h.children) done [] rt)
    (hroots : ∀ x, h.Root x → 0 < base x) (hlive : h.Live x) : x ∈ rt.gcObjList := by
  obtain ⟨r, hr, hpath⟩ := hlive
  induction hpath with
  | refl =>
    rw [hs.listed r hr.1, hs.counts r hr.1]
    have hpos := hroots r hr
    omega
  | tail _ hedge ih =>
    rename_i y z _
    have hy : y ∈ h.objects := hs.lists.mem_iff.mp (List.mem_append_left _ ih)
    have hz : z ∈ h.objects := h.closed y hy z hedge
    rw [hs.listed z hz, hs.counts z hz]
    have hdone : y ∈ done := by simpa [hs.gcList] using ih
    have hpassed : 0 < (done.flatMap h.children).count z :=
      List.count_pos_iff.mpr (List.mem_flatMap.mpr ⟨y, hdone, hedge⟩)
    omega

theorem Decreased.scan (hd : Decreased h (h.objects.flatMap h.children) h.objects rt) :
    ∃ rt' kept, forEach Runtime.gcObjList (gcScanObject h.children)
        (rt.gcObjList.length + rt.tmpObjList.length) rt.gcObjList.head? rt = some rt' ∧
      Scanned h rt.refCount (kept.flatMap h.children) kept [] rt' := by
  have hbound : ∀ done todo (rt' : Runtime α),
      Scanned h rt.refCount (done.flatMap h.children) done todo rt' →
      done.length + todo.length ≤ rt.gcObjList.length + rt.tmpObjList.length := by
    intro done todo rt' hs
    have hlength := hs.lists.length_eq
    have hlength' := hd.scanned.lists.length_eq
    rw [List.length_append, hs.gcList, List.length_append] at hlength
    rw [List.length_append] at hlength'
    omega
  have hbody : ∀ done p todo (rt' : Runtime α),
      Scanned h rt.refCount (done.flatMap h.children) done (p :: todo) rt' →
      ∃ rt'' added, gcScanObject h.children rt' p = some rt'' ∧
        nextIn rt''.gcObjList p = (todo ++ added).head? ∧
        Scanned h rt.refCount ((done ++ [p]).flatMap h.children) (done ++ [p]) (todo ++ added)
          rt'' := fun done p todo rt' hs => hs.object
  have hstart : Scanned h rt.refCount (([] : List α).flatMap h.children) [] rt.gcObjList rt :=
    hd.scanned
  exact forEach_rule
    (I := fun done todo rt' => Scanned h rt.refCount (done.flatMap h.children) done todo rt')
    hbound hbody hstart (Nat.le_of_eq (Nat.zero_add _).symm)

/-- The second loop of `gc_scan` counts the edges out of the garbage again. -/
structure Restored (h : Heap α) (rt : Runtime α) (done todo : List α) (rt' : Runtime α) :
    Prop where
  gcList : rt'.gcObjList = rt.gcObjList
  tmpList : rt'.tmpObjList = rt.tmpObjList
  marks : rt'.mark = rt.mark
  cut : rt.tmpObjList = done ++ todo
  counts : ∀ x, rt'.refCount x = rt.refCount x + (done.flatMap h.children).count x

theorem foldl_incref (cs : List α) (rt : Runtime α) :
    (cs.foldl gcScanIncrefChild2 rt).gcObjList = rt.gcObjList ∧
      (cs.foldl gcScanIncrefChild2 rt).tmpObjList = rt.tmpObjList ∧
      (cs.foldl gcScanIncrefChild2 rt).mark = rt.mark ∧
      ∀ x, (cs.foldl gcScanIncrefChild2 rt).refCount x = rt.refCount x + cs.count x := by
  induction cs generalizing rt with
  | nil => exact ⟨rfl, rfl, rfl, fun x => by simp⟩
  | cons c cs ih =>
    obtain ⟨hgc, htmp, hmark, hcount⟩ := ih (gcScanIncrefChild2 rt c)
    refine ⟨hgc, htmp, hmark, ?_⟩
    intro x
    rw [List.foldl_cons, hcount x, List.count_cons]
    by_cases hxc : x = c
    · subst hxc
      simp only [gcScanIncrefChild2, Runtime.setRefCount, Function.update_self, beq_self_eq_true,
        if_true]
      omega
    · have hcx : (c == x) = false := by simpa using Ne.symm hxc
      simp [gcScanIncrefChild2, Runtime.setRefCount, hxc, hcx]

theorem gcScanGarbage_restored (hnodup : rt.tmpObjList.Nodup) :
    ∃ rt', forEach Runtime.tmpObjList (gcScanGarbage h.children) rt.tmpObjList.length
        rt.tmpObjList.head? rt = some rt' ∧ Restored h rt rt.tmpObjList [] rt' := by
  have hbound : ∀ done todo (rt' : Runtime α), Restored h rt done todo rt' →
      done.length + todo.length ≤ rt.tmpObjList.length := by
    intro done todo rt' hr
    exact Nat.le_of_eq (by rw [hr.cut, List.length_append])
  have hbody : ∀ done p todo (rt' : Runtime α), Restored h rt done (p :: todo) rt' →
      ∃ rt'' added, gcScanGarbage h.children rt' p = some rt'' ∧
        nextIn rt''.tmpObjList p = (todo ++ added).head? ∧
        Restored h rt (done ++ [p]) (todo ++ added) rt'' := by
    intro done p todo rt' hr
    obtain ⟨hgc, htmp, hmark, hcount⟩ := foldl_incref (h.children p) rt'
    refine ⟨_, [], rfl, ?_, hgc.trans hr.gcList, htmp.trans hr.tmpList, hmark.trans hr.marks,
      by simp [hr.cut], ?_⟩
    · rw [htmp, hr.tmpList, hr.cut, List.append_nil]
      apply nextIn_append
      intro hmem
      rw [hr.cut] at hnodup
      exact (List.nodup_append.mp hnodup).2.2 p hmem p List.mem_cons_self rfl
    · intro x
      rw [hcount x, hr.counts x]
      simp only [List.flatMap_append, List.flatMap_cons, List.flatMap_nil, List.append_nil,
        List.count_append]
      omega
  have hstart : Restored h rt [] rt.tmpObjList rt := ⟨rfl, rfl, rfl, rfl, fun x => by simp⟩
  obtain ⟨rt', all, hrt', hr⟩ := forEach_rule
    (I := fun done todo rt' => Restored h rt done todo rt') hbound hbody hstart
    (Nat.le_of_eq (Nat.zero_add _).symm)
  have hall : all = rt.tmpObjList := by simpa using hr.cut.symm
  subst hall
  exact ⟨rt', hrt', hr⟩

theorem Heap.found (h : Heap α) (stale : List α) :
    ∃ rt, findGarbage h.children (h.runtime stale) = some rt ∧ Found h rt := by
  obtain ⟨rt₁, hrt₁, hd⟩ := gcDecref_decreased h stale
  obtain ⟨rt₂, kept, hrt₂, hs⟩ := hd.scan
  have hnodup := hs.nodup
  obtain ⟨rt₃, hrt₃, hr⟩ := gcScanGarbage_restored (h := h) (List.nodup_append.mp hnodup).2.1
  have hkept : rt₂.gcObjList = kept := by simpa using hs.gcList
  have hroots : ∀ x, h.Root x → 0 < rt₁.refCount x := by
    rintro x ⟨hx, hlt⟩
    have hcount := hd.counts x hx
    rw [Heap.incoming] at hlt
    omega
  have hgarbage : ∀ x, x ∈ rt₂.tmpObjList ↔ x ∈ h.objects ∧ ¬ h.Live x := by
    intro x
    constructor
    · intro hx
      refine ⟨hs.lists.mem_iff.mp (List.mem_append_right _ hx), ?_⟩
      intro hlive
      exact (List.nodup_append.mp hnodup).2.2 x (hs.keeps hroots hlive) x hx rfl
    · rintro ⟨hx, hdead⟩
      rcases List.mem_append.mp (hs.lists.mem_iff.mpr hx) with hmem | hmem
      · exact absurd (hs.live x hmem) hdead
      · exact hmem
  refine ⟨rt₃, ?_, ?_, ?_, ?_, ?_⟩
  · rw [findGarbage, hrt₁, Option.bind_some, gcScan, hrt₂, Option.bind_some, hrt₃]
  · intro x
    rw [hr.tmpList]
    exact hgarbage x
  · intro x hx hout
    rw [hr.tmpList] at hout
    have hmem := (List.mem_append.mp (hs.lists.mem_iff.mpr hx)).resolve_right hout
    refine ⟨hr.gcList ▸ hmem, ?_⟩
    rw [hr.marks]
    exact hs.marks x (hkept ▸ hmem)
  · intro x hx
    have hedges : (h.objects.flatMap h.children).count x =
        (kept.flatMap h.children).count x + (rt₂.tmpObjList.flatMap h.children).count x := by
      have hperm := (hs.lists.flatMap_right h.children).count_eq x
      rw [hkept, List.flatMap_append, List.count_append] at hperm
      exact hperm.symm
    have hcount := hd.counts x hx
    rw [hr.counts x, hs.counts x hx]
    omega
  · rw [hr.gcList, hr.tmpList]
    exact hs.lists

/-- Trial deletion finds the objects that no root leads to, and restores everything else. -/
theorem trial_deletion_finds_garbage (h : Heap α) (stale : List α) :
    ∃ rt, findGarbage h.children (h.runtime stale) = some rt ∧ Found h rt :=
  h.found stale

end

end TurboJS.GC
