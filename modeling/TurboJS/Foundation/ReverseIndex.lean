import Mathlib.Data.List.Nodup

namespace TurboJS.Foundation

/-! An index from keys to the owners that depend on them. Every node is on two lists: that of the
bucket of its key and that of its owner. -/

variable {κ ο : Type*}

/-- A node, with the address that tells it from every other. -/
structure IndexNode (κ ο : Type*) where
  address : Nat
  key : κ
  owner : ο
  deriving DecidableEq, Repr

/-- The lists of the buckets and of the owners, and the address that is allocated next. -/
structure ReverseIndex (κ ο : Type*) where
  buckets : Nat → List (IndexNode κ ο)
  owned : ο → List (IndexNode κ ο)
  next : Nat

def ReverseIndex.empty : ReverseIndex κ ο := ⟨fun _ => [], fun _ => [], 0⟩

/-- The bucket of a node without it. -/
def ReverseIndex.unlink (hash : κ → Nat) (ix : ReverseIndex κ ο) (node : IndexNode κ ο) :
    ReverseIndex κ ο :=
  { ix with
    buckets := Function.update ix.buckets (hash node.key)
      ((ix.buckets (hash node.key)).eraseP (·.address = node.address)) }

/-- All nodes of an owner go. -/
def ReverseIndex.unregister [DecidableEq ο] (hash : κ → Nat) (ix : ReverseIndex κ ο)
    (owner : ο) : ReverseIndex κ ο :=
  let unlinked := (ix.owned owner).foldl (ReverseIndex.unlink hash) ix
  { unlinked with owned := Function.update unlinked.owned owner [] }

/-- A node for a key, if its owner has none. -/
def ReverseIndex.registerKey [DecidableEq κ] [DecidableEq ο] (hash : κ → Nat) (owner : ο)
    (ix : ReverseIndex κ ο) (key : κ) : ReverseIndex κ ο :=
  if (ix.owned owner).any (·.key = key) then ix
  else
    let node : IndexNode κ ο := ⟨ix.next, key, owner⟩
    { buckets := Function.update ix.buckets (hash key) (node :: ix.buckets (hash key))
      owned := Function.update ix.owned owner (node :: ix.owned owner)
      next := ix.next + 1 }

/-- The nodes of an owner are made anew, one for each of its keys. -/
def ReverseIndex.register [DecidableEq κ] [DecidableEq ο] (hash : κ → Nat)
    (ix : ReverseIndex κ ο) (owner : ο) (keys : List κ) : ReverseIndex κ ο :=
  keys.foldl (ReverseIndex.registerKey hash owner) (ix.unregister hash owner)

/-- The keys that an owner is registered for. -/
def ReverseIndex.keysOf (ix : ReverseIndex κ ο) (owner : ο) : List κ :=
  (ix.owned owner).map (·.key)

/-- The lists of the buckets and those of the owners hold the same nodes, each once. -/
structure ReverseIndex.WellLinked (hash : κ → Nat) (ix : ReverseIndex κ ο) : Prop where
  mem_bucket : ∀ b node, node ∈ ix.buckets b ↔ hash node.key = b ∧ node ∈ ix.owned node.owner
  owner : ∀ o, ∀ node ∈ ix.owned o, node.owner = o
  keys : ∀ o, (ix.keysOf o).Nodup
  addresses : ∀ b, ((ix.buckets b).map (·.address)).Nodup
  below : ∀ o, ∀ node ∈ ix.owned o, node.address < ix.next

section

variable {hash : κ → Nat} {ix : ReverseIndex κ ο} {owner : ο}

theorem wellLinked_empty : (ReverseIndex.empty : ReverseIndex κ ο).WellLinked hash := by
  constructor <;> simp [ReverseIndex.empty, ReverseIndex.keysOf]

theorem mem_eraseP_address {nodes : List (IndexNode κ ο)} {node other : IndexNode κ ο}
    (hd : (nodes.map (·.address)).Nodup) (hn : node ∈ nodes) :
    other ∈ nodes.eraseP (·.address = node.address) ↔ other ∈ nodes ∧ other ≠ node := by
  induction nodes with
  | nil => cases hn
  | cons first rest ih =>
    obtain ⟨hfirst, hrest⟩ := List.nodup_cons.mp hd
    by_cases he : first.address = node.address
    · have hsame : first = node := by
        rcases List.mem_cons.mp hn with h | h
        · exact h.symm
        · exact absurd (List.mem_map.mpr ⟨node, h, he.symm⟩) hfirst
      subst hsame
      rw [List.eraseP_cons_of_pos (by simp)]
      constructor
      · intro h
        refine ⟨List.mem_cons_of_mem _ h, ?_⟩
        rintro rfl
        exact hfirst (List.mem_map_of_mem h)
      · rintro ⟨h, hne⟩
        exact (List.mem_cons.mp h).resolve_left hne
    · rw [List.eraseP_cons_of_neg (by simp [he])]
      have hn' : node ∈ rest := by
        rcases List.mem_cons.mp hn with rfl | h
        · exact absurd rfl he
        · exact h
      simp only [List.mem_cons, ih hrest hn']
      constructor
      · rintro (rfl | h)
        · exact ⟨.inl rfl, fun h => he (h ▸ rfl)⟩
        · exact ⟨.inr h.1, h.2⟩
      · rintro ⟨rfl | h, hne⟩
        · exact .inl rfl
        · exact .inr ⟨h, hne⟩

theorem unlinkAll_spec {nodes : List (IndexNode κ ο)} (hd : nodes.Nodup)
    (haddr : ∀ b, ((ix.buckets b).map (·.address)).Nodup)
    (hmem : ∀ node ∈ nodes, ∀ b, node ∈ ix.buckets b ↔ hash node.key = b) :
    let ix' := nodes.foldl (ReverseIndex.unlink hash) ix
    ix'.owned = ix.owned ∧ ix'.next = ix.next ∧
      (∀ b, (ix'.buckets b).Sublist (ix.buckets b)) ∧
      ∀ b node, node ∈ ix'.buckets b ↔ node ∈ ix.buckets b ∧ node ∉ nodes := by
  induction nodes generalizing ix with
  | nil => simp
  | cons first rest ih =>
    obtain ⟨hfirst, hrest⟩ := List.nodup_cons.mp hd
    have hin : first ∈ ix.buckets (hash first.key) :=
      (hmem first List.mem_cons_self _).mpr rfl
    have hsub : ∀ b, ((ix.unlink hash first).buckets b).Sublist (ix.buckets b) := by
      intro b
      by_cases hb : b = hash first.key
      · subst hb
        simp only [ReverseIndex.unlink, Function.update_self]
        exact List.eraseP_sublist
      · simp only [ReverseIndex.unlink, Function.update_of_ne hb]
        exact List.Sublist.refl _
    have hone : ∀ b node, node ∈ (ix.unlink hash first).buckets b ↔
        node ∈ ix.buckets b ∧ node ≠ first := by
      intro b node
      by_cases hb : b = hash first.key
      · subst hb
        simp only [ReverseIndex.unlink, Function.update_self]
        exact mem_eraseP_address (haddr _) hin
      · simp only [ReverseIndex.unlink, Function.update_of_ne hb]
        refine ⟨fun h => ⟨h, ?_⟩, fun h => h.1⟩
        rintro rfl
        exact hb ((hmem node List.mem_cons_self b).mp h).symm
    obtain ⟨howned, hnext, hsub', hmem'⟩ := ih hrest
      (fun b => (haddr b).sublist ((hsub b).map _))
      (by
        intro node hnode b
        rw [hone, hmem node (List.mem_cons_of_mem _ hnode)]
        refine and_iff_left ?_
        rintro rfl
        exact hfirst hnode)
    refine ⟨howned, hnext, fun b => (hsub' b).trans (hsub b), ?_⟩
    intro b node
    rw [List.foldl_cons, hmem', hone, List.mem_cons, not_or, and_assoc]

variable [DecidableEq ο]

theorem ReverseIndex.WellLinked.unregister (h : ix.WellLinked hash) (owner : ο) :
    (ix.unregister hash owner).WellLinked hash ∧
      (ix.unregister hash owner).owned = Function.update ix.owned owner [] := by
  have hd : (ix.owned owner).Nodup := List.Nodup.of_map _ (h.keys owner)
  obtain ⟨howned, hnext, hsub, hmem⟩ := unlinkAll_spec hd h.addresses (by
    intro node hnode b
    rw [h.mem_bucket, h.owner owner node hnode]
    exact and_iff_left hnode)
  have howned' : (ix.unregister hash owner).owned = Function.update ix.owned owner [] := by
    simp only [ReverseIndex.unregister, howned]
  have hkept : ∀ o, ∀ node ∈ (ix.unregister hash owner).owned o,
      o ≠ owner ∧ node ∈ ix.owned o := by
    intro o node hnode
    rw [howned'] at hnode
    by_cases ho : o = owner
    · subst ho
      simp at hnode
    · rw [Function.update_of_ne ho] at hnode
      exact ⟨ho, hnode⟩
  refine ⟨⟨?_, ?_, ?_, ?_, ?_⟩, howned'⟩
  · intro b node
    refine (hmem b node).trans ?_
    rw [h.mem_bucket, howned', and_assoc]
    refine and_congr_right fun _ => ?_
    by_cases ho : node.owner = owner
    · simp [ho]
    · rw [Function.update_of_ne ho]
      refine and_iff_left_of_imp fun _ hnode => ?_
      exact ho (h.owner owner node hnode)
  · intro o node hnode
    exact h.owner o node (hkept o node hnode).2
  · intro o
    rw [ReverseIndex.keysOf, howned']
    by_cases ho : o = owner
    · subst ho
      simp
    · rw [Function.update_of_ne ho]
      exact h.keys o
  · intro b
    exact (h.addresses b).sublist ((hsub b).map _)
  · intro o node hnode
    have hlt := h.below o node (hkept o node hnode).2
    exact hnext ▸ hlt

variable [DecidableEq κ]

/-- After its registration an owner has one node for the key; what it had stays. -/
theorem ReverseIndex.WellLinked.registerKey (h : ix.WellLinked hash) (owner : ο) (key : κ) :
    (ix.registerKey hash owner key).WellLinked hash ∧
      (∀ o, o ≠ owner → (ix.registerKey hash owner key).owned o = ix.owned o) ∧
      ∀ k, k ∈ (ix.registerKey hash owner key).keysOf owner ↔ k ∈ ix.keysOf owner ∨ k = key := by
  unfold ReverseIndex.registerKey
  split
  · rename_i hany
    refine ⟨h, fun _ _ => rfl, ?_⟩
    intro k
    refine (or_iff_left_of_imp ?_).symm
    rintro rfl
    obtain ⟨node, hnode, hkey⟩ := List.any_eq_true.mp hany
    exact List.mem_map.mpr ⟨node, hnode, of_decide_eq_true hkey⟩
  · rename_i hany
    have hnew : key ∉ ix.keysOf owner := by
      intro hk
      obtain ⟨node, hnode, hkey⟩ := List.mem_map.mp hk
      exact hany (List.any_eq_true.mpr ⟨node, hnode, decide_eq_true hkey⟩)
    have hbelow : ∀ b, ∀ node ∈ ix.buckets b, node.address < ix.next := by
      intro b node hnode
      exact h.below _ node ((h.mem_bucket b node).mp hnode).2
    refine ⟨⟨?_, ?_, ?_, ?_, ?_⟩, ?_, ?_⟩
    · intro b node
      have hbucket : node ∈ Function.update ix.buckets (hash key)
          (⟨ix.next, key, owner⟩ :: ix.buckets (hash key)) b ↔
          (hash key = b ∧ node = ⟨ix.next, key, owner⟩) ∨ node ∈ ix.buckets b := by
        by_cases hb : b = hash key
        · subst hb
          simp
        · simp [Function.update_of_ne hb, Ne.symm hb]
      have howned : node ∈ Function.update ix.owned owner
          (⟨ix.next, key, owner⟩ :: ix.owned owner) node.owner ↔
          node = ⟨ix.next, key, owner⟩ ∨ node ∈ ix.owned node.owner := by
        by_cases ho : node.owner = owner
        · simp [ho]
        · rw [Function.update_of_ne ho]
          refine (or_iff_right ?_).symm
          rintro rfl
          exact ho rfl
      simp only [hbucket, howned, h.mem_bucket]
      constructor
      · rintro (⟨hb, rfl⟩ | ⟨hb, hnode⟩)
        · exact ⟨hb, .inl rfl⟩
        · exact ⟨hb, .inr hnode⟩
      · rintro ⟨hb, rfl | hnode⟩
        · exact .inl ⟨hb, rfl⟩
        · exact .inr ⟨hb, hnode⟩
    · intro o node hnode
      by_cases ho : o = owner
      · subst ho
        simp only [Function.update_self, List.mem_cons] at hnode
        rcases hnode with rfl | hnode
        · rfl
        · exact h.owner _ node hnode
      · simp only [Function.update_of_ne ho] at hnode
        exact h.owner o node hnode
    · intro o
      by_cases ho : o = owner
      · subst ho
        simp only [ReverseIndex.keysOf, Function.update_self, List.map_cons, List.nodup_cons]
        exact ⟨hnew, h.keys o⟩
      · simp only [ReverseIndex.keysOf, Function.update_of_ne ho]
        exact h.keys o
    · intro b
      by_cases hb : b = hash key
      · subst hb
        simp only [Function.update_self, List.map_cons, List.nodup_cons]
        refine ⟨?_, h.addresses _⟩
        intro ha
        obtain ⟨node, hnode, he⟩ := List.mem_map.mp ha
        exact absurd (hbelow _ node hnode) (he ▸ Nat.lt_irrefl _)
      · simp only [Function.update_of_ne hb]
        exact h.addresses b
    · intro o node hnode
      by_cases ho : o = owner
      · subst ho
        simp only [Function.update_self, List.mem_cons] at hnode
        rcases hnode with rfl | hnode
        · exact Nat.lt_succ_self _
        · exact Nat.lt_succ_of_lt (h.below _ node hnode)
      · simp only [Function.update_of_ne ho] at hnode
        exact Nat.lt_succ_of_lt (h.below o node hnode)
    · intro o ho
      exact Function.update_of_ne ho ..
    · intro k
      simp only [ReverseIndex.keysOf, Function.update_self, List.map_cons, List.mem_cons]
      exact or_comm

theorem ReverseIndex.WellLinked.registerKeys (h : ix.WellLinked hash) (owner : ο)
    (keys : List κ) :
    let ix' := keys.foldl (ReverseIndex.registerKey hash owner) ix
    ix'.WellLinked hash ∧ (∀ o, o ≠ owner → ix'.owned o = ix.owned o) ∧
      ∀ k, k ∈ ix'.keysOf owner ↔ k ∈ ix.keysOf owner ∨ k ∈ keys := by
  induction keys generalizing ix with
  | nil => exact ⟨h, fun _ _ => rfl, by simp⟩
  | cons key keys ih =>
    obtain ⟨hlinked, hother, hkeys⟩ := h.registerKey owner key
    obtain ⟨hlinked', hother', hkeys'⟩ := ih hlinked
    refine ⟨hlinked', fun o ho => (hother' o ho).trans (hother o ho), ?_⟩
    intro k
    rw [List.foldl_cons, hkeys', hkeys, List.mem_cons, or_assoc]

theorem ReverseIndex.WellLinked.register (h : ix.WellLinked hash) (owner : ο) (keys : List κ) :
    (ix.register hash owner keys).WellLinked hash ∧
      (∀ o, o ≠ owner → (ix.register hash owner keys).owned o = ix.owned o) ∧
      ∀ k, k ∈ (ix.register hash owner keys).keysOf owner ↔ k ∈ keys := by
  obtain ⟨hlinked, howned⟩ := h.unregister owner
  obtain ⟨hlinked', hother, hkeys⟩ := hlinked.registerKeys owner keys
  refine ⟨hlinked', ?_, ?_⟩
  · intro o ho
    refine (hother o ho).trans ?_
    rw [howned, Function.update_of_ne ho]
  · intro k
    refine (hkeys k).trans ?_
    rw [ReverseIndex.keysOf, howned, Function.update_self]
    simp

omit [DecidableEq κ] [DecidableEq ο] in
theorem ReverseIndex.WellLinked.exists_unique_node (h : ix.WellLinked hash) {key : κ}
    (hkey : key ∈ ix.keysOf owner) :
    ∃! node, node ∈ ix.buckets (hash key) ∧ node.owner = owner ∧ node.key = key := by
  obtain ⟨node, hnode, rfl⟩ := List.mem_map.mp hkey
  have ho := h.owner owner node hnode
  refine ⟨node, ⟨(h.mem_bucket _ node).mpr ⟨rfl, ho ▸ hnode⟩, ho, rfl⟩, ?_⟩
  rintro other ⟨hother, howner, hsame⟩
  have hmem := ((h.mem_bucket _ other).mp hother).2
  rw [howner] at hmem
  exact List.inj_on_of_nodup_map (h.keys owner) hmem hnode hsame

omit [DecidableEq κ] [DecidableEq ο] in
theorem eq_singleton_of_nodup {nodes : List (IndexNode κ ο)} {node : IndexNode κ ο}
    (hd : nodes.Nodup) (hmem : ∀ other, other ∈ nodes ↔ other = node) : nodes = [node] := by
  have hall := List.eq_replicate_of_mem fun other h => (hmem other).mp h
  have hpos : 0 < nodes.length := List.length_pos_of_mem ((hmem node).mpr rfl)
  rw [hall, List.nodup_replicate] at hd
  rw [hall]
  have hone : nodes.length = 1 := by omega
  rw [hone]
  rfl

theorem ReverseIndex.WellLinked.one_node (h : ix.WellLinked hash) {key : κ}
    (hkey : key ∈ ix.keysOf owner) :
    ∃ node, (ix.buckets (hash key)).filter (fun n => n.owner = owner ∧ n.key = key) = [node] ∧
      (ix.owned owner).filter (fun n => n.key = key) = [node] := by
  obtain ⟨node, ⟨hnode, howner, hnodekey⟩, hunique⟩ := h.exists_unique_node hkey
  refine ⟨node, eq_singleton_of_nodup ?_ ?_, eq_singleton_of_nodup ?_ ?_⟩
  · exact (List.Nodup.of_map _ (h.addresses _)).filter _
  · intro other
    simp only [List.mem_filter, decide_eq_true_eq]
    refine ⟨fun ho => hunique other ho, ?_⟩
    rintro rfl
    exact ⟨hnode, howner, hnodekey⟩
  · exact (List.Nodup.of_map _ (h.keys owner)).filter _
  · intro other
    simp only [List.mem_filter, decide_eq_true_eq]
    constructor
    · rintro ⟨hother, hsame⟩
      have ho := h.owner owner other hother
      refine hunique other ⟨(h.mem_bucket _ other).mpr ⟨hsame ▸ rfl, ho ▸ hother⟩, ho, hsame⟩
    · rintro rfl
      have hmem := ((h.mem_bucket _ other).mp hnode).2
      exact ⟨howner ▸ hmem, hnodekey⟩

end

end TurboJS.Foundation
