import Mathlib.Data.List.Nodup
import Mathlib.Algebra.Order.Ring.Int

namespace TurboJS.Shapes

/-! The standalone shape table and its inline cache. -/

abbrev Name := List UInt8

structure ShapeProperty where
  name : Name
  offset : Nat
deriving DecidableEq

structure Shape where
  id : Nat
  properties : List ShapeProperty
deriving DecidableEq

structure ShapeTransition where
  parentId : Nat
  nameHash : BitVec 64
  name : Name
  child : Nat
deriving DecidableEq

structure ShapeTable where
  shapes : List Shape
  transitions : List ShapeTransition
deriving DecidableEq

def shapeMaxProperties : Nat := 64

def hashName (s : Name) : BitVec 64 :=
  s.foldl (fun h c => (h ^^^ BitVec.ofNat 64 c.toNat) * 1099511628211) 1469598103934665603

def shapeTableCreate : ShapeTable := ⟨[⟨1, []⟩], []⟩

def shapeLookup (s : Shape) (n : Name) : Option Nat :=
  (s.properties.find? fun p => p.name = n).map ShapeProperty.offset

def ShapeTable.known (t : ShapeTable) (s : Shape) (n : Name) : Option ShapeTransition :=
  t.transitions.find? fun e => e.parentId = s.id && e.nameHash = hashName n && e.name = n

def ShapeTable.child (t : ShapeTable) (s : Shape) (n : Name) : Shape :=
  ⟨(t.shapes.length + 1) % 2 ^ 32, s.properties ++ [⟨n, s.properties.length⟩]⟩

def ShapeTable.extend (t : ShapeTable) (s : Shape) (n : Name) : ShapeTable :=
  ⟨t.shapes ++ [t.child s n], t.transitions ++ [⟨s.id, hashName n, n, t.shapes.length⟩]⟩

/-- `TurboJS_ShapeTransition`. Any allocation that fails leaves the table as it was. -/
def shapeTransition (allocated : Bool) (t : ShapeTable) (s : Nat) (n : Name) :
    ShapeTable × Option Nat :=
  match t.shapes[s]? with
  | none => (t, none)
  | some shape =>
    if n = [] ∨ shapeMaxProperties ≤ shape.properties.length then (t, none)
    else
      match t.known shape n with
      | some e => (t, some e.child)
      | none => if allocated then (t.extend shape n, some t.shapes.length) else (t, none)

structure InlineCache where
  shapeId : Nat := 0
  propertyOffset : Nat := 0
  hits : Nat := 0
  misses : Nat := 0
deriving DecidableEq

def InlineCache.remembers (c : InlineCache) (s : Shape) : Bool :=
  c.shapeId = s.id && c.shapeId ≠ 0

def inlineCacheLookup (c : InlineCache) (s : Shape) (n : Name) : InlineCache × Option Nat :=
  if c.remembers s then
    ({ c with hits := if c.hits ≠ 65535 then c.hits + 1 else c.hits }, some c.propertyOffset)
  else
    let c := { c with misses := (c.misses + 1) % 2 ^ 32 }
    match shapeLookup s n with
    | none => (c, none)
    | some off => ({ c with shapeId := s.id, propertyOffset := off }, some off)

inductive Op where
  | transition (s : Nat) (n : Name) (allocated : Bool)
  | lookup (s : Nat) (n : Name)

/-- The table, one cache, and the name that the cache was last filled with, which the code does not
keep. -/
structure Session where
  table : ShapeTable
  cache : InlineCache := {}
  filled : Name := []

def Session.step (st : Session) : Op → Session
  | .transition s n allocated => { st with table := (shapeTransition allocated st.table s n).1 }
  | .lookup s n =>
    match st.table.shapes[s]? with
    | none => st
    | some shape =>
      { st with
        cache := (inlineCacheLookup st.cache shape n).1
        filled := if !st.cache.remembers shape && (shapeLookup shape n).isSome then n
          else st.filled }

def Session.run (st : Session) (ops : List Op) : Session := ops.foldl Session.step st

def Session.start : Session := { table := shapeTableCreate }

def Shape.names (s : Shape) : List Name := s.properties.map ShapeProperty.name

inductive Leads (t : ShapeTable) : List Name → Nat → Prop where
  | root : Leads t [] 0
  | add {ns : List Name} {s : Nat} {shape : Shape} {e : ShapeTransition} (h : Leads t ns s)
      (hs : t.shapes[s]? = some shape) (he : e ∈ t.transitions) (hp : e.parentId = shape.id) :
      Leads t (ns ++ [e.name]) e.child

structure TableCorrect (t : ShapeTable) : Prop where
  leads : ∀ ns s, Leads t ns s → ∃ shape : Shape, t.shapes[s]? = some shape ∧ shape.names = ns
  distinct : ∀ (s : Nat) (shape : Shape), t.shapes[s]? = some shape → shape.names.Nodup
  bound : ∀ (s : Nat) (shape : Shape) (i : Nat) (n : Name), t.shapes[s]? = some shape →
    shape.names[i]? = some n → shapeLookup shape n = some i
  ids : ∀ (s s' : Nat) (shape shape' : Shape), t.shapes[s]? = some shape →
    t.shapes[s']? = some shape' →
    ((shape.id = shape'.id ↔ s = s') ∧ (shape.names = shape'.names ↔ s = s'))

/-- The answer of an operation: a lookup through the cache finds what a lookup in the shape finds,
and a transition that gave a shape gives it again ever after. -/
def Session.Answers (st : Session) : Op → Prop
  | .lookup s n => ∀ shape : Shape, st.table.shapes[s]? = some shape →
    (inlineCacheLookup st.cache shape n).2 = shapeLookup shape n
  | .transition s n allocated => ∀ c, (shapeTransition allocated st.table s n).2 = some c →
    ∀ ops allocated', let later := (st.step (.transition s n allocated)).run ops
      shapeTransition allocated' later.table s n = (later.table, some c)

/-- The condition: a new shape adds a name that its parent does not have, and gets an id that no
shape has; a lookup that the cache answers is for the name that filled the cache. -/
def Session.Fits (st : Session) : Op → Prop
  | .transition s n allocated => ∀ shape : Shape, st.table.shapes[s]? = some shape →
    (shapeTransition allocated st.table s n).1 ≠ st.table →
      n ∉ shape.names ∧ st.table.shapes.length < 2 ^ 32
  | .lookup s n => ∀ shape : Shape, st.table.shapes[s]? = some shape →
    st.cache.remembers shape = true → n = st.filled

structure Grown (t : ShapeTable) : Prop where
  created : t.transitions.length + 1 = t.shapes.length
  root : t.shapes[0]? = some ⟨1, []⟩
  ids : ∀ (s : Nat) (shape : Shape), t.shapes[s]? = some shape → shape.id = (s + 1) % 2 ^ 32
  offsets : ∀ (s : Nat) (shape : Shape) (i : Nat) (p : ShapeProperty), t.shapes[s]? = some shape →
    shape.properties[i]? = some p → p.offset = i
  born : ∀ (i : Nat) (e : ShapeTransition), t.transitions[i]? = some e →
    e.child = i + 1 ∧ e.nameHash = hashName e.name ∧
    ∃ p, p ≤ i ∧ ∃ parent child : Shape, t.shapes[p]? = some parent ∧ e.parentId = parent.id ∧
      t.shapes[i + 1]? = some child ∧ child.names = parent.names ++ [e.name]
  keys : ∀ (i j : Nat) (e e' : ShapeTransition), t.transitions[i]? = some e →
    t.transitions[j]? = some e' → e.parentId = e'.parentId → e.name = e'.name → i = j

structure Sound (t : ShapeTable) : Prop where
  few : t.shapes.length ≤ 2 ^ 32
  distinct : ∀ (s : Nat) (shape : Shape), t.shapes[s]? = some shape → shape.names.Nodup

section

variable {t : ShapeTable} {st : Session} {s s' c i : Nat} {n n' : Name} {allocated : Bool}
  {shape shape' : Shape} {e : ShapeTransition} {op : Op} {ops before after : List Op}

theorem shapeTransition_cases (allocated : Bool) (t : ShapeTable) (s : Nat) (n : Name) :
    shapeTransition allocated t s n = (t, none) ∨
    (∃ shape e, t.shapes[s]? = some shape ∧ n ≠ [] ∧
      shape.properties.length < shapeMaxProperties ∧ t.known shape n = some e ∧
      shapeTransition allocated t s n = (t, some e.child)) ∨
    ∃ shape, t.shapes[s]? = some shape ∧ n ≠ [] ∧
      shape.properties.length < shapeMaxProperties ∧ t.known shape n = none ∧
      shapeTransition allocated t s n = (t.extend shape n, some t.shapes.length) := by
  unfold shapeTransition
  cases hs : t.shapes[s]? with
  | none => exact .inl rfl
  | some shape =>
    dsimp only
    split
    · exact .inl rfl
    · rename_i hok
      rw [not_or, Nat.not_le] at hok
      cases hk : t.known shape n with
      | some e => exact .inr (.inl ⟨shape, e, rfl, hok.1, hok.2, hk, rfl⟩)
      | none =>
        dsimp only
        split
        · exact .inr (.inr ⟨shape, rfl, hok.1, hok.2, hk, rfl⟩)
        · exact .inl rfl

theorem shapeTransition_table (allocated : Bool) (t : ShapeTable) (s : Nat) (n : Name) :
    (shapeTransition allocated t s n).1 = t ∨
    ∃ shape, t.shapes[s]? = some shape ∧ t.known shape n = none ∧
      (shapeTransition allocated t s n).1 = t.extend shape n := by
  rcases shapeTransition_cases allocated t s n with heq | ⟨_, _, _, _, _, _, heq⟩ |
    ⟨shape, hs, _, _, hk, heq⟩
  · exact .inl (by rw [heq])
  · exact .inl (by rw [heq])
  · exact .inr ⟨shape, hs, hk, by rw [heq]⟩

theorem extend_shape_old (h : t.shapes[s]? = some shape) (parent : Shape) (n : Name) :
    (t.extend parent n).shapes[s]? = some shape := by
  obtain ⟨hlt, -⟩ := List.getElem?_eq_some_iff.mp h
  exact (List.getElem?_append_left hlt).trans h

theorem extend_shape_new (t : ShapeTable) (parent : Shape) (n : Name) :
    (t.extend parent n).shapes[t.shapes.length]? = some (t.child parent n) :=
  List.getElem?_concat_length

theorem extend_shape_cases {parent : Shape} (h : (t.extend parent n).shapes[s]? = some shape) :
    t.shapes[s]? = some shape ∨ s = t.shapes.length ∧ shape = t.child parent n := by
  have hlt := (List.getElem?_eq_some_iff.mp h).1
  have hlen : (t.extend parent n).shapes.length = t.shapes.length + 1 := by simp [ShapeTable.extend]
  rcases Nat.lt_or_eq_of_le (Nat.le_of_lt_succ (hlen ▸ hlt)) with hs | rfl
  · left
    rwa [ShapeTable.extend, List.getElem?_append_left hs] at h
  · right
    rw [extend_shape_new] at h
    exact ⟨rfl, (Option.some.inj h).symm⟩

theorem child_names (t : ShapeTable) (parent : Shape) (n : Name) :
    (t.child parent n).names = parent.names ++ [n] := by
  simp [ShapeTable.child, Shape.names]

theorem extend_transition_cases {parent : Shape}
    (h : (t.extend parent n).transitions[i]? = some e) : t.transitions[i]? = some e ∨
    i = t.transitions.length ∧ e = ⟨parent.id, hashName n, n, t.shapes.length⟩ := by
  have hlt := (List.getElem?_eq_some_iff.mp h).1
  have hlen : (t.extend parent n).transitions.length = t.transitions.length + 1 := by
    simp [ShapeTable.extend]
  rcases Nat.lt_or_eq_of_le (Nat.le_of_lt_succ (hlen ▸ hlt)) with hi | rfl
  · left
    rwa [ShapeTable.extend, List.getElem?_append_left hi] at h
  · right
    have hnew : (t.extend parent n).transitions[t.transitions.length]? =
        some ⟨parent.id, hashName n, n, t.shapes.length⟩ := List.getElem?_concat_length
    rw [hnew] at h
    exact ⟨rfl, (Option.some.inj h).symm⟩

theorem Grown.create : Grown shapeTableCreate where
  created := rfl
  root := rfl
  ids := by
    intro s shape h
    cases s with
    | zero =>
      cases h
      rfl
    | succ s => cases h
  offsets := by
    intro s shape i p h hp
    cases s with
    | zero =>
      cases h
      cases hp
    | succ s => cases h
  born := by
    intro i e h
    cases h
  keys := by
    intro i j e e' h
    cases h

theorem Grown.fresh (h : Grown t) (hk : t.known shape n = none) (he : t.transitions[i]? = some e) :
    ¬ (e.parentId = shape.id ∧ e.name = n) := by
  rintro ⟨hp, hn⟩
  have hno := List.find?_eq_none.mp hk e (List.mem_of_getElem? he)
  obtain ⟨-, hhash, -⟩ := h.born i e he
  apply hno
  simp [hp, hhash, hn]

theorem Grown.extend (h : Grown t) (hs : t.shapes[s]? = some shape)
    (hk : t.known shape n = none) : Grown (t.extend shape n) where
  created := by simp [ShapeTable.extend, h.created]
  root := extend_shape_old h.root _ _
  ids := by
    intro s' shape' hs'
    rcases extend_shape_cases hs' with hold | ⟨rfl, rfl⟩
    · exact h.ids s' shape' hold
    · rfl
  offsets := by
    intro s' shape' i p hs' hp
    rcases extend_shape_cases hs' with hold | ⟨rfl, rfl⟩
    · exact h.offsets s' shape' i p hold hp
    · have hlt := (List.getElem?_eq_some_iff.mp hp).1
      have hlen : (t.child shape n).properties.length = shape.properties.length + 1 := by
        simp [ShapeTable.child]
      rcases Nat.lt_or_eq_of_le (Nat.le_of_lt_succ (hlen ▸ hlt)) with hi | rfl
      · rw [ShapeTable.child, List.getElem?_append_left hi] at hp
        exact h.offsets s shape i p hs hp
      · rw [ShapeTable.child, List.getElem?_concat_length] at hp
        cases hp
        rfl
  born := by
    intro i e he
    rcases extend_transition_cases he with hold | ⟨rfl, rfl⟩
    · obtain ⟨hc, hh, p, hp, parent, child, hparent, hid, hchild, hnames⟩ := h.born i e hold
      exact ⟨hc, hh, p, hp, parent, child, extend_shape_old hparent _ _, hid,
        extend_shape_old hchild _ _, hnames⟩
    · have hlt := (List.getElem?_eq_some_iff.mp hs).1
      have hcreated := h.created
      refine ⟨hcreated.symm, rfl, s, by omega, shape, t.child shape n,
        extend_shape_old hs _ _, rfl, ?_, child_names t shape n⟩
      rw [hcreated]
      exact extend_shape_new t shape n
  keys := by
    intro i j e e' he he' hp hn
    rcases extend_transition_cases he with hold | ⟨rfl, rfl⟩ <;>
      rcases extend_transition_cases he' with hold' | ⟨rfl, rfl⟩
    · exact h.keys i j e e' hold hold' hp hn
    · exact absurd ⟨hp, hn⟩ (h.fresh hk hold)
    · exact absurd ⟨hp.symm, hn.symm⟩ (h.fresh hk hold')
    · rfl

theorem Grown.transition (h : Grown t) (allocated : Bool) (s : Nat) (n : Name) :
    Grown (shapeTransition allocated t s n).1 := by
  rcases shapeTransition_table allocated t s n with heq | ⟨shape, hs, hk, heq⟩
  · rwa [heq]
  · rw [heq]
    exact h.extend hs hk

theorem names_getElem (h : shape.names[i]? = some n) :
    ∃ p, shape.properties[i]? = some p ∧ p.name = n := by
  rw [Shape.names, List.getElem?_map] at h
  exact Option.map_eq_some_iff.mp h

theorem Grown.lookup (h : Grown t) (hs : t.shapes[s]? = some shape)
    (hl : shapeLookup shape n = some i) : shape.names[i]? = some n := by
  obtain ⟨p, hfind, rfl⟩ := Option.map_eq_some_iff.mp hl
  have hname := List.find?_some hfind
  rw [decide_eq_true_eq] at hname
  obtain ⟨k, hk, hget⟩ := List.getElem_of_mem (List.mem_of_find?_eq_some hfind)
  have hp : shape.properties[k]? = some p := by rw [List.getElem?_eq_getElem hk, hget]
  rw [h.offsets s shape k p hs hp, Shape.names, List.getElem?_map, hp]
  exact congrArg some hname

theorem Grown.lookup_of_distinct (h : Grown t) (hs : t.shapes[s]? = some shape)
    (hd : shape.names.Nodup) (hn : shape.names[i]? = some n) : shapeLookup shape n = some i := by
  obtain ⟨p, hp, hname⟩ := names_getElem hn
  have hsome : (shape.properties.find? fun p => p.name = n).isSome = true := by
    rw [List.find?_isSome]
    exact ⟨p, List.mem_of_getElem? hp, by rw [hname]; exact decide_eq_true rfl⟩
  obtain ⟨q, hq⟩ := Option.isSome_iff_exists.mp hsome
  have hfound : shapeLookup shape n = some q.offset := by rw [shapeLookup, hq]; rfl
  have hi := (List.getElem?_eq_some_iff.mp hn).1
  rw [hfound, (List.getElem?_inj hi hd).mp (hn.trans (h.lookup hs hfound).symm)]

theorem Grown.lookup_inj (h : Grown t) (hs : t.shapes[s]? = some shape)
    (hl : shapeLookup shape n = some i) (hl' : shapeLookup shape n' = some i) : n = n' :=
  Option.some.inj ((h.lookup hs hl).symm.trans (h.lookup hs hl'))

theorem Grown.id_inj (h : Grown t) (hfew : t.shapes.length ≤ 2 ^ 32)
    (hs : t.shapes[s]? = some shape) (hs' : t.shapes[s']? = some shape')
    (hid : shape.id = shape'.id) : s = s' := by
  have hlt := (List.getElem?_eq_some_iff.mp hs).1
  have hlt' := (List.getElem?_eq_some_iff.mp hs').1
  rw [h.ids s shape hs, h.ids s' shape' hs'] at hid
  omega

theorem Grown.parent (h : Grown t) (hs : t.shapes[s + 1]? = some shape) :
    ∃ e p, t.transitions[s]? = some e ∧ p ≤ s ∧ ∃ parent, t.shapes[p]? = some parent ∧
      e.parentId = parent.id ∧ shape.names = parent.names ++ [e.name] := by
  have hlt := (List.getElem?_eq_some_iff.mp hs).1
  have hcreated := h.created
  have hi : s < t.transitions.length := by omega
  obtain ⟨-, -, p, hp, parent, child, hparent, hid, hchild, hnames⟩ :=
    h.born s _ (List.getElem?_eq_getElem hi)
  rw [hs] at hchild
  cases hchild
  exact ⟨_, p, List.getElem?_eq_getElem hi, hp, parent, hparent, hid, hnames⟩

theorem Grown.names_inj (h : Grown t) (hs : t.shapes[s]? = some shape)
    (hs' : t.shapes[s']? = some shape') (hn : shape.names = shape'.names) : s = s' := by
  have hroot (k : Nat) (sh : Shape) (hk : t.shapes[k]? = some sh) (hnil : sh.names = []) :
      k = 0 := by
    cases k with
    | zero => rfl
    | succ k =>
      obtain ⟨e, p, -, -, parent, -, -, hnames⟩ := h.parent hk
      rw [hnames] at hnil
      simp at hnil
  induction s using Nat.strongRecOn generalizing s' shape shape' with
  | _ s ih =>
    cases s with
    | zero =>
      rw [h.root] at hs
      cases hs
      exact (hroot s' shape' hs' hn.symm).symm
    | succ s =>
      cases s' with
      | zero =>
        rw [h.root] at hs'
        cases hs'
        exact hroot (s + 1) shape hs hn
      | succ s' =>
        obtain ⟨e, p, he, hp, parent, hparent, hid, hnames⟩ := h.parent hs
        obtain ⟨e', p', he', -, parent', hparent', hid', hnames'⟩ := h.parent hs'
        rw [hnames, hnames'] at hn
        obtain ⟨hpre, hlast⟩ := List.append_inj' hn rfl
        have hsame := ih p (Nat.lt_succ_of_le hp) hparent hparent' hpre
        subst hsame
        rw [hparent] at hparent'
        cases hparent'
        rw [h.keys s s' e e' he he' (hid.trans hid'.symm) (List.singleton_inj.mp hlast)]

theorem Grown.leads (h : Grown t) (hfew : t.shapes.length ≤ 2 ^ 32) {ns : List Name}
    (hl : Leads t ns s) : ∃ shape : Shape, t.shapes[s]? = some shape ∧ shape.names = ns := by
  induction hl with
  | root => exact ⟨_, h.root, rfl⟩
  | add hl hs he hp ih =>
    obtain ⟨sh, hsh, rfl⟩ := ih
    rw [hs] at hsh
    cases hsh
    obtain ⟨i, hi, rfl⟩ := List.getElem_of_mem he
    obtain ⟨hc, -, p, -, parent, child, hparent, hid, hchild, hnames⟩ :=
      h.born i _ (List.getElem?_eq_getElem hi)
    have hsame := h.id_inj hfew hparent hs (hid.symm.trans hp)
    subst hsame
    rw [hs] at hparent
    cases hparent
    rw [hc]
    exact ⟨child, hchild, hnames⟩

theorem Grown.correct_iff (h : Grown t) : TableCorrect t ↔ Sound t := by
  constructor
  · intro hc
    refine ⟨?_, hc.distinct⟩
    by_contra hmany
    rw [Nat.not_le] at hmany
    have h0 := List.getElem?_eq_getElem hmany
    have hid := h.ids _ _ h0
    have hroot := (hc.ids (2 ^ 32) 0 _ _ h0 h.root).1.mp (hid.trans rfl)
    cases hroot
  · intro hs
    refine ⟨fun ns s hl => h.leads hs.few hl, hs.distinct, ?_, ?_⟩
    · intro s shape i n hsh hn
      exact h.lookup_of_distinct hsh (hs.distinct s shape hsh) hn
    · intro s s' shape shape' hsh hsh'
      have hsame (heq : s = s') : shape = shape' := by
        subst heq
        rw [hsh] at hsh'
        exact Option.some.inj hsh'
      exact ⟨⟨h.id_inj hs.few hsh hsh', fun heq => by rw [hsame heq]⟩,
        ⟨h.names_inj hsh hsh', fun heq => by rw [hsame heq]⟩⟩

theorem step_transition_table (st : Session) (s : Nat) (n : Name) (allocated : Bool) :
    (st.step (.transition s n allocated)).table = (shapeTransition allocated st.table s n).1 := rfl

theorem step_lookup_table (st : Session) (s : Nat) (n : Name) :
    (st.step (.lookup s n)).table = st.table := by
  unfold Session.step
  dsimp only
  split <;> rfl

theorem Grown.step (h : Grown st.table) (op : Op) : Grown (st.step op).table := by
  cases op with
  | transition s n allocated => exact h.transition allocated s n
  | lookup s n =>
    rw [step_lookup_table]
    exact h

theorem step_keeps (op : Op) (hs : st.table.shapes[s]? = some shape) :
    (st.step op).table.shapes[s]? = some shape := by
  cases op with
  | lookup s' n =>
    rw [step_lookup_table]
    exact hs
  | transition s' n allocated =>
    rw [step_transition_table]
    rcases shapeTransition_table allocated st.table s' n with heq | ⟨parent, -, -, heq⟩
    · rwa [heq]
    · rw [heq]
      exact extend_shape_old hs _ _

theorem sound_step (st : Session) (op : Op) : Sound (st.step op).table ↔
    Sound st.table ∧ ((∃ s n allocated, op = .transition s n allocated) → st.Fits op) := by
  cases op with
  | lookup s n =>
    rw [step_lookup_table]
    refine ⟨fun hs => ⟨hs, ?_⟩, fun hs => hs.1⟩
    rintro ⟨_, _, _, hop⟩
    cases hop
  | transition s n allocated =>
    rw [step_transition_table]
    rcases shapeTransition_table allocated st.table s n with heq | ⟨shape, hs, -, heq⟩
    · rw [heq]
      exact ⟨fun hs => ⟨hs, fun _ shape _ hne => absurd heq hne⟩, fun hs => hs.1⟩
    · have hlen : (st.table.extend shape n).shapes.length = st.table.shapes.length + 1 := by
        simp [ShapeTable.extend]
      have hnodup : (st.table.child shape n).names.Nodup ↔ n ∉ shape.names ∧ shape.names.Nodup := by
        rw [child_names, List.nodup_append_comm, List.singleton_append, List.nodup_cons]
      rw [heq]
      constructor
      · intro hsound
        have hnew := hsound.distinct _ _ (extend_shape_new st.table shape n)
        have hfew := hsound.few
        refine ⟨⟨by omega, fun s' sh hsh => hsound.distinct s' sh (extend_shape_old hsh _ _)⟩, ?_⟩
        intro _ shape' hs' _
        rw [hs] at hs'
        cases hs'
        exact ⟨(hnodup.mp hnew).1, by omega⟩
      · rintro ⟨hsound, hfits⟩
        have hgrows : (shapeTransition allocated st.table s n).1 ≠ st.table := by
          rw [heq]
          intro hsame
          rw [hsame] at hlen
          omega
        obtain ⟨hnew, hroom⟩ := hfits ⟨s, n, allocated, rfl⟩ shape hs hgrows
        refine ⟨by omega, ?_⟩
        intro s' sh hsh
        rcases extend_shape_cases hsh with hold | ⟨-, rfl⟩
        · exact hsound.distinct s' sh hold
        · exact hnodup.mpr ⟨hnew, hsound.distinct s shape hs⟩

def Session.Filled (st : Session) : Prop :=
  st.cache.shapeId ≠ 0 → ∃ (s : Nat) (shape : Shape), st.table.shapes[s]? = some shape ∧
    shape.id = st.cache.shapeId ∧ shapeLookup shape st.filled = some st.cache.propertyOffset

theorem Session.Filled.step (h : st.Filled) (op : Op) : (st.step op).Filled := by
  cases op with
  | transition s n allocated =>
    intro hne
    obtain ⟨s', shape, hs, hid, hl⟩ := h hne
    exact ⟨s', shape, step_keeps (.transition s n allocated) hs, hid, hl⟩
  | lookup s n =>
    unfold Session.step
    dsimp only
    cases hs : st.table.shapes[s]? with
    | none => exact h
    | some shape =>
      dsimp only
      unfold inlineCacheLookup
      cases hm : st.cache.remembers shape with
      | true => exact h
      | false =>
        cases hl : shapeLookup shape n with
        | none => exact h
        | some off => exact fun _ => ⟨s, shape, hs, rfl, hl⟩

theorem lookup_answers_iff (hg : Grown st.table) (hs : Sound st.table) (hf : st.Filled) :
    st.Answers (.lookup s n) ↔ st.Fits (.lookup s n) := by
  refine forall_congr' fun shape => forall_congr' fun hshape => ?_
  cases hm : st.cache.remembers shape with
  | false =>
    simp only [inlineCacheLookup, hm, Bool.false_eq_true, if_false, false_implies, iff_true]
    cases shapeLookup shape n <;> rfl
  | true =>
    have hparts := hm
    simp only [InlineCache.remembers, Bool.and_eq_true, decide_eq_true_eq] at hparts
    obtain ⟨s', shape', hs', hid, hl⟩ := hf hparts.2
    have hsame := hg.id_inj hs.few hshape hs' (hparts.1.symm.trans hid.symm)
    subst hsame
    rw [hshape] at hs'
    cases hs'
    have hanswer : (inlineCacheLookup st.cache shape n).2 = some st.cache.propertyOffset := by
      rw [inlineCacheLookup, if_pos hm]
    rw [hanswer]
    constructor
    · intro heq _
      exact hg.lookup_inj hshape heq.symm hl
    · intro hfits
      rw [hfits rfl, hl]

theorem run_invariant {P : Session → Prop} (hstep : ∀ st op, P st → P (st.step op)) (h : P st)
    (ops : List Op) : P (st.run ops) := by
  induction ops generalizing st with
  | nil => exact h
  | cons op ops ih => exact ih (hstep st op h)

theorem start_run (ops : List Op) :
    Grown (Session.start.run ops).table ∧ (Session.start.run ops).Filled :=
  run_invariant (P := fun st => Grown st.table ∧ st.Filled)
    (fun _ op h => ⟨h.1.step op, h.2.step op⟩) ⟨.create, fun hne => absurd rfl hne⟩ ops

theorem transition_again (hk : ∃ shape e, st.table.shapes[s]? = some shape ∧
      n ≠ [] ∧ shape.properties.length < shapeMaxProperties ∧
      st.table.known shape n = some e ∧ e.child = c) (op : Op) :
    ∃ shape e, (st.step op).table.shapes[s]? = some shape ∧ n ≠ [] ∧
      shape.properties.length < shapeMaxProperties ∧
      (st.step op).table.known shape n = some e ∧ e.child = c := by
  obtain ⟨shape, e, hs, hn, hroom, hknown, hc⟩ := hk
  refine ⟨shape, e, step_keeps op hs, hn, hroom, ?_, hc⟩
  cases op with
  | lookup s' n' =>
    rw [step_lookup_table]
    exact hknown
  | transition s' n' allocated =>
    rw [step_transition_table]
    rcases shapeTransition_table allocated st.table s' n' with heq | ⟨parent, -, -, heq⟩
    · rwa [heq]
    · rw [heq]
      unfold ShapeTable.known at hknown ⊢
      rw [ShapeTable.extend, List.find?_append, hknown]
      rfl

theorem transition_answers (st : Session) (s : Nat) (n : Name) (allocated : Bool) :
    st.Answers (.transition s n allocated) := by
  intro c hc ops allocated'
  have hknown : ∃ shape e, (st.step (.transition s n allocated)).table.shapes[s]? = some shape ∧
      n ≠ [] ∧ shape.properties.length < shapeMaxProperties ∧
      (st.step (.transition s n allocated)).table.known shape n = some e ∧ e.child = c := by
    rw [step_transition_table]
    rcases shapeTransition_cases allocated st.table s n with heq |
      ⟨shape, e, hs, hn, hroom, hk, heq⟩ | ⟨shape, hs, hn, hroom, hk, heq⟩
    · rw [heq] at hc
      cases hc
    · rw [heq] at hc ⊢
      cases hc
      exact ⟨shape, e, hs, hn, hroom, hk, rfl⟩
    · rw [heq] at hc ⊢
      cases hc
      refine ⟨shape, ⟨shape.id, hashName n, n, st.table.shapes.length⟩,
        extend_shape_old hs _ _, hn, hroom, ?_, rfl⟩
      unfold ShapeTable.known at hk ⊢
      rw [ShapeTable.extend, List.find?_append, hk]
      simp
  obtain ⟨shape, e, hs, hn, hroom, hk, rfl⟩ := run_invariant
    (P := fun st => ∃ shape e, st.table.shapes[s]? = some shape ∧ n ≠ [] ∧
      shape.properties.length < shapeMaxProperties ∧
      st.table.known shape n = some e ∧ e.child = c)
    (fun _ op hk => transition_again hk op) hknown ops
  dsimp only
  rw [shapeTransition, hs]
  dsimp only
  rw [if_neg (by rw [not_or, Nat.not_le]; exact ⟨hn, hroom⟩), hk]

theorem sound_run_iff (st : Session) (ops : List Op) : Sound (st.run ops).table ↔
    Sound st.table ∧ ∀ before op after, ops = before ++ op :: after →
      (∃ s n allocated, op = .transition s n allocated) → (st.run before).Fits op := by
  induction ops generalizing st with
  | nil => simp [Session.run]
  | cons op ops ih =>
    show Sound ((st.step op).run ops).table ↔ _
    rw [ih, sound_step, and_assoc]
    refine and_congr_right fun _ => ?_
    constructor
    · rintro ⟨hfirst, hrest⟩ before op' after hsplit
      cases before with
      | nil =>
        cases hsplit
        exact hfirst
      | cons op₁ before =>
        cases hsplit
        exact hrest before op' after rfl
    · intro hall
      refine ⟨hall [] op ops rfl, ?_⟩
      intro before op' after hsplit
      exact hall (op :: before) op' after (by rw [hsplit]; rfl)

/-- The table is correct and every operation of a run answers rightly exactly when every operation
meets its condition. -/
theorem shapes_correct_iff (ops : List Op) :
    (TableCorrect (Session.start.run ops).table ∧
      ∀ before op after, ops = before ++ op :: after → (Session.start.run before).Answers op) ↔
    ∀ before op after, ops = before ++ op :: after → (Session.start.run before).Fits op := by
  rw [(start_run ops).1.correct_iff, sound_run_iff]
  have hstart : Sound Session.start.table := by
    refine ⟨by decide, ?_⟩
    intro s shape h
    cases s with
    | zero =>
      cases h
      exact List.nodup_nil
    | succ s => cases h
  have hbefore (hfits : ∀ before op after, ops = before ++ op :: after →
      (∃ s n allocated, op = .transition s n allocated) → (Session.start.run before).Fits op)
      (before : List Op) (op : Op) (after : List Op) (hsplit : ops = before ++ op :: after) :
      Sound (Session.start.run before).table := by
    rw [sound_run_iff]
    refine ⟨hstart, ?_⟩
    intro pre op' post hpre
    exact hfits pre op' (post ++ op :: after) (by rw [hsplit, hpre]; simp)
  constructor
  · rintro ⟨⟨-, hfits⟩, hanswers⟩ before op after hsplit
    cases op with
    | transition s n allocated => exact hfits before _ after hsplit ⟨s, n, allocated, rfl⟩
    | lookup s n =>
      obtain ⟨hg, hf⟩ := start_run before
      rw [← lookup_answers_iff hg (hbefore hfits before _ after hsplit) hf]
      exact hanswers before _ after hsplit
  · intro hfits
    refine ⟨⟨hstart, fun before op after hsplit _ => hfits before op after hsplit⟩, ?_⟩
    intro before op after hsplit
    obtain ⟨hg, hf⟩ := start_run before
    cases op with
    | transition s n allocated => exact transition_answers _ s n allocated
    | lookup s n =>
      rw [lookup_answers_iff hg (hbefore (fun before op after hsplit _ =>
        hfits before op after hsplit) before _ after hsplit) hf]
      exact hfits before _ after hsplit

end

def twiceAdded : List Op :=
  [.transition 0 [120] true, .transition 1 [120] true, .transition 1 [121] true,
    .lookup 3 [120], .lookup 3 [121]]

/-- A shape has one name twice, and the cache gives y the offset of x. -/
theorem added_twice_and_mistaken :
    ¬ TableCorrect (Session.start.run twiceAdded).table ∧
    ¬ ∀ before op after, twiceAdded = before ++ op :: after →
      (Session.start.run before).Answers op := by
  constructor
  · intro h
    have hnames := h.distinct 2 ⟨3, [⟨[120], 0⟩, ⟨[120], 1⟩]⟩ (by decide +kernel)
    revert hnames
    decide
  · intro h
    have hanswer := h (twiceAdded.take 4) (.lookup 3 [121]) [] rfl
      ⟨4, [⟨[120], 0⟩, ⟨[121], 1⟩]⟩ (by decide +kernel)
    revert hanswer
    decide +kernel

end TurboJS.Shapes
