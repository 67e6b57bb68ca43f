import TurboJS.Foundation.Unfolding

namespace TurboJS.Leaf.Ast
open Foundation

/-! Evaluation of a plain expression tree of objects, with a table of what has been evaluated. -/

inductive AstValue where
  | object (address : BitVec 64)
  | string (text : String)
  | int (n : BitVec 32)
  | other
  deriving DecidableEq, Repr

/-- A property of an object; accessors and their like are `special`. -/
inductive AstProperty where
  | normal (value : AstValue)
  | special
  deriving DecidableEq, Repr

structure AstObject where
  classId : Nat
  own : String → Option AstProperty

def jsClassObject : Nat := 1

abbrev AstHeap := BitVec 64 → AstObject

def astOwnValue (heap : AstHeap) (object : BitVec 64) (name : String) : Option AstValue :=
  match (heap object).own name with
  | some (.normal value) => some value
  | _ => none

inductive MemoState where
  | empty | active | complete
  deriving DecidableEq, Repr

structure AstMemoEntry where
  object : BitVec 64
  value : BitVec 32
  state : MemoState
  deriving DecidableEq, Repr

/-- `TurboJSASTEvalState`. Atoms are their texts. `tables` keeps what the writes to the table have
left, the last one first. -/
structure AstEvalState where
  memo : List AstMemoEntry
  memoCapacity : BitVec 32
  nodes : BitVec 32
  tables : List (List AstMemoEntry)
  deriving DecidableEq, Repr

def AstEvalState.write (st : AstEvalState) (index : Nat) (entry : AstMemoEntry) : AstEvalState :=
  { st with memo := st.memo.set index entry, tables := st.memo.set index entry :: st.tables }

/-- The probes of `turbojs_ast_memo_slot`. The inner `none` is the null pointer, the outer one a
read behind the table. -/
def probeMemo (memo : List AstMemoEntry) (mask : BitVec 32) (object : BitVec 64) :
    Nat → BitVec 32 → Option (Option Nat)
  | 0, _ => some none
  | probes + 1, index =>
    match memo[index.toNat]? with
    | none => none
    | some entry =>
      if entry.object = 0 ∨ entry.object = object then some (some index.toNat)
      else probeMemo memo mask object probes ((index + 1) &&& mask)

def astMemoSlot (st : AstEvalState) (object : BitVec 64) : Option (Option Nat) :=
  if st.memoCapacity = 0 ∨ object = 0 then some none
  else
    let mask := st.memoCapacity - 1
    let hash := (object >>> 4) * 11400714819323198485#64
    probeMemo st.memo mask object st.memoCapacity.toNat (hash.setWidth 32 &&& mask)

/-- What comes between the marking of an object and `done`, with the evaluation of its parts.
`allocates` is whether there is memory for the atom of the type, by the number of the node. -/
def evalFields (heap : AstHeap) (allocates : BitVec 32 → Bool)
    (eval : AstEvalState → AstValue → Option (AstEvalState × Option (BitVec 32)))
    (st : AstEvalState) (object : BitVec 64) : Option (AstEvalState × Option (BitVec 32)) :=
  match astOwnValue heap object "type" with
  | some (.string type) =>
    if allocates st.nodes = false then some (st, none)
    else if type = "Literal" then
      match astOwnValue heap object "value" with
      | some (.int literal) => some (st, some literal)
      | _ => some (st, none)
    else if type ≠ "Add" ∧ type ≠ "Mul" then some (st, none)
    else
      match astOwnValue heap object "left" with
      | none => some (st, none)
      | some child =>
        match eval st child with
        | none => none
        | some (st, none) => some (st, none)
        | some (st, some left) =>
          match astOwnValue heap object "right" with
          | none => some (st, none)
          | some child =>
            match eval st child with
            | none => none
            | some (st, none) => some (st, none)
            | some (st, some right) =>
              some (st, some (if type = "Add" then left + right else left * right))
  | _ => some (st, none)

/-- `done`: the entry is completed or cleared. -/
def settleMemo (index : Nat) (out : AstEvalState × Option (BitVec 32)) :
    Option (AstEvalState × Option (BitVec 32)) :=
  match out.1.memo[index]?, out.2 with
  | none, _ => none
  | some entry, some value =>
    some (out.1.write index { entry with value := value, state := .complete }, some value)
  | some entry, none =>
    some (out.1.write index { entry with object := 0, state := .empty }, none)

/-- `turbojs_eval_plain_ast_node`. The outer `none` is a recursion deeper than the fuel or a read
behind the table; the inner one is the return of zero. -/
def evalPlainAstNode (heap : AstHeap) (allocates : BitVec 32 → Bool) :
    Nat → AstEvalState → AstValue → Nat → Option (AstEvalState × Option (BitVec 32))
  | 0, _, _, _ => none
  | fuel + 1, st, node, depth =>
    if 512 < depth then some (st, none)
    else
      let st := { st with nodes := st.nodes + 1 }
      if 1000000 < st.nodes then some (st, none)
      else
        match node with
        | .object object =>
          if object = 0 ∨ (heap object).classId ≠ jsClassObject then some (st, none)
          else
            match astMemoSlot st object with
            | none => none
            | some none => some (st, none)
            | some (some index) =>
              match st.memo[index]? with
              | none => none
              | some entry =>
                let eval st child := evalPlainAstNode heap allocates fuel st child (depth + 1)
                if entry.object = object then
                  match entry.state with
                  | .complete => some (st, some entry.value)
                  | .active => some (st, none)
                  | .empty => (evalFields heap allocates eval st object).bind (settleMemo index)
                else
                  let st := st.write index { entry with object := object, state := .active }
                  (evalFields heap allocates eval st object).bind (settleMemo index)
        | _ => some (st, none)

def emptyMemo (capacity : BitVec 32) : AstEvalState :=
  ⟨List.replicate capacity.toNat ⟨0, 0, .empty⟩, capacity, 0, []⟩

inductive AstOp where
  | add | mul
  deriving DecidableEq, Repr

def AstOp.apply : AstOp → BitVec 32 → BitVec 32 → BitVec 32
  | .add => (· + ·)
  | .mul => (· * ·)

def astShape (heap : AstHeap) : AstValue → Option (Shape (BitVec 32) AstOp AstValue)
  | .object object =>
    if object = 0 ∨ (heap object).classId ≠ jsClassObject then none
    else
      match astOwnValue heap object "type" with
      | some (.string "Literal") =>
        match astOwnValue heap object "value" with
        | some (.int literal) => some (.leaf literal)
        | _ => none
      | some (.string "Add") => do
        some (.node .add (← astOwnValue heap object "left") (← astOwnValue heap object "right"))
      | some (.string "Mul") => do
        some (.node .mul (← astOwnValue heap object "left") (← astOwnValue heap object "right"))
      | _ => none
  | _ => none

def Denotes (heap : AstHeap) (node : AstValue) (v : BitVec 32) : Prop :=
  ∃ tree, Unfolds (astShape heap) node tree ∧ tree.value AstOp.apply = v

structure AstMemoEntry.Sound (heap : AstHeap) (entry : AstMemoEntry) : Prop where
  complete : entry.state = .complete → Denotes heap (.object entry.object) entry.value
  used : entry.object ≠ 0 → entry.state ≠ .empty

structure AstEvalState.Sound (heap : AstHeap) (st : AstEvalState) : Prop where
  size : st.memo.length = st.memoCapacity.toNat
  memo : ∀ entry ∈ st.memo, entry.Sound heap
  tables : ∀ table ∈ st.tables, ∀ entry ∈ table, entry.Sound heap

structure Keeps (st st' : AstEvalState) : Prop where
  capacity : st'.memoCapacity = st.memoCapacity
  entries : ∀ (index : Nat) (entry : AstMemoEntry), st.memo[index]? = some entry →
    entry.object ≠ 0 → st'.memo[index]? = some entry

structure Evaluated (heap : AstHeap) (st : AstEvalState) (node : AstValue) (st' : AstEvalState)
    (out : Option (BitVec 32)) : Prop where
  sound : st'.Sound heap
  keeps : Keeps st st'
  denotes : ∀ v, out = some v → Denotes heap node v

section

variable {heap : AstHeap} {allocates : BitVec 32 → Bool} {st st' st'' : AstEvalState}
  {node : AstValue} {object : BitVec 64} {index : Nat}

theorem Keeps.refl (st : AstEvalState) : Keeps st st := ⟨rfl, fun _ _ h _ => h⟩

theorem Keeps.trans (h : Keeps st st') (h' : Keeps st' st'') : Keeps st st'' :=
  ⟨h'.capacity.trans h.capacity,
    fun index entry he hne => h'.entries index entry (h.entries index entry he hne) hne⟩

theorem Keeps.write {entry : AstMemoEntry} (hentry : st.memo[index]? = some entry)
    (hfree : entry.object = 0) (new : AstMemoEntry) : Keeps st (st.write index new) := by
  refine ⟨rfl, fun i e he hne => ?_⟩
  have hother : index ≠ i := by
    rintro rfl
    rw [hentry] at he
    cases he
    exact hne hfree
  rw [AstEvalState.write, List.getElem?_set_ne hother]
  exact he

theorem AstEvalState.Sound.write (h : st.Sound heap) {new : AstMemoEntry} (hnew : new.Sound heap) :
    (st.write index new).Sound heap := by
  have hmemo : ∀ entry ∈ st.memo.set index new, entry.Sound heap := by
    intro entry he
    rcases List.mem_or_eq_of_mem_set he with he | rfl
    · exact h.memo entry he
    · exact hnew
  refine ⟨?_, hmemo, fun table ht => ?_⟩
  · rw [AstEvalState.write, List.length_set]
    exact h.size
  · rcases List.mem_cons.mp ht with rfl | ht
    · exact hmemo
    · exact h.tables table ht

theorem Evaluated.failed (h : st.Sound heap) : Evaluated heap st node st none :=
  ⟨h, .refl st, nofun⟩

theorem Evaluated.after (h : Keeps st st') {out : Option (BitVec 32)}
    (h' : Evaluated heap st' node st'' out) : Evaluated heap st node st'' out :=
  ⟨h'.sound, h.trans h'.keeps, h'.denotes⟩

theorem probeMemo_spec {memo : List AstMemoEntry} {mask : BitVec 32}
    (hsize : memo.length = mask.toNat + 1) (probes : Nat) (i : BitVec 32)
    (hi : i.toNat ≤ mask.toNat) :
    ∃ slot, probeMemo memo mask object probes i = some slot ∧ ∀ index, slot = some index →
      ∃ entry, memo[index]? = some entry ∧ (entry.object = 0 ∨ entry.object = object) := by
  induction probes generalizing i with
  | zero => exact ⟨none, rfl, nofun⟩
  | succ probes ih =>
    have hin : i.toNat < memo.length := by omega
    have hentry := List.getElem?_eq_getElem hin
    simp only [probeMemo, hentry]
    split
    · rename_i hfound
      refine ⟨_, rfl, fun index hindex => ?_⟩
      cases hindex
      exact ⟨_, hentry, hfound⟩
    · refine ih _ ?_
      rw [BitVec.toNat_and]
      exact Nat.and_le_right

theorem astMemoSlot_spec (hsize : st.memo.length = st.memoCapacity.toNat) :
    ∃ slot, astMemoSlot st object = some slot ∧ ∀ index, slot = some index →
      ∃ entry, st.memo[index]? = some entry ∧ (entry.object = 0 ∨ entry.object = object) := by
  unfold astMemoSlot
  split
  · exact ⟨none, rfl, nofun⟩
  · rename_i hne
    have hcapacity : st.memoCapacity ≠ 0 := fun h => hne (.inl h)
    have hpos : 0 < st.memoCapacity.toNat := by
      refine Nat.pos_of_ne_zero fun h => hcapacity ?_
      exact BitVec.eq_of_toNat_eq h
    have hmask : (st.memoCapacity - 1).toNat = st.memoCapacity.toNat - 1 := by
      have hone : (1 : BitVec 32).toNat = 1 := rfl
      have hlt := st.memoCapacity.isLt
      rw [BitVec.toNat_sub, hone]
      omega
    refine probeMemo_spec (by omega) _ _ ?_
    rw [BitVec.toNat_and]
    exact Nat.and_le_right

theorem astShape_object (hplain : ¬ (object = 0 ∨ (heap object).classId ≠ jsClassObject)) :
    astShape heap (.object object) =
      match astOwnValue heap object "type" with
      | some (.string "Literal") =>
        match astOwnValue heap object "value" with
        | some (.int literal) => some (.leaf literal)
        | _ => none
      | some (.string "Add") => do
        some (.node .add (← astOwnValue heap object "left") (← astOwnValue heap object "right"))
      | some (.string "Mul") => do
        some (.node .mul (← astOwnValue heap object "left") (← astOwnValue heap object "right"))
      | _ => none := by
  rw [astShape, if_neg hplain]

theorem Denotes.literal {n : BitVec 32}
    (hplain : ¬ (object = 0 ∨ (heap object).classId ≠ jsClassObject))
    (htype : astOwnValue heap object "type" = some (.string "Literal"))
    (hvalue : astOwnValue heap object "value" = some (.int n)) :
    Denotes heap (.object object) n := by
  refine ⟨.leaf n, .leaf ?_, rfl⟩
  rw [astShape_object hplain, htype, hvalue]
  rfl

theorem Denotes.operation {type : String} {left right : AstValue} {l r : BitVec 32}
    (hplain : ¬ (object = 0 ∨ (heap object).classId ≠ jsClassObject))
    (htype : astOwnValue heap object "type" = some (.string type))
    (hop : type = "Add" ∨ type = "Mul")
    (hleft : astOwnValue heap object "left" = some left)
    (hright : astOwnValue heap object "right" = some right)
    (hl : Denotes heap left l) (hr : Denotes heap right r) :
    Denotes heap (.object object) (if type = "Add" then l + r else l * r) := by
  obtain ⟨tl, htl, rfl⟩ := hl
  obtain ⟨tr, htr, rfl⟩ := hr
  have hshape := astShape_object hplain
  rcases hop with rfl | rfl
  · refine ⟨.node .add tl tr, Unfolds.node (h := ?_) htl htr, rfl⟩
    rw [hshape, htype, hleft, hright]
    rfl
  · refine ⟨.node .mul tl tr, Unfolds.node (h := ?_) htl htr, rfl⟩
    rw [hshape, htype, hleft, hright]
    rfl

theorem evalFields_spec
    {eval : AstEvalState → AstValue → Option (AstEvalState × Option (BitVec 32))}
    (heval : ∀ st node, st.Sound heap →
      ∃ st' out, eval st node = some (st', out) ∧ Evaluated heap st node st' out)
    (hplain : ¬ (object = 0 ∨ (heap object).classId ≠ jsClassObject)) (h : st.Sound heap) :
    ∃ st' out, evalFields heap allocates eval st object = some (st', out) ∧
      Evaluated heap st (.object object) st' out := by
  unfold evalFields
  cases htype : astOwnValue heap object "type" with
  | none => exact ⟨st, none, rfl, .failed h⟩
  | some type =>
    cases type with
    | object _ | int _ | other => exact ⟨st, none, rfl, .failed h⟩
    | string type =>
      simp only
      by_cases hmemory : allocates st.nodes = false
      · exact ⟨st, none, if_pos hmemory, .failed h⟩
      rw [if_neg hmemory]
      by_cases hliteral : type = "Literal"
      · subst hliteral
        rw [if_pos rfl]
        cases hvalue : astOwnValue heap object "value" with
        | none => exact ⟨st, none, rfl, .failed h⟩
        | some value =>
          cases value with
          | object _ | string _ | other => exact ⟨st, none, rfl, .failed h⟩
          | int n =>
            refine ⟨st, some n, rfl, h, .refl st, fun v hv => ?_⟩
            cases hv
            exact .literal hplain htype hvalue
      rw [if_neg hliteral]
      by_cases hop : type ≠ "Add" ∧ type ≠ "Mul"
      · exact ⟨st, none, if_pos hop, .failed h⟩
      rw [if_neg hop]
      cases hleft : astOwnValue heap object "left" with
      | none => exact ⟨st, none, rfl, .failed h⟩
      | some left =>
        obtain ⟨st₁, l, hl, hlspec⟩ := heval st left h
        simp only [hl]
        cases l with
        | none => exact ⟨st₁, none, rfl, .after hlspec.keeps (.failed hlspec.sound)⟩
        | some l =>
          cases hright : astOwnValue heap object "right" with
          | none => exact ⟨st₁, none, rfl, .after hlspec.keeps (.failed hlspec.sound)⟩
          | some right =>
            obtain ⟨st₂, r, hr, hrspec⟩ := heval st₁ right hlspec.sound
            have hkeeps := hlspec.keeps.trans hrspec.keeps
            simp only [hr]
            cases r with
            | none => exact ⟨st₂, none, rfl, .after hkeeps (.failed hrspec.sound)⟩
            | some r =>
              refine ⟨st₂, _, rfl, hrspec.sound, hkeeps, fun v hv => ?_⟩
              cases hv
              have hop : type = "Add" ∨ type = "Mul" := by
                rw [not_and_or, not_not, not_not] at hop
                exact hop
              exact .operation hplain htype hop hleft hright (hlspec.denotes l rfl)
                (hrspec.denotes r rfl)

theorem settleMemo_spec {out : Option (BitVec 32)} {entry : AstMemoEntry}
    (h : Evaluated heap st (.object object) st' out)
    (hentry : st.memo[index]? = some entry) (hobject : entry.object = object)
    (hne : object ≠ 0) :
    ∃ new, settleMemo index (st', out) = some (st'.write index new, out) ∧ new.Sound heap := by
  have hkept := h.keeps.entries index entry hentry (hobject ▸ hne)
  unfold settleMemo
  simp only [hkept]
  cases out with
  | some v => exact ⟨_, rfl, fun _ => hobject ▸ h.denotes v rfl, fun _ => nofun⟩
  | none => exact ⟨_, rfl, nofun, fun h => absurd rfl h⟩

theorem settled (hplain : ¬ (object = 0 ∨ (heap object).classId ≠ jsClassObject))
    {eval : AstEvalState → AstValue → Option (AstEvalState × Option (BitVec 32))}
    (heval : ∀ st node, st.Sound heap →
      ∃ st' out, eval st node = some (st', out) ∧ Evaluated heap st node st' out)
    (h : st.Sound heap) {entry : AstMemoEntry} (hentry : st.memo[index]? = some entry)
    (hfree : entry.object = 0) :
    ∃ st' out, (evalFields heap allocates eval
        (st.write index { entry with object := object, state := .active }) object).bind
          (settleMemo index) = some (st', out) ∧
      Evaluated heap st (.object object) st' out := by
  have hne : object ≠ 0 := fun h => hplain (.inl h)
  have hmarked : (st.write index { entry with object := object, state := .active }).Sound heap :=
    h.write ⟨nofun, fun _ => nofun⟩
  obtain ⟨st', out, hfields, hspec⟩ := evalFields_spec heval hplain hmarked
  have hat : (st.write index { entry with object := object, state := .active }).memo[index]? =
      some { entry with object := object, state := .active } := by
    have hlt := (List.getElem?_eq_some_iff.mp hentry).1
    exact List.getElem?_set_self hlt
  obtain ⟨new, hsettle, hnew⟩ := settleMemo_spec hspec hat rfl hne
  refine ⟨_, out, by rw [hfields, Option.bind_some, hsettle], hspec.sound.write hnew, ?_,
    hspec.denotes⟩
  -- the entries in use before the marking are other ones
  refine ⟨hspec.keeps.capacity, fun i e he hused => ?_⟩
  have hother : index ≠ i := by
    rintro rfl
    rw [hentry] at he
    cases he
    exact hused hfree
  have hkept := hspec.keeps.entries i e ((Keeps.write hentry hfree _).entries i e he hused) hused
  rw [AstEvalState.write, List.getElem?_set_ne hother]
  exact hkept

theorem evalPlainAstNode_spec (fuel depth : Nat) (hdepth : depth ≤ 513)
    (hfuel : 514 ≤ fuel + depth) (st : AstEvalState) (node : AstValue) (h : st.Sound heap) :
    ∃ st' out, evalPlainAstNode heap allocates fuel st node depth = some (st', out) ∧
      Evaluated heap st node st' out := by
  induction fuel generalizing depth st node with
  | zero => omega
  | succ fuel ih =>
    unfold evalPlainAstNode
    by_cases hdeep : 512 < depth
    · exact ⟨st, none, if_pos hdeep, .failed h⟩
    rw [if_neg hdeep]
    have hcounted : AstEvalState.Sound heap { st with nodes := st.nodes + 1 } :=
      ⟨h.size, h.memo, h.tables⟩
    have hkeeps : Keeps st { st with nodes := st.nodes + 1 } := ⟨rfl, fun _ _ he _ => he⟩
    generalize { st with nodes := st.nodes + 1 } = counted at hcounted hkeeps
    suffices hnode : ∃ st' out, (if 1000000 < counted.nodes then some (counted, none) else _) =
        some (st', out) ∧ Evaluated heap counted node st' out by
      obtain ⟨st', out, heq, hspec⟩ := hnode
      exact ⟨st', out, heq, hspec.after hkeeps⟩
    by_cases hnodes : 1000000 < counted.nodes
    · exact ⟨counted, none, if_pos hnodes, .failed hcounted⟩
    rw [if_neg hnodes]
    cases node with
    | string _ | int _ | other => exact ⟨counted, none, rfl, .failed hcounted⟩
    | object object =>
      simp only
      by_cases hplain : object = 0 ∨ (heap object).classId ≠ jsClassObject
      · exact ⟨counted, none, if_pos hplain, .failed hcounted⟩
      rw [if_neg hplain]
      have heval : ∀ st node, st.Sound heap →
          ∃ st' out, evalPlainAstNode heap allocates fuel st node (depth + 1) = some (st', out) ∧
            Evaluated heap st node st' out :=
        fun st node h => ih (depth + 1) (by omega) (by omega) st node h
      obtain ⟨slot, hslot, hat⟩ :
          ∃ slot, astMemoSlot counted object = some slot ∧ _ := astMemoSlot_spec hcounted.size
      rw [hslot]
      cases slot with
      | none => exact ⟨counted, none, rfl, .failed hcounted⟩
      | some index =>
        obtain ⟨entry, hentry, hfound⟩ := hat index rfl
        have hsound := hcounted.memo entry (List.mem_of_getElem? hentry)
        simp only [hentry]
        by_cases hobject : entry.object = object
        · rw [if_pos hobject]
          cases hstate : entry.state with
          | active => exact ⟨counted, none, rfl, .failed hcounted⟩
          | complete =>
            refine ⟨counted, _, rfl, hcounted, .refl _, fun v hv => ?_⟩
            cases hv
            exact hobject ▸ hsound.complete hstate
          | empty =>
            have hne : entry.object ≠ 0 := hobject ▸ fun hzero => hplain (.inl hzero)
            exact absurd hstate (hsound.used hne)
        · rw [if_neg hobject]
          exact settled hplain heval hcounted hentry (hfound.resolve_right hobject)

theorem emptyMemo_sound (capacity : BitVec 32) : (emptyMemo capacity).Sound heap := by
  refine ⟨List.length_replicate, fun entry he => ?_, nofun⟩
  rw [emptyMemo, List.mem_replicate] at he
  obtain ⟨-, rfl⟩ := he
  exact ⟨nofun, fun h => absurd rfl h⟩

end

/-- The evaluation ends, whatever the heap and the root are. What it returns is the value of the
tree that the root unfolds to, the graph below the root has no cycle then, and in all tables on the
way a completed entry holds the value of its object. -/
theorem evalPlainAstNode_sound (heap : AstHeap) (allocates : BitVec 32 → Bool) (k : Nat)
    (root : AstValue) (fuel : Nat) (hfuel : 514 ≤ fuel) :
    ∃ st out, evalPlainAstNode heap allocates fuel (emptyMemo (1 <<< k)) root 0 = some (st, out) ∧
      (∀ v, out = some v →
        AcyclicFrom (astShape heap) root ∧
        ∃! tree, Unfolds (astShape heap) root tree ∧ tree.value AstOp.apply = v) ∧
      ∀ table ∈ st.memo :: st.tables, ∀ entry ∈ table, entry.state = .complete →
        Denotes heap (.object entry.object) entry.value := by
  obtain ⟨st, out, heq, hspec⟩ := evalPlainAstNode_spec fuel 0
    (by omega) hfuel (emptyMemo (1 <<< k)) root (emptyMemo_sound _)
  refine ⟨st, out, heq, fun v hv => ?_, fun table ht entry he hstate => ?_⟩
  · obtain ⟨tree, htree, hvalue⟩ := hspec.denotes v hv
    exact ⟨htree.acyclic, tree, ⟨htree, hvalue⟩, fun t ht => ht.1.unique htree⟩
  · rcases List.mem_cons.mp ht with rfl | ht
    · exact (hspec.sound.memo entry he).complete hstate
    · exact (hspec.sound.tables table ht entry he).complete hstate

def sharedHeap : AstHeap := fun address =>
  if address = 32 then
    ⟨jsClassObject, fun name =>
      if name = "type" then some (.normal (.string "Literal"))
      else if name = "value" then some (.normal (.int 21)) else none⟩
  else
    ⟨jsClassObject, fun name =>
      if name = "type" then some (.normal (.string "Add"))
      else if name = "left" ∨ name = "right" then some (.normal (.object 32)) else none⟩

theorem shared_literal_sound :
    ∃ st, evalPlainAstNode sharedHeap (fun _ => true) 514 (emptyMemo (1 <<< 1)) (.object 16) 0 =
        some (st, some 42) ∧ AcyclicFrom (astShape sharedHeap) (.object 16) := by
  obtain ⟨st, out, heq, hvalue, -⟩ :=
    evalPlainAstNode_sound sharedHeap (fun _ => true) 1 (.object 16) 514 (by decide)
  have hrun : (evalPlainAstNode sharedHeap (fun _ => true) 514 (emptyMemo (1 <<< 1))
      (.object 16) 0).map Prod.snd = some (some 42) := by decide +kernel
  rw [heq, Option.map_some, Option.some.injEq] at hrun
  exact ⟨st, hrun ▸ heq, (hvalue 42 hrun).1⟩

end TurboJS.Leaf.Ast
