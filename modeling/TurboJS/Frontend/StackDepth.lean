import TurboJS.Frontend.Partition
import Mathlib.Data.Finset.Card

namespace TurboJS.Frontend

/-! The interpreter at the level of the program counter and the operand stack. Branches may go
either way, and of the entries only the catch offsets are told apart. -/

inductive Entry where
  | value
  | catchOffset (target : Nat)
  deriving DecidableEq, Repr

structure State where
  pc : Nat
  stack : List Entry
  deriving DecidableEq, Repr

def argumentCount (code : List UInt8) (i : Instruction) : Nat :=
  match i.info.format with
  | .npop | .npopU16 => unsignedAt code (i.offset + 1) 2
  | .npopx => i.opcode - Op.call0
  | _ => 0

/-- Where the stack moves, the iterator opcodes, which keep the iterator on the stack, and
`with_put_var` take the entries they leave from: `some k` is the entry `k` below the top, `none`
a new value. -/
def pickTable : List (Nat × List (Option Nat)) :=
  [(15, [some 0]), (16, [some 0, some 1]), (17, [some 0, some 0]), (18, [some 0, some 1, some 1]),
   (19, [some 0, some 1, some 0, some 1]), (20, [some 0, some 1, some 2, some 0, some 1, some 2]),
   (21, [some 0, some 1, some 0]), (22, [some 0, some 1, some 2, some 0]),
   (23, [some 0, some 1, some 2, some 3, some 0]), (24, [some 0, some 2, some 1]),
   (25, [some 0, some 2, some 3, some 1]), (26, [some 0, some 2, some 3, some 4, some 1]),
   (27, [some 1, some 0]), (28, [some 2, some 3, some 0, some 1]), (29, [some 2, some 0, some 1]),
   (30, [some 1, some 2, some 0]), (31, [some 3, some 0, some 1, some 2]),
   (32, [some 4, some 0, some 1, some 2, some 3]), (Op.withPutVar, [some 1]),
   (129, [none, none, some 0, some 1, some 2]), (132, [none, some 1, some 2, some 3]),
   (133, [none, none, some 1, some 2, some 3])]

def picks (i : Instruction) : List (Option Nat) :=
  (pickTable.lookup i.opcode).getD (List.replicate i.info.push none)

def pushed (code : List UInt8) (i : Instruction) (stack : List Entry) : List Entry :=
  if i.opcode = Op.catch then
    [.catchOffset (i.offset + 1 + signedAt code (i.offset + 1) 4).toNat]
  else if i.opcode = 126 ∨ i.opcode = 127 then [.catchOffset 0, .value, .value]
  else (picks i).map fun p => (p.bind (stack[·]?)).getD .value

def effect (code : List UInt8) (i : Instruction) (stack : List Entry) : Option (List Entry) :=
  if i.opcode = Op.nipCatch then
    match stack with
    | [] => none
    | top :: rest =>
      match rest.dropWhile (fun e => e = .value) with
      | [] => none
      | _ :: rest => some (top :: rest)
  else if stack.length < i.info.pop + argumentCount code i then none
  else some (pushed code i stack ++ stack.drop (i.info.pop + argumentCount code i))

def branchEffect (code : List UInt8) (i : Instruction) (stack : List Entry) : Option (List Entry) :=
  if i.opcode = Op.gosub then some (.value :: stack)
  else if i.opcode = Op.withGetVar ∨ i.opcode = Op.withDeleteVar then
    some (.value :: stack.drop 1)
  else if i.opcode = Op.withPutVar then some (stack.drop 2)
  else if i.opcode = Op.withMakeRef ∨ i.opcode = Op.withGetRef then some (.value :: stack)
  else if i.opcode = Op.withGetRefUndef then some (.value :: .value :: stack.drop 1)
  else effect code i stack

def unwind : List Entry → Option (Nat × List Entry)
  | [] => none
  | .value :: rest => unwind rest
  | .catchOffset target :: rest => if target = 0 then unwind rest else some (target, rest)

inductive Event where
  | falls | branches | exits | returns | raises
  deriving DecidableEq, Repr

/-- One instruction is executed: the stack behind it and where control goes, nowhere if the
function is left. `ret` goes to whatever integer it finds on the stack, and an exception may
come up when operands have been popped. -/
inductive Exec (code : List UInt8) : Event → State → List Entry → Option Nat → Prop where
  | falls {s : State} {i : Instruction} {stack : List Entry} (hd : decodeAt code s.pc = some i)
      (hf : fallsThrough i.opcode = true) (he : effect code i s.stack = some stack) :
      Exec code .falls s stack (some i.next)
  | branches {s : State} {i : Instruction} {stack : List Entry} {q : Nat}
      (hd : decodeAt code s.pc = some i) (ht : branchTarget code i = some (q : Int))
      (he : branchEffect code i s.stack = some stack) : Exec code .branches s stack (some q)
  | exits {s : State} {i : Instruction} {stack : List Entry} (hd : decodeAt code s.pc = some i)
      (hx : i.opcode ∈ [Op.return, Op.returnUndef, Op.returnAsync, Op.throw, Op.throwError,
        Op.tailCall, Op.tailCallMethod])
      (he : effect code i s.stack = some stack) : Exec code .exits s stack none
  | returns {s : State} {i : Instruction} {stack : List Entry} {q : Nat}
      (hd : decodeAt code s.pc = some i) (ho : i.opcode = Op.ret) (hs : s.stack = .value :: stack) :
      Exec code .returns s stack (some q)
  | raises {s : State} {i : Instruction} {n q : Nat} {stack : List Entry}
      (hd : decodeAt code s.pc = some i) (hn : n ≤ i.info.pop + argumentCount code i)
      (hu : unwind (s.stack.drop n) = some (q, stack)) :
      Exec code .raises s (.value :: stack) (some q)

def State.init : State := ⟨0, []⟩

/-- The states that executions reach by instructions that are all `ok`. -/
def Reached (code : List UInt8) (ok : Event → State → Prop) (s : State) : Prop :=
  Relation.ReflTransGen (fun s t => ∃ event, ok event s ∧ Exec code event s t.stack (some t.pc))
    State.init s

/-- The recorded depths are the depths of every execution whose instructions are `ok`. A block
is left when control does not go on with the next instruction inside it. -/
structure DepthsExact (code : List UInt8) (cfg : CFG) (ok : Event → State → Prop) : Prop where
  entry : ∀ s, Reached code ok s → ∀ B ∈ cfg.blocks, s.pc = B.startOffset →
    B.entryStackDepth = some s.stack.length
  exit : ∀ s event stack dest i, Reached code ok s → ok event s → Exec code event s stack dest →
    decodeAt code s.pc = some i → ∀ B ∈ cfg.blocks, B.startOffset ≤ s.pc → s.pc < B.endOffset →
    (dest = some i.next → i.next = B.endOffset) → B.exitStackDepth = some stack.length
  merge : ∀ s t, Reached code ok s → Reached code ok t → s.pc = t.pc →
    (∃ B ∈ cfg.blocks, s.pc = B.startOffset) → s.stack.length = t.stack.length

open IR (Status Diagnostic)
open Foundation

def walk (depth : Nat) (l : List Instruction) : Nat :=
  l.foldl (fun d i => d - i.info.pop + i.info.push) depth

theorem foldlM_stackEffect {stackSize : Nat} {l : List Instruction} {d m e m' : Nat}
    (h : l.foldlM (stackEffect stackSize) (d, m) = .ok (e, m')) : e = walk d l := by
  induction l generalizing d m with
  | nil =>
    cases h
    rfl
  | cons i l ih =>
    rw [List.foldlM_cons] at h
    cases hi : stackEffect stackSize (d, m) i with
    | error _ => simp [hi, bind, Except.bind] at h
    | ok r =>
      simp only [hi, bind, Except.bind] at h
      have hr : r.1 = d - i.info.pop + i.info.push := by
        unfold stackEffect at hi
        split at hi
        · cases hi
        · simp only at hi
          split at hi
          · cases hi
          · cases hi
            rfl
      rw [ih h, hr]
      rfl

section worklist

variable {start : Nat → Nat} {stackSize count : Nat} {body : Nat → List Instruction}
  {successors : Nat → List Nat}

theorem mergeDepth_ok {depth b : Nat} {s t : DepthState} (h : mergeDepth start depth s b = .ok t) :
    s.entry b = none ∧
      t = { s with entry := Function.update s.entry b (some depth), work := s.work ++ [b] } ∨
    s.entry b = some depth ∧ t = s := by
  unfold mergeDepth at h
  cases hb : s.entry b with
  | none =>
    simp only [hb, Except.ok.injEq] at h
    exact .inl ⟨rfl, h.symm⟩
  | some d =>
    simp only [hb] at h
    split at h
    · cases h
    · rename_i hd
      cases h
      exact .inr ⟨by rw [not_not.mp hd], rfl⟩

theorem mergeDepth_carries (depth : Nat) :
    Carries DepthState.entry DepthState.work (mergeDepth start depth) depth := by
  intro s b t h
  rcases mergeDepth_ok h with ⟨hnone, rfl⟩ | ⟨hsome, rfl⟩
  · exact .inl ⟨hnone, rfl, rfl⟩
  · exact .inr ⟨hsome, rfl, rfl⟩

theorem mergeDepth_exit {depth : Nat} {l : List Nat} {s t : DepthState}
    (h : l.foldlM (mergeDepth start depth) s = .ok t) : t.exit = s.exit := by
  refine foldlM_invariant (P := fun u => u.exit = s.exit) ?_ rfl h
  intro u b v hu hv
  rcases mergeDepth_ok hv with ⟨-, rfl⟩ | ⟨-, rfl⟩
  · exact hu
  · exact hu

def Settled (body : Nat → List Instruction) (successors : Nat → List Nat) (s : DepthState)
    (b : Nat) : Prop :=
  ∃ d, s.entry b = some d ∧ s.exit b = some (walk d (body b)) ∧
    ∀ t ∈ successors b, s.entry t = some (walk d (body b))

structure WorkInv (count : Nat) (body : Nat → List Instruction) (successors : Nat → List Nat)
    (s : DepthState) : Prop where
  zero : s.entry 0 = some 0
  pending : ∀ b ∈ s.work, b < count ∧ s.exit b = none ∧ (s.entry b).isSome = true
  nodup : s.work.Nodup
  visited : ∀ b, (s.exit b).isSome = true → (s.entry b).isSome = true
  covered : ∀ b, (s.entry b).isSome = true → b ∈ s.work ∨ Settled body successors s b

def unvisited (count : Nat) (s : DepthState) : Nat :=
  ((Finset.range count).filter fun b => s.exit b = none).card

theorem visitBlock_inv (hsucc : ∀ b < count, ∀ t ∈ successors b, t < count) {b : Nat}
    {rest : List Nat} {s t : DepthState} (h : WorkInv count body successors s)
    (hwork : s.work = b :: rest)
    (hrun : visitBlock stackSize start body successors b { s with work := rest } = .ok t) :
    WorkInv count body successors t ∧ unvisited count t < unvisited count s := by
  obtain ⟨hb, hexit, hentry⟩ := h.pending b (by rw [hwork]; exact List.mem_cons_self)
  obtain ⟨hbrest, hrest⟩ := List.nodup_cons.mp (hwork ▸ h.nodup)
  obtain ⟨d, hd⟩ := Option.isSome_iff_exists.mp hentry
  unfold visitBlock at hrun
  simp only [bind, Except.bind, hd, Option.getD_some] at hrun
  cases hfold : (body b).foldlM (stackEffect stackSize) (d, s.maximum) with
  | error e => simp [hfold] at hrun
  | ok r =>
    obtain ⟨e, m⟩ := r
    simp only [hfold] at hrun
    obtain rfl := foldlM_stackEffect hfold
    obtain ⟨new, hnew, hm⟩ := (mergeDepth_carries _).foldlM hrun
    have hexits : t.exit = Function.update s.exit b (some (walk d (body b))) := mergeDepth_exit hrun
    have hexit_ne : ∀ c, c ≠ b → t.exit c = s.exit c := by
      intro c hc
      rw [hexits, Function.update_of_ne hc]
    have hmem : ∀ c, c ∈ t.work ↔ c ∈ rest ∨ c ∈ new := by
      intro c
      rw [hnew, List.mem_append]
    have hpending : ∀ c ∈ rest, c < count ∧ s.exit c = none ∧ (s.entry c).isSome = true := by
      intro c hc
      exact h.pending c (by rw [hwork]; exact List.mem_cons_of_mem b hc)
    have hfresh : ∀ c ∈ new, c ≠ b ∧ s.exit c = none := by
      intro c hc
      have hnone := (hm.fresh c hc).2
      refine ⟨?_, ?_⟩
      · rintro rfl
        simp [hd] at hnone
      · by_contra hne
        have := h.visited c (Option.isSome_iff_ne_none.mpr hne)
        simp only at hnone
        rw [hnone] at this
        cases this
    have hkeep : ∀ c, (s.entry c).isSome = true → (t.entry c).isSome = true :=
      fun c hc => hm.isSome hc
    refine ⟨⟨hm.kept 0 0 h.zero, ?_, ?_, ?_, ?_⟩, ?_⟩
    · intro c hc
      rcases (hmem c).mp hc with hc | hc
      · have hcb : c ≠ b := fun heq => hbrest (heq ▸ hc)
        obtain ⟨hlt, hx, he⟩ := hpending c hc
        exact ⟨hlt, (hexit_ne c hcb).trans hx, hkeep c he⟩
      · obtain ⟨hcb, hx⟩ := hfresh c hc
        have hl := (hm.fresh c hc).1
        refine ⟨hsucc b hb c hl, (hexit_ne c hcb).trans hx, ?_⟩
        rw [hm.carried c hl]
        rfl
    · rw [hnew]
      refine List.nodup_append.mpr ⟨hrest, hm.nodup, ?_⟩
      rintro c hc c' hc' rfl
      have hnone := (hm.fresh c hc').2
      have hsome := (hpending c hc).2.2
      simp only at hnone
      rw [hnone] at hsome
      cases hsome
    · intro c hc
      by_cases hcb : c = b
      · rw [hcb]
        exact hkeep b hentry
      · rw [hexit_ne c hcb] at hc
        exact hkeep c (h.visited c hc)
    · intro c hc
      rcases hm.labelled c hc with hold | hnew
      · rcases h.covered c hold with hw | ⟨v, hv, hx, hs⟩
        · rw [hwork] at hw
          rcases List.mem_cons.mp hw with rfl | hw
          · right
            refine ⟨d, hm.kept c d hd, ?_, hm.carried⟩
            rw [hexits, Function.update_self]
          · exact .inl ((hmem c).mpr (.inl hw))
        · right
          have hcb : c ≠ b := by
            rintro rfl
            rw [hexit] at hx
            cases hx
          refine ⟨v, hm.kept c v hv, (hexit_ne c hcb).trans hx, ?_⟩
          intro u hu
          exact hm.kept u _ (hs u hu)
      · exact .inl ((hmem c).mpr (.inr hnew))
    · refine Finset.card_lt_card (Finset.ssubset_iff_of_subset ?_ |>.mpr ⟨b, ?_, ?_⟩)
      · intro c hc
        simp only [Finset.mem_filter, Finset.mem_range] at hc ⊢
        refine ⟨hc.1, ?_⟩
        by_cases hcb : c = b
        · rw [hcb]
          exact hexit
        · rw [← hexit_ne c hcb]
          exact hc.2
      · simpa using ⟨hb, hexit⟩
      · simp [hexits]

theorem visitBlocks_inv (hsucc : ∀ b < count, ∀ t ∈ successors b, t < count) {fuel : Nat}
    {s t : DepthState} (h : WorkInv count body successors s) (hfuel : unvisited count s ≤ fuel)
    (hrun : visitBlocks stackSize start body successors fuel s = .ok t) :
    WorkInv count body successors t ∧ t.work = [] := by
  induction fuel generalizing s with
  | zero =>
    obtain rfl : s = t := by
      injection hrun
    refine ⟨h, ?_⟩
    have hnone : unvisited count s = 0 := Nat.le_zero.mp hfuel
    rw [unvisited, Finset.card_eq_zero] at hnone
    rw [List.eq_nil_iff_forall_not_mem]
    intro b hb
    obtain ⟨hlt, hexit, -⟩ := h.pending b hb
    have hmem : b ∈ (Finset.range count).filter fun b => s.exit b = none := by
      simpa using ⟨hlt, hexit⟩
    rw [hnone] at hmem
    simp at hmem
  | succ fuel ih =>
    unfold visitBlocks at hrun
    cases hwork : s.work with
    | nil =>
      simp only [hwork, Except.ok.injEq] at hrun
      subst hrun
      exact ⟨h, hwork⟩
    | cons b rest =>
      simp only [hwork, bind, Except.bind] at hrun
      cases hv : visitBlock stackSize start body successors b { s with work := rest } with
      | error e => simp [hv] at hrun
      | ok u =>
        simp only [hv] at hrun
        obtain ⟨hu, hlt⟩ := visitBlock_inv hsucc h hwork hv
        exact ih hu (by omega) hrun

end worklist

/-- The instruction at a state has the effect of its table row and ends its block where the
builder lets the block end: it has no arguments besides the counted ones, it falls through,
leaves the function or takes a branch the builder knows, a goto or a tail call is followed by a
block end, and `nip_catch` finds the catch offset directly below the top. -/
def TableEffect (code : List UInt8) (event : Event) (s : State) : Prop :=
  ∃ i, decodeAt code s.pc = some i ∧ argumentCount code i = 0 ∧
    (event = .falls ∨ event = .exits ∨
      event = .branches ∧ (kind i.opcode = .goto ∨ kind i.opcode = .conditional)) ∧
    (kind i.opcode = .goto → i.next = code.length ∨ Targeted code i.next) ∧
    (kind i.opcode = .tailCall → i.next = code.length) ∧
    (i.opcode = Op.nipCatch → ∃ top target rest, s.stack = top :: .catchOffset target :: rest)

theorem pickTable_rows : ∀ r ∈ pickTable,
    r.2.length = (opcodeInfo.getD r.1 ⟨0, 0, 0, .none⟩).push := by
  decide +kernel

theorem picks_length (i : Instruction) : (picks i).length = i.info.push := by
  unfold picks
  cases hl : pickTable.lookup i.opcode with
  | none => simp
  | some l =>
    obtain ⟨before, after, hsplit, -⟩ := List.lookup_eq_some_iff.mp hl
    have hmem : (i.opcode, l) ∈ pickTable := by
      rw [hsplit]
      simp
    exact pickTable_rows _ hmem

theorem pushed_length (code : List UInt8) (i : Instruction) (stack : List Entry) :
    (pushed code i stack).length = i.info.push := by
  unfold pushed
  split
  · rename_i hop
    simp only [Instruction.info, hop]
    rfl
  · split
    · rename_i hop
      rcases hop with hop | hop
      · simp only [Instruction.info, hop]
        rfl
      · simp only [Instruction.info, hop]
        rfl
    · rw [List.length_map, picks_length]

theorem effect_length {code : List UInt8} {i : Instruction} {stack stack' : List Entry}
    (h : effect code i stack = some stack') (harg : argumentCount code i = 0)
    (hnip : i.opcode = Op.nipCatch → ∃ top target rest, stack = top :: .catchOffset target :: rest) :
    stack'.length = stack.length - i.info.pop + i.info.push := by
  unfold effect at h
  split at h
  · rename_i hop
    obtain ⟨top, target, rest, rfl⟩ := hnip hop
    simp only [List.dropWhile_cons, reduceCtorEq, decide_false, Bool.false_eq_true, if_false,
      Option.some.injEq] at h
    subst h
    have hinfo : i.info = ⟨1, 2, 1, .none⟩ := by
      simp only [Instruction.info, hop]
      rfl
    simp [hinfo]
  · split at h
    · cases h
    · rename_i hlen
      simp only [Option.some.injEq] at h
      subst h
      rw [harg] at hlen ⊢
      rw [List.length_append, pushed_length, List.length_drop]
      omega

theorem branchEffect_known {code : List UInt8} {i : Instruction} {stack : List Entry}
    (h : kind i.opcode = .goto ∨ kind i.opcode = .conditional) :
    branchEffect code i stack = effect code i stack := by
  have hne : ∀ op, kind op = .missedBranch → i.opcode ≠ op := by
    rintro op hop rfl
    rcases h with h | h <;> rw [hop] at h <;> cases h
  have h1 := hne Op.gosub rfl
  have h2 := hne Op.withGetVar rfl
  have h3 := hne Op.withDeleteVar rfl
  have h4 := hne Op.withPutVar rfl
  have h5 := hne Op.withMakeRef rfl
  have h6 := hne Op.withGetRef rfl
  have h7 := hne Op.withGetRefUndef rfl
  simp only [branchEffect, h1, h2, h3, h4, h5, h6, h7, or_self, if_false]

section tracking

variable {info : BytecodeInfo} {s : Scan} {edges : List Edges} {preds : Nat → List Nat}
  {depths : DepthState} (h : Built info s edges preds depths)

include h

theorem depths_inv : WorkInv s.leaders.length s.blockInstructions
    (fun b => (edges[b]?.map (·.successors)).getD []) depths ∧ depths.work = [] := by
  have hcount : 0 < s.leaders.length := by
    have hpos := h.scanned.instructions_pos h.nonempty
    exact List.length_pos_of_mem (h.scanned.cuts.first hpos)
  have hsucc : ∀ b < s.leaders.length, ∀ t ∈ (edges[b]?.map (·.successors)).getD [],
      t < s.leaders.length := by
    intro b hb t ht
    obtain ⟨e, he, -⟩ := h.edges_get hb
    rw [he] at ht
    exact successors_lt h hb he ht
  refine visitBlocks_inv hsucc ?_ ?_ h.depthsRun
  · refine ⟨by simp, ?_, by simp, by simp, ?_⟩
    · intro b hb
      rw [List.mem_singleton.mp hb]
      simpa using hcount
    · intro b hb
      left
      by_contra hne
      simp only [List.mem_singleton] at hne
      simp [Function.update_of_ne hne] at hb
  · simp [unvisited]

theorem depths_settled {b d : Nat} (hd : depths.entry b = some d) :
    depths.exit b = some (walk d (s.blockInstructions b)) ∧
      ∀ e, edges[b]? = some e → ∀ t ∈ e.successors,
        depths.entry t = some (walk d (s.blockInstructions b)) := by
  obtain ⟨hinv, hwork⟩ := depths_inv h
  rcases hinv.covered b (by rw [hd]; rfl) with hmem | ⟨d', hd', hexit, hs⟩
  · rw [hwork] at hmem
    cases hmem
  · rw [hd, Option.some.injEq] at hd'
    subst hd'
    refine ⟨hexit, ?_⟩
    intro e he t ht
    refine hs t ?_
    simpa [he] using ht

/-- A state inside block `b`: its stack is as deep as the static counts say. -/
structure Inside (b k : Nat) (i : Instruction) (st : State) : Prop where
  block : b < s.leaders.length
  instruction : s.instructions[k]? = some i
  offset : i.offset = st.pc
  left : h.scanned.cuts.start b ≤ k
  right : k < h.scanned.cuts.start (b + 1)
  depth : ∃ d, depths.entry b = some d ∧
    st.stack.length = walk d ((s.instructions.drop (h.scanned.cuts.start b)).take
      (k - h.scanned.cuts.start b))

def Tracked (st : State) : Prop :=
  st.pc = info.bytecode.length ∨ ∃ b k i, Inside h b k i st

variable {h}

theorem Inside.decode {b k : Nat} {i : Instruction} {st : State} (hin : Inside h b k i st) :
    decodeAt info.bytecode st.pc = some i :=
  decodeAt_eq_some.mpr ⟨hin.offset, h.scanned.decoded i (List.mem_of_getElem? hin.instruction)⟩

theorem Inside.enter {b d : Nat} {st : State} (hb : b < s.leaders.length)
    (hd : depths.entry b = some d)
    (hpc : st.pc = s.offsetOf info.bytecode (s.firstInstruction b)) (hlen : st.stack.length = d) :
    ∃ k i, Inside h b k i st := by
  have hlt := h.scanned.cuts.start_lt hb
  have hget := List.getElem?_eq_getElem hlt
  refine ⟨_, _, hb, hget, ?_, Nat.le_refl _, h.scanned.cuts.start_lt_start (Nat.lt_add_one b) hb,
    d, hd, ?_⟩
  · rw [hpc]
    exact (Scanned.offsetOf_eq _ hget).symm
  · rw [hlen, Nat.sub_self, List.take_zero]
    rfl

theorem Inside.walked {b k : Nat} {i : Instruction} {st : State} (hin : Inside h b k i st)
    {stack : List Entry} (hlen : stack.length = st.stack.length - i.info.pop + i.info.push) :
    ∃ d, depths.entry b = some d ∧ stack.length = walk d
      ((s.instructions.drop (h.scanned.cuts.start b)).take (k + 1 - h.scanned.cuts.start b)) := by
  obtain ⟨d, hd, hwalk⟩ := hin.depth
  refine ⟨d, hd, ?_⟩
  have hleft := hin.left
  have hget : (s.instructions.drop (h.scanned.cuts.start b))[k - h.scanned.cuts.start b]? = some i := by
    rw [List.getElem?_drop, ← hin.instruction]
    congr 1
    omega
  have hsub : k + 1 - h.scanned.cuts.start b = k - h.scanned.cuts.start b + 1 := by omega
  rw [hlen, hwalk, hsub, List.take_add_one, hget, walk, walk, List.foldl_append]
  rfl

theorem Inside.walked_all {b k : Nat} {i : Instruction} {st : State} (hin : Inside h b k i st)
    (hlast : i.next = s.offsetOf info.bytecode (s.firstInstruction (b + 1))) {stack : List Entry}
    (hlen : stack.length = st.stack.length - i.info.pop + i.info.push) :
    depths.exit b = some stack.length ∧
      ∀ e, edges[b]? = some e → ∀ t ∈ e.successors, depths.entry t = some stack.length := by
  obtain ⟨d, hd, hwalk⟩ := hin.walked hlen
  have hk := (List.getElem?_eq_some_iff.mp hin.instruction).1
  rw [h.scanned.next_eq hin.instruction] at hlast
  have hend : k + 1 = h.scanned.cuts.start (b + 1) :=
    h.scanned.index_inj hk (h.scanned.cuts.start_le (b + 1)) hlast
  rw [hend] at hwalk
  rw [hwalk]
  exact depths_settled h hd

theorem Inside.falls {b k : Nat} {i : Instruction} {st : State} (hin : Inside h b k i st)
    (hfalls : fallsThrough i.opcode = true) {stack : List Entry}
    (hlen : stack.length = st.stack.length - i.info.pop + i.info.push) :
    Tracked h ⟨i.next, stack⟩ := by
  have hmem := List.mem_of_getElem? hin.instruction
  by_cases hcut : i.next = s.offsetOf info.bytecode (s.firstInstruction (b + 1))
  · by_cases hmore : b + 1 < s.leaders.length
    · right
      obtain ⟨e, he, hrun⟩ := h.edges_get hin.block
      have hlast := h.last_of_next hin.instruction hcut
      have hsucc : b + 1 ∈ e.successors := by
        by_cases hcond : kind i.opcode = .conditional
        · obtain ⟨d, hbr, -⟩ := cfgBranch_conditional info.bytecode hcond
          obtain ⟨t, -, -, hs⟩ := h.successors_branch hin.block hlast hbr hrun
          exact (hs (b + 1)).mpr (.inr ⟨rfl, hmore, rfl⟩)
        · have hkinds := (kind_fallsThrough i.opcode (h.opcode_lt hmem)).mp hfalls
          have hgoto : kind i.opcode ≠ .goto := by
            intro hg
            simp [hg] at hkinds
          have hterm : cfgTerminates i.opcode = false := by
            rw [Bool.eq_false_iff]
            intro ht
            simp [(kind_terminates _).mp ht] at hkinds
          exact (h.successors_other hin.block hlast (cfgBranch_none hgoto hcond) hrun (b + 1)).mpr
            ⟨hterm, hmore, rfl⟩
      obtain ⟨-, hentry⟩ := hin.walked_all hcut hlen
      exact ⟨b + 1, Inside.enter hmore (hentry e he _ hsucc) hcut rfl⟩
    · left
      have hinside := mt h.end_lt_iff.mp hmore
      have hle := (h.scanned.decoded i hmem).inside
      rw [← hcut] at hinside
      exact Nat.le_antisymm hle (Nat.le_of_not_lt hinside)
  · right
    have hk := hin.right
    have hnext : k + 1 < h.scanned.cuts.start (b + 1) := by
      refine Nat.lt_of_le_of_ne hk ?_
      intro heq
      apply hcut
      rw [h.scanned.next_eq hin.instruction, heq]
      rfl
    have hget := List.getElem?_eq_getElem
      (show k + 1 < s.instructions.length from Nat.lt_of_lt_of_le hnext (h.scanned.cuts.start_le _))
    have hleft := hin.left
    refine ⟨b, k + 1, _, hin.block, hget, ?_, by omega, hnext, hin.walked hlen⟩
    rw [h.scanned.next_eq hin.instruction, Scanned.offsetOf_eq _ hget]

theorem Inside.branches {b k q : Nat} {i : Instruction} {st : State} (hin : Inside h b k i st)
    (hkind : kind i.opcode = .goto ∨ kind i.opcode = .conditional)
    (hcut : i.next = s.offsetOf info.bytecode (s.firstInstruction (b + 1)))
    (htarget : branchTarget info.bytecode i = some (q : Int)) {stack : List Entry}
    (hlen : stack.length = st.stack.length - i.info.pop + i.info.push) :
    Tracked h ⟨q, stack⟩ := by
  obtain ⟨e, he, hrun⟩ := h.edges_get hin.block
  obtain ⟨branch, hbr, ht⟩ := cfgBranch_known info.bytecode hkind
  obtain ⟨t, htlt, htoff, hs⟩ :=
    h.successors_branch hin.block (h.last_of_next hin.instruction hcut) hbr hrun
  obtain ⟨-, hentry⟩ := hin.walked_all hcut hlen
  rw [htarget, Option.some.injEq] at ht
  right
  refine ⟨t, Inside.enter htlt (hentry e he t ((hs t).mpr (.inl rfl))) ?_ rfl⟩
  simp only
  omega

theorem Inside.last_of_effect {b k : Nat} {i : Instruction} {st : State} (hin : Inside h b k i st)
    (hmissed : kind i.opcode ≠ .missedBranch) (hends : EndsBlock info.bytecode i)
    (hgoto : kind i.opcode = .goto →
      i.next = info.bytecode.length ∨ Targeted info.bytecode i.next)
    (htail : kind i.opcode = .tailCall → i.next = info.bytecode.length) :
    i.next = s.offsetOf info.bytecode (s.firstInstruction (b + 1)) := by
  have hsplit : SplitBehind info.bytecode i := by
    unfold SplitBehind
    cases hkind : kind i.opcode
    case goto => exact hgoto hkind
    case tailCall => exact htail hkind
    case missedBranch => exact absurd hkind hmissed
    case conditional => trivial
    case terminator => trivial
    case plain => trivial
  have hcut := h.splits (List.mem_of_getElem? hin.instruction) hends hsplit
  exact (h.next_eq_end_iff hin.instruction hin.left hin.right).mpr hcut

theorem Inside.executed {b k : Nat} {i : Instruction} {st : State} (hin : Inside h b k i st)
    {event : Event} {stack : List Entry} {dest : Option Nat}
    (hok : TableEffect info.bytecode event st) (hexec : Exec info.bytecode event st stack dest) :
    stack.length = st.stack.length - i.info.pop + i.info.push ∧
      (dest = some i.next ∧ fallsThrough i.opcode = true ∨
        i.next = s.offsetOf info.bytecode (s.firstInstruction (b + 1)) ∧ (dest = none ∨
          ∃ q : Nat, dest = some q ∧ branchTarget info.bytecode i = some (q : Int) ∧
            (kind i.opcode = .goto ∨ kind i.opcode = .conditional))) := by
  obtain ⟨j, hj, harg, hevent, hgoto, htail, hnip⟩ := hok
  have hsame : ∀ j, decodeAt info.bytecode st.pc = some j → j = i := by
    intro j hj
    rw [hin.decode, Option.some.injEq] at hj
    exact hj.symm
  obtain rfl := hsame j hj
  cases hexec with
  | falls hd hf he =>
    obtain rfl := hsame _ hd
    exact ⟨effect_length he harg hnip, .inl ⟨rfl, hf⟩⟩
  | @branches _ i' _ q hd ht he =>
    obtain rfl := hsame _ hd
    have hkind : kind i'.opcode = .goto ∨ kind i'.opcode = .conditional := by
      rcases hevent with hevent | hevent | ⟨-, hkind⟩
      · cases hevent
      · cases hevent
      · exact hkind
    rw [branchEffect_known hkind] at he
    have hmissed : kind i'.opcode ≠ .missedBranch := by
      rcases hkind with hkind | hkind <;> simp [hkind]
    have hlast := hin.last_of_effect hmissed (.inl (by rw [ht]; rfl)) hgoto htail
    exact ⟨effect_length he harg hnip, .inr ⟨hlast, .inr ⟨_, rfl, ht, hkind⟩⟩⟩
  | @exits _ i' _ hd hx he =>
    obtain rfl := hsame _ hd
    simp only [List.mem_cons, List.not_mem_nil, or_false] at hx
    have hfacts : kind i'.opcode ≠ .missedBranch ∧ fallsThrough i'.opcode = false := by
      rcases hx with hop | hop | hop | hop | hop | hop | hop <;> rw [hop] <;> decide
    have hlast := hin.last_of_effect hfacts.1 (.inr hfacts.2) hgoto htail
    exact ⟨effect_length he harg hnip, .inr ⟨hlast, .inl rfl⟩⟩
  | returns => simp at hevent
  | raises => simp at hevent

theorem reached_tracked {st : State}
    (hr : Reached info.bytecode (TableEffect info.bytecode) st) : Tracked h st := by
  induction hr with
  | refl =>
    right
    have hpos := h.scanned.instructions_pos h.nonempty
    have hcount : 0 < s.leaders.length := List.length_pos_of_mem (h.scanned.cuts.first hpos)
    have hzero : s.offsetOf info.bytecode (s.firstInstruction 0) = 0 := by
      have hfirst : s.firstInstruction 0 = 0 := Cuts.start_zero (c := h.scanned.cuts) hpos
      rw [hfirst]
      exact h.scanned.first
    exact ⟨0, Inside.enter hcount (depths_inv h).1.zero hzero.symm rfl⟩
  | @tail st st' _ hstep ih =>
    obtain ⟨event, hok, hexec⟩ := hstep
    rcases ih with hend | ⟨b, k, i, hin⟩
    · obtain ⟨j, hj, -⟩ := hok
      obtain ⟨hoff, hdec⟩ := decodeAt_eq_some.mp hj
      have := hdec.offset_lt
      omega
    · obtain ⟨hlen, ⟨hdest, hfalls⟩ | ⟨hlast, hdest | ⟨q, hdest, ht, hkind⟩⟩⟩ :=
        hin.executed hok hexec
      · rw [Option.some.injEq] at hdest
        have := hin.falls hfalls hlen
        rwa [← hdest] at this
      · cases hdest
      · rw [Option.some.injEq] at hdest
        have := hin.branches hkind hlast ht hlen
        rwa [← hdest] at this

theorem Inside.block_unique {b b' k : Nat} {i : Instruction} {st : State}
    (hin : Inside h b k i st) (hl : s.offsetOf info.bytecode (s.firstInstruction b') ≤ st.pc)
    (hr : st.pc < s.offsetOf info.bytecode (s.firstInstruction (b' + 1))) : b' = b := by
  rw [← hin.offset] at hl hr
  obtain ⟨hl, hr⟩ := (h.in_block_iff hin.instruction).mp ⟨hl, hr⟩
  exact (Cuts.segment_unique hl hr).trans (Cuts.segment_unique hin.left hin.right).symm

theorem reached_inside {st : State} (hr : Reached info.bytecode (TableEffect info.bytecode) st)
    (hlt : st.pc < info.bytecode.length) : ∃ b k i, Inside h b k i st := by
  rcases reached_tracked (h := h) hr with hend | hin
  · omega
  · exact hin

theorem entry_depth {b : Nat} {st : State} (hb : b < s.leaders.length)
    (hr : Reached info.bytecode (TableEffect info.bytecode) st)
    (hpc : st.pc = s.offsetOf info.bytecode (s.firstInstruction b)) :
    depths.entry b = some st.stack.length := by
  have hlt : s.offsetOf info.bytecode (s.firstInstruction b) <
      s.offsetOf info.bytecode (s.firstInstruction (b + 1)) :=
    h.scanned.offset_lt_offset (h.scanned.cuts.start_lt_start (Nat.lt_add_one b) hb)
      (h.scanned.cuts.start_le _)
  have hend : s.offsetOf info.bytecode (s.firstInstruction (b + 1)) ≤ info.bytecode.length := by
    rw [← Scanned.offsetOf_length (s := s)]
    exact h.scanned.offset_le_offset (h.scanned.cuts.start_le _) (Nat.le_refl _)
  obtain ⟨b', k, i, hin⟩ := reached_inside (h := h) hr (by omega)
  obtain rfl := hin.block_unique (Nat.le_of_eq hpc.symm) (by omega)
  obtain ⟨d, hd, hwalk⟩ := hin.depth
  have hk : k = h.scanned.cuts.start b := by
    refine h.scanned.index_inj (Nat.le_of_lt (List.getElem?_eq_some_iff.mp hin.instruction).1)
      (h.scanned.cuts.start_le _) ?_
    rw [Scanned.offsetOf_eq _ hin.instruction, hin.offset, hpc]
    rfl
  rw [hk, Nat.sub_self, List.take_zero] at hwalk
  rw [hwalk]
  exact hd

end tracking

/-- For every accepted function the recorded depths are those of every execution by instructions
with the effect of their table rows. -/
theorem stack_depths_exact {info : BytecodeInfo} {cfg : CFG} (h : buildCFG info = .ok cfg) :
    DepthsExact info.bytecode cfg (TableEffect info.bytecode) := by
  obtain ⟨s, edges, preds, depths, hbuilt, hblocks, -⟩ := buildCFG_built h
  have hentry : ∀ st, Reached info.bytecode (TableEffect info.bytecode) st →
      ∀ B ∈ cfg.blocks, st.pc = B.startOffset → B.entryStackDepth = some st.stack.length := by
    intro st hr B hB hpc
    obtain ⟨b, hb, rfl⟩ := mem_block hblocks hB
    exact entry_depth (h := hbuilt) hb hr hpc
  refine ⟨hentry, ?_, ?_⟩
  · intro st event stack dest i hr hok hexec hd B hB hl hlt hleaves
    obtain ⟨b', hb', rfl⟩ := mem_block hblocks hB
    obtain ⟨hoff, hdec⟩ := decodeAt_eq_some.mp hd
    have hpc := hdec.offset_lt
    rw [hoff] at hpc
    obtain ⟨b, k, j, hin⟩ := reached_inside (h := hbuilt) hr hpc
    obtain rfl := hin.block_unique hl hlt
    rw [hin.decode, Option.some.injEq] at hd
    subst hd
    obtain ⟨hlen, ⟨hdest, -⟩ | ⟨hlast, -⟩⟩ := hin.executed hok hexec
    · exact (hin.walked_all (hleaves hdest) hlen).1
    · exact (hin.walked_all hlast hlen).1
  · rintro st st' hr hr' hpc ⟨B, hB, hstart⟩
    have h1 := hentry st hr B hB hstart
    have h2 := hentry st' hr' B hB (hpc ▸ hstart)
    rw [h1, Option.some.injEq] at h2
    exact h2

/-- The conditional branch of `smallConditional` is taken with the recorded depths. -/
theorem small_conditional_depths : ∃ cfg, buildCFG smallConditional = .ok cfg ∧
    DepthsExact smallConditional.bytecode cfg (TableEffect smallConditional.bytecode) ∧
    Reached smallConditional.bytecode (TableEffect smallConditional.bytecode) ⟨5, []⟩ := by
  have hsome : (buildCFG smallConditional).toOption.isSome = true := by decide +kernel
  obtain ⟨cfg, hcfg⟩ := Option.isSome_iff_exists.mp hsome
  refine ⟨cfg, ok_of_toOption hcfg, stack_depths_exact (ok_of_toOption hcfg), ?_⟩
  have hd0 : decodeAt smallConditional.bytecode 0 = some ⟨0, 187, 1⟩ := by decide +kernel
  have hd1 : decodeAt smallConditional.bytecode 1 = some ⟨1, 241, 2⟩ := by decide +kernel
  have hpush : Exec smallConditional.bytecode .falls ⟨0, []⟩ [.value] (some 1) :=
    .falls (i := ⟨0, 187, 1⟩) hd0 (by decide) (by decide +kernel)
  have hbranch : Exec smallConditional.bytecode .branches ⟨1, [.value]⟩ [] (some 5) :=
    .branches hd1 (by decide +kernel) (by decide +kernel)
  have hok0 : TableEffect smallConditional.bytecode .falls ⟨0, []⟩ :=
    ⟨_, hd0, by decide +kernel, .inl rfl, fun h => absurd h (by decide),
      fun h => absurd h (by decide), fun h => absurd h (by decide)⟩
  have hok1 : TableEffect smallConditional.bytecode .branches ⟨1, [.value]⟩ :=
    ⟨_, hd1, by decide +kernel, .inr (.inr ⟨rfl, .inr (by decide)⟩),
      fun h => absurd h (by decide), fun h => absurd h (by decide), fun h => absurd h (by decide)⟩
  have hpushed : Reached smallConditional.bytecode (TableEffect smallConditional.bytecode)
      ⟨1, [.value]⟩ := .single ⟨.falls, hok0, hpush⟩
  exact hpushed.tail ⟨.branches, hok1, hbranch⟩

/-- `push_0; array_from 1; return`. -/
def arrayLiteral : BytecodeInfo := ⟨[187, 38, 1, 0, 40], 0, 0⟩

/-- `array_from` pops the element that the table does not count: the recorded depth at the end
is one, and the execution leaves an empty stack. -/
theorem array_literal_depth_is_wrong : ∃ cfg, buildCFG arrayLiteral = .ok cfg ∧
    ¬ DepthsExact arrayLiteral.bytecode cfg (fun _ _ => True) := by
  let cfg : CFG := ⟨[⟨0, 5, 0, 3, some 0, some 1, [], [], true, false, false, true⟩], [0, 1, 4],
    [some 0, some 0, none, none, some 0, none], 2⟩
  refine ⟨cfg, ok_of_toOption (by decide +kernel), ?_⟩
  intro hexact
  have hd0 : decodeAt arrayLiteral.bytecode 0 = some ⟨0, 187, 1⟩ := by decide +kernel
  have hd1 : decodeAt arrayLiteral.bytecode 1 = some ⟨1, 38, 3⟩ := by decide +kernel
  have hd4 : decodeAt arrayLiteral.bytecode 4 = some ⟨4, 40, 1⟩ := by decide +kernel
  have hpush : Exec arrayLiteral.bytecode .falls ⟨0, []⟩ [.value] (some 1) :=
    .falls (i := ⟨0, 187, 1⟩) hd0 (by decide) (by decide +kernel)
  have hfrom : Exec arrayLiteral.bytecode .falls ⟨1, [.value]⟩ [.value] (some 4) :=
    .falls (i := ⟨1, 38, 3⟩) hd1 (by decide) (by decide +kernel)
  have hpushed : Reached arrayLiteral.bytecode (fun _ _ => True) ⟨1, [.value]⟩ :=
    .single ⟨.falls, trivial, hpush⟩
  have harray : Reached arrayLiteral.bytecode (fun _ _ => True) ⟨4, [.value]⟩ :=
    hpushed.tail ⟨.falls, trivial, hfrom⟩
  have hexec : Exec arrayLiteral.bytecode .exits ⟨4, [.value]⟩ [] none :=
    .exits hd4 (by decide) (by decide +kernel)
  have hdepth := hexact.exit _ _ _ _ _ harray trivial hexec hd4 _ (List.mem_singleton.mpr rfl)
    (by decide) (by decide) (by decide)
  exact absurd hdepth (by decide)

end TurboJS.Frontend
