import TurboJS.Optimizing.Pipeline
import TurboJS.Foundation.Fallible

namespace TurboJS.Optimizing

open IR Foundation

/-! The accesses of `lower_graph` to its register map. -/

/-- How the loop of `lower_graph` is left early: with a status, when the output is destroyed, or by
an access outside of `map`. -/
inductive Stop where
  | refused (status : Status)
  | outside (index : Nat)
  deriving DecidableEq, Repr

def Lowering.readMap (s : Lowering) (index : Nat) : Except Stop Nat :=
  if index < maxRegisters then .ok (s.map index) else .error (.outside index)

def Lowering.writeMap (s : Lowering) (index dst : Nat) : Except Stop Lowering :=
  if index < maxRegisters then .ok { s with map := Function.update s.map index dst }
  else .error (.outside index)

/-- `TurboJS_IRAllocateRegister`, with the exit when there is none left. -/
def Lowering.allocate (s : Lowering) : Except Stop (Nat × Lowering) :=
  if maxRegisters ≤ s.registerCount then .error (.refused .outOfMemory)
  else .ok (s.registerCount, { s with registerCount := s.registerCount + 1 })

def Lowering.emit (s : Lowering) (insn : Instruction) : Lowering :=
  { s with instructions := s.instructions ++ [insn] }

/-- `dst=TurboJS_IRAllocateRegister(out)`, `map[v->id]=dst`, and the instruction that fills it. -/
def Lowering.place (s : Lowering) (id : Nat) (insn : Instruction) : Except Stop Lowering := do
  let (dst, s) ← s.allocate
  let s ← s.writeMap id dst
  .ok (s.emit { insn with destination := dst })

def Lowering.readOperand (s : Lowering) (index : Nat) : Except Stop Nat := do
  let register ← s.readMap index
  if register = noRegister then .error (.refused .unsupported) else .ok register

/-- One value of the loop of `lower_graph`, with every access to `map`. -/
def lowerValueAccess (s : Lowering) (v : Value) : Except Stop Lowering :=
  if v.removed || v.opcode = .nop || v.opcode = .guardInt32 then .ok s
  else
    match v.opcode with
    | .argument => s.place v.id
        { opcode := .argument, immediate := v.immediate, bytecodeOffset := v.sourceInstruction }
    | .constantI64 => s.place v.id
        { opcode := .constantI64, immediate := v.immediate, bytecodeOffset := v.sourceInstruction }
    | .ret =>
      if maxRegisters ≤ v.left then .error (.refused .unsupported)
      else do
        let left ← s.readOperand v.left
        .ok (s.emit { opcode := .returnI64, left, bytecodeOffset := v.sourceInstruction })
    | op =>
      match loweredOpcode op with
      | none => .error (.refused .unsupported)
      | some opcode =>
        if maxRegisters ≤ v.left ∨ maxRegisters ≤ v.right then .error (.refused .unsupported)
        else do
          let left ← s.readOperand v.left
          let right ← s.readOperand v.right
          s.place v.id { opcode, left, right, bytecodeOffset := v.sourceInstruction }

/-- `lower_graph`: a status and the output, or how it stopped before it had one. -/
def lowerGraphAccess (g : Graph) (argumentCount : Nat) : Except Stop (Status × Function) :=
  if g.blockCount ≠ 1 then .error (.refused .unsupported)
  else do
    let s ← g.values.foldlM lowerValueAccess {}
    let out : Function :=
      { instructions := s.instructions, registerCount := s.registerCount
        argumentCount := argumentCount, localCount := 0 }
    .ok ((irVerify out).status, out)

def isSkipped (v : Value) : Bool := v.removed || v.opcode = .nop || v.opcode = .guardInt32

def isPlaced (v : Value) : Bool :=
  !isSkipped v && (v.opcode = .argument || v.opcode = .constantI64 || (loweredOpcode v.opcode).isSome)

def Placed (before : List Value) (x : Nat) : Prop :=
  x < maxRegisters ∧ ∃ u ∈ before, isPlaced u = true ∧ u.id = x

/-- What the loop asks of the operands of a value behind `before`. -/
def OperandsPlaced (before : List Value) (v : Value) : Prop :=
  v.opcode = .argument ∨ v.opcode = .constantI64 ∨
    Placed before v.left ∧ (v.opcode = .ret ∨ Placed before v.right)

/-- The values that the loop gets through: it passes over a value, or it finds the operands of a
return, or those of a value that gets a register and an entry of the map. -/
inductive Passes : List Value → Prop where
  | nil : Passes []
  | skip {before : List Value} {v : Value} (h : Passes before) (hs : isSkipped v = true) :
      Passes (before ++ [v])
  | ret {before : List Value} {v : Value} (h : Passes before) (hs : isSkipped v = false)
      (hop : v.opcode = .ret) (hleft : Placed before v.left) : Passes (before ++ [v])
  | place {before : List Value} {v : Value} (h : Passes before) (hp : isPlaced v = true)
      (ho : OperandsPlaced before v) (hfew : before.countP isPlaced < maxRegisters)
      (hid : v.id < maxRegisters) : Passes (before ++ [v])

/-- The loop comes to a value whose operands it knows, has a register left for it, and writes its
entry of the map although the number of the value is too large. -/
def WritesOutside (g : Graph) : Prop :=
  g.blockCount = 1 ∧ ∃ before v after, g.values = before ++ v :: after ∧ Passes before ∧
    isPlaced v = true ∧ OperandsPlaced before v ∧ before.countP isPlaced < maxRegisters ∧
    maxRegisters ≤ v.id

/-- The graph needs more registers than there are, or a value that gets one has a number past the
map. -/
def TooLarge (g : Graph) : Prop :=
  maxRegisters < g.values.countP isPlaced ∨
    ∃ v ∈ g.values, isPlaced v = true ∧ maxRegisters ≤ v.id

def WithinMap (g : Graph) (argumentCount : Nat) : Prop :=
  (∀ index, lowerGraphAccess g argumentCount ≠ .error (.outside index)) ∧
    (TooLarge g → ∃ status, status ≠ .ok ∧
      lowerGraphAccess g argumentCount = .error (.refused status))

structure MapHolds (before : List Value) (s : Lowering) : Prop where
  count : s.registerCount = before.countP isPlaced
  few : s.registerCount ≤ maxRegisters
  mapped : ∀ x, s.map x ≠ noRegister ↔ ∃ u ∈ before, isPlaced u = true ∧ u.id = x
  small : ∀ u ∈ before, isPlaced u = true → u.id < maxRegisters

section

variable {before : List Value} {s t : Lowering} {v : Value}

theorem MapHolds.start : MapHolds [] {} :=
  ⟨rfl, Nat.zero_le _, fun _ => iff_of_false (fun h => h rfl) (by simp), by simp⟩

theorem MapHolds.other (h : MapHolds before s) (hv : isPlaced v = false) (is : List Instruction) :
    MapHolds (before ++ [v]) { s with instructions := is } := by
  refine ⟨?_, h.few, fun x => ?_, fun u hu hp => ?_⟩
  · rw [List.countP_append, List.countP_singleton, hv]
    exact h.count
  · rw [h.mapped]
    simp [or_and_right, exists_or, hv]
  · rcases List.mem_append.mp hu with hu | hu
    · exact h.small u hu hp
    · rw [List.mem_singleton.mp hu, hv] at hp
      cases hp

theorem MapHolds.placed_iff (h : MapHolds before s) (x : Nat) :
    Placed before x ↔ x < maxRegisters ∧ s.map x ≠ noRegister :=
  and_congr_right fun _ => (h.mapped x).symm

theorem MapHolds.place (h : MapHolds before s) (hv : isPlaced v = true)
    (hfew : before.countP isPlaced < maxRegisters) (hid : v.id < maxRegisters)
    (insn : Instruction) :
    ∃ t, s.place v.id insn = .ok t ∧ MapHolds (before ++ [v]) t := by
  have hcount : (before ++ [v]).countP isPlaced = s.registerCount + 1 := by
    rw [List.countP_append, List.countP_singleton, hv, if_pos rfl, h.count]
  refine ⟨{ s with instructions := s.instructions ++ [{ insn with destination := s.registerCount }]
                   registerCount := s.registerCount + 1
                   map := Function.update s.map v.id s.registerCount }, ?_,
    ⟨hcount.symm, ?_, fun x => ?_, fun u hu hp => ?_⟩⟩
  · rw [Lowering.place, Lowering.allocate, if_neg (by rw [h.count]; omega)]
    simp only [bind, Except.bind, Lowering.writeMap, if_pos hid]
    rfl
  · have := h.count
    show s.registerCount + 1 ≤ maxRegisters
    omega
  · show Function.update s.map v.id s.registerCount x ≠ noRegister ↔ _
    by_cases hx : x = v.id
    · have := h.count
      subst hx
      rw [Function.update_self]
      exact iff_of_true (by simp only [maxRegisters, noRegister] at *; omega) ⟨v, by simp, hv, rfl⟩
    · rw [Function.update_of_ne hx, h.mapped]
      simp [or_and_right, exists_or, hv, Ne.symm hx]
  · rcases List.mem_append.mp hu with hu | hu
    · exact h.small u hu hp
    · rwa [List.mem_singleton.mp hu]

theorem MapHolds.place_outside (h : MapHolds before s)
    (hfew : before.countP isPlaced < maxRegisters) (hid : maxRegisters ≤ v.id)
    (insn : Instruction) : s.place v.id insn = .error (.outside v.id) := by
  rw [Lowering.place, Lowering.allocate, if_neg (by rw [h.count]; omega)]
  simp only [bind, Except.bind, Lowering.writeMap, if_neg (Nat.not_lt.mpr hid)]

theorem MapHolds.place_refused (h : MapHolds before s)
    (hfull : maxRegisters ≤ before.countP isPlaced) (insn : Instruction) :
    s.place v.id insn = .error (.refused .outOfMemory) := by
  rw [Lowering.place, Lowering.allocate, if_pos (by rw [h.count]; omega)]
  rfl

theorem lowerValueAccess_skipped (hs : isSkipped v = true) : lowerValueAccess s v = .ok s :=
  if_pos hs

theorem MapHolds.readOperand (h : MapHolds before s) {x : Nat} (hx : x < maxRegisters) :
    (Placed before x ∧ s.readOperand x = .ok (s.map x)) ∨
      (¬ Placed before x ∧ s.readOperand x = .error (.refused .unsupported)) := by
  rw [h.placed_iff, Lowering.readOperand, Lowering.readMap, if_pos hx]
  by_cases hm : s.map x = noRegister
  · exact .inr ⟨fun hp => hp.2 hm, if_pos hm⟩
  · exact .inl ⟨⟨hx, hm⟩, if_neg hm⟩

theorem not_skipped (hs : isSkipped v = false) :
    ¬ (v.removed || v.opcode = .nop || v.opcode = .guardInt32) = true := by
  rw [isSkipped] at hs
  rw [hs]
  exact Bool.false_ne_true

theorem MapHolds.lower_ret (h : MapHolds before s) (hs : isSkipped v = false)
    (hop : v.opcode = .ret) :
    (Placed before v.left ∧ ∃ insn, lowerValueAccess s v = .ok (s.emit insn)) ∨
    (¬ Placed before v.left ∧ lowerValueAccess s v = .error (.refused .unsupported)) := by
  rw [lowerValueAccess, if_neg (not_skipped hs), hop]
  by_cases hl : v.left < maxRegisters
  · dsimp only
    rw [if_neg (Nat.not_le.mpr hl)]
    rcases h.readOperand hl with ⟨hp, hr⟩ | ⟨hp, hr⟩ <;> rw [hr]
    · exact .inl ⟨hp, _, rfl⟩
    · exact .inr ⟨hp, rfl⟩
  · exact .inr ⟨fun hp => hl hp.1, if_pos (Nat.not_lt.mp hl)⟩

theorem MapHolds.lower_placed (h : MapHolds before s) (hv : isPlaced v = true) :
    (OperandsPlaced before v ∧ ∃ insn, lowerValueAccess s v = s.place v.id insn) ∨
    (¬ OperandsPlaced before v ∧ lowerValueAccess s v = .error (.refused .unsupported)) := by
  simp only [isPlaced, Bool.and_eq_true, Bool.not_eq_true', Bool.or_eq_true,
    decide_eq_true_eq] at hv
  obtain ⟨hs, hop⟩ := hv
  rw [lowerValueAccess, if_neg (not_skipped hs)]
  rcases hop with (hop | hop) | hop
  · exact .inl ⟨.inl hop, _, by rw [hop]⟩
  · exact .inl ⟨.inr (.inl hop), _, by rw [hop]⟩
  · obtain ⟨opcode, hopcode⟩ := Option.isSome_iff_exists.mp hop
    have hplaced : OperandsPlaced before v ↔ Placed before v.left ∧ Placed before v.right := by
      rw [OperandsPlaced]
      cases ho : v.opcode <;> rw [ho] at hop <;>
        first | exact absurd hop Bool.false_ne_true | simp only [reduceCtorEq, false_or]
    rw [hplaced]
    split
    · next ho => exact absurd (by rwa [ho] at hop) Bool.false_ne_true
    · next ho => exact absurd (by rwa [ho] at hop) Bool.false_ne_true
    · next ho => exact absurd (by rwa [ho] at hop) Bool.false_ne_true
    · rw [hopcode]
      dsimp only
      by_cases hlarge : maxRegisters ≤ v.left ∨ maxRegisters ≤ v.right
      · refine .inr ⟨fun hp => ?_, if_pos hlarge⟩
        exact hlarge.elim (Nat.not_le.mpr hp.1.1) (Nat.not_le.mpr hp.2.1)
      · rw [if_neg hlarge]
        obtain ⟨hl, hr⟩ := not_or.mp hlarge
        rcases h.readOperand (Nat.not_le.mp hl) with ⟨hp, hread⟩ | ⟨hp, hread⟩ <;> rw [hread]
        · rcases h.readOperand (Nat.not_le.mp hr) with ⟨hp', hread'⟩ | ⟨hp', hread'⟩ <;>
            rw [hread']
          · exact .inl ⟨⟨hp, hp'⟩, _, rfl⟩
          · exact .inr ⟨fun hboth => hp' hboth.2, rfl⟩
        · exact .inr ⟨fun hboth => hp hboth.1, rfl⟩

theorem lowerValueAccess_other (hs : isSkipped v = false) (hp : isPlaced v = false)
    (hop : v.opcode ≠ .ret) : lowerValueAccess s v = .error (.refused .unsupported) := by
  simp only [isPlaced, hs, Bool.not_false, Bool.true_and, Bool.or_eq_false_iff,
    decide_eq_false_iff_not, Option.isSome_eq_false_iff, Option.isNone_iff_eq_none] at hp
  rw [lowerValueAccess, if_neg (not_skipped hs)]
  split
  · next ho => exact absurd ho hp.1.1
  · next ho => exact absurd ho hp.1.2
  · next ho => exact absurd ho hop
  · rw [hp.2]

theorem define_eq_place (s : Lowering) (id : Nat) (insn : Instruction) :
    s.define id insn = (s.place id insn).toOption := by
  rw [Lowering.define, Lowering.place, Lowering.allocate]
  by_cases hfull : maxRegisters ≤ s.registerCount
  · simp [hfull, bind, Except.bind, Except.toOption]
  · by_cases hid : id < maxRegisters <;>
      simp [hfull, hid, Nat.not_le.mpr, Nat.not_lt.mp, bind, Except.bind, Except.toOption,
        Lowering.writeMap, Lowering.emit]

theorem readOperand_eq {x : Nat} (hx : x < maxRegisters) : s.readOperand x =
    if s.mapped x then .ok (s.map x) else .error (.refused .unsupported) := by
  by_cases hm : s.map x = noRegister <;>
    simp [Lowering.readOperand, Lowering.readMap, Lowering.mapped, hx, hm, bind, Except.bind]

theorem not_mapped {x : Nat} (hx : maxRegisters ≤ x) : s.mapped x = false := by
  simp [Lowering.mapped, Nat.not_lt.mpr hx]

theorem lowerValue_eq (s : Lowering) (v : Value) :
    lowerValue s v = (lowerValueAccess s v).toOption := by
  have hbinary (opcode : Opcode) :
      (if !s.mapped v.left || !s.mapped v.right then none
        else s.define v.id { opcode, left := s.map v.left, right := s.map v.right
                             bytecodeOffset := v.sourceInstruction }) =
      (if maxRegisters ≤ v.left ∨ maxRegisters ≤ v.right then .error (.refused .unsupported)
        else do
          let left ← s.readOperand v.left
          let right ← s.readOperand v.right
          s.place v.id { opcode, left, right
                         bytecodeOffset := v.sourceInstruction } : Except Stop Lowering).toOption := by
    by_cases hlarge : maxRegisters ≤ v.left ∨ maxRegisters ≤ v.right
    · rw [if_pos hlarge]
      rcases hlarge with h | h <;> simp [not_mapped h, Except.toOption]
    · obtain ⟨hl, hr⟩ := not_or.mp hlarge
      rw [if_neg hlarge, readOperand_eq (Nat.not_le.mp hl), readOperand_eq (Nat.not_le.mp hr)]
      cases s.mapped v.left <;> cases s.mapped v.right <;>
        first | rfl | exact define_eq_place s _ _
  unfold lowerValue lowerValueAccess
  split
  · rfl
  · cases v.opcode with
    | argument | constantI64 => exact define_eq_place s _ _
    | ret =>
      by_cases hl : maxRegisters ≤ v.left
      · simp [not_mapped hl, hl, Except.toOption]
      · simp only [hl, if_false, readOperand_eq (Nat.not_le.mp hl)]
        cases s.mapped v.left <;> rfl
    | addI64 | subI64 | mulI64 | lessThanI64 => exact hbinary _
    | _ => rfl

theorem not_placed_of_skipped (hs : isSkipped v = true) : isPlaced v = false := by
  rw [isPlaced, hs]
  rfl

theorem not_placed_of_ret (hop : v.opcode = .ret) : isPlaced v = false := by
  simp [isPlaced, hop, loweredOpcode]

theorem MapHolds.step (h : MapHolds before s) (hb : Passes before) (v : Value) :
    (∃ t, lowerValueAccess s v = .ok t ∧ MapHolds (before ++ [v]) t ∧ Passes (before ++ [v])) ∨
    (∃ index, lowerValueAccess s v = .error (.outside index) ∧ isPlaced v = true ∧
      OperandsPlaced before v ∧ before.countP isPlaced < maxRegisters ∧ maxRegisters ≤ v.id) ∨
    ∃ status, status ≠ .ok ∧ lowerValueAccess s v = .error (.refused status) := by
  cases hs : isSkipped v with
  | true =>
    exact .inl ⟨s, lowerValueAccess_skipped hs, h.other (not_placed_of_skipped hs) _, hb.skip hs⟩
  | false =>
    by_cases hop : v.opcode = .ret
    · rcases h.lower_ret hs hop with ⟨hp, insn, hlower⟩ | ⟨-, hlower⟩
      · exact .inl ⟨_, hlower, h.other (not_placed_of_ret hop) _, hb.ret hs hop hp⟩
      · exact .inr (.inr ⟨_, by decide, hlower⟩)
    · cases hp : isPlaced v with
      | false => exact .inr (.inr ⟨_, by decide, lowerValueAccess_other hs hp hop⟩)
      | true =>
        rcases h.lower_placed hp with ⟨ho, insn, hlower⟩ | ⟨-, hlower⟩
        · rcases Nat.lt_or_ge (before.countP isPlaced) maxRegisters with hfew | hfull
          · rcases Nat.lt_or_ge v.id maxRegisters with hid | hid
            · obtain ⟨t, hplace, ht⟩ := h.place hp hfew hid insn
              exact .inl ⟨t, hlower.trans hplace, ht, hb.place hp ho hfew hid⟩
            · exact .inr (.inl ⟨_, hlower.trans (h.place_outside hfew hid insn), rfl, ho, hfew, hid⟩)
          · exact .inr (.inr ⟨_, by decide, hlower.trans (h.place_refused hfull insn)⟩)
        · exact .inr (.inr ⟨_, by decide, hlower⟩)

theorem Passes.runs (h : Passes before) :
    ∃ s, before.foldlM lowerValueAccess {} = .ok s ∧ MapHolds before s := by
  have hstep {before : List Value} {v : Value} {s t : Lowering}
      (hs : before.foldlM lowerValueAccess {} = .ok s) (hv : lowerValueAccess s v = .ok t)
      (ht : MapHolds (before ++ [v]) t) :
      ∃ t, (before ++ [v]).foldlM lowerValueAccess {} = .ok t ∧ MapHolds (before ++ [v]) t := by
    refine ⟨t, ?_, ht⟩
    rw [List.foldlM_append, hs]
    exact bind_eq_ok.mpr ⟨s, rfl, bind_eq_ok.mpr ⟨t, hv, rfl⟩⟩
  induction h with
  | nil => exact ⟨{}, rfl, .start⟩
  | skip _ hs ih =>
    obtain ⟨s, hfold, hm⟩ := ih
    exact hstep hfold (lowerValueAccess_skipped hs) (hm.other (not_placed_of_skipped hs) _)
  | ret _ hs hop hleft ih =>
    obtain ⟨s, hfold, hm⟩ := ih
    rcases hm.lower_ret hs hop with ⟨-, insn, hlower⟩ | ⟨hno, -⟩
    · exact hstep hfold hlower (hm.other (not_placed_of_ret hop) _)
    · exact absurd hleft hno
  | place _ hp ho hfew hid ih =>
    obtain ⟨s, hfold, hm⟩ := ih
    rcases hm.lower_placed hp with ⟨-, insn, hlower⟩ | ⟨hno, -⟩
    · obtain ⟨t, hplace, ht⟩ := hm.place hp hfew hid insn
      exact hstep hfold (hlower.trans hplace) ht
    · exact absurd ho hno

theorem MapHolds.run (h : MapHolds before s) (hb : Passes before) (rest : List Value) :
    (∃ t, rest.foldlM lowerValueAccess s = .ok t ∧ MapHolds (before ++ rest) t) ∨
    (∃ index, rest.foldlM lowerValueAccess s = .error (.outside index) ∧
      ∃ middle v after, rest = middle ++ v :: after ∧ Passes (before ++ middle) ∧
        isPlaced v = true ∧ OperandsPlaced (before ++ middle) v ∧
        (before ++ middle).countP isPlaced < maxRegisters ∧ maxRegisters ≤ v.id) ∨
    ∃ status, status ≠ .ok ∧ rest.foldlM lowerValueAccess s = .error (.refused status) := by
  induction rest generalizing before s with
  | nil => exact .inl ⟨s, rfl, by rwa [List.append_nil]⟩
  | cons v rest ih =>
    rw [List.foldlM_cons]
    rcases h.step hb v with ⟨t, hv, ht, hpass⟩ | ⟨index, hv, hspec⟩ | ⟨status, hne, hv⟩ <;> rw [hv]
    · have := ih ht hpass
      simp only [List.append_assoc, List.singleton_append] at this
      refine this.imp_right (.imp_left ?_)
      rintro ⟨index, hout, middle, u, after, rfl, hspec⟩
      exact ⟨index, hout, v :: middle, u, after, rfl, hspec⟩
    · exact .inr (.inl ⟨index, rfl, [], v, rest, rfl, by rwa [List.append_nil], by
        simpa only [List.append_nil] using hspec⟩)
    · exact .inr (.inr ⟨status, hne, rfl⟩)

/-- Every access of `lower_graph` to its map is inside, and what is too large is refused, unless
the loop comes to a value that it places past the map. -/
theorem lowerGraph_within_iff (g : Graph) (argumentCount : Nat) :
    WithinMap g argumentCount ↔ ¬ WritesOutside g := by
  by_cases hone : g.blockCount = 1
  · obtain ⟨rest, haccess, hok⟩ : ∃ rest : Lowering → Except Stop (Status × Function),
        lowerGraphAccess g argumentCount = g.values.foldlM lowerValueAccess {} >>= rest ∧
          ∀ s, ∃ r, rest s = .ok r :=
      ⟨_, if_neg (not_not.mpr hone), fun s => ⟨_, rfl⟩⟩
    constructor
    · rintro ⟨hinside, -⟩ ⟨-, before, v, after, hvalues, hpass, hp, ho, hfew, hid⟩
      obtain ⟨s, hfold, hm⟩ := hpass.runs
      refine hinside v.id ?_
      rcases hm.lower_placed hp with ⟨-, insn, hlower⟩ | ⟨hno, -⟩
      · rw [haccess, hvalues, List.foldlM_append, hfold]
        simp only [bind, Except.bind, List.foldlM_cons, hlower, hm.place_outside hfew hid]
      · exact absurd ho hno
    · intro hno
      rcases MapHolds.start.run .nil g.values with ⟨t, hfold, ht⟩ |
        ⟨index, -, middle, v, after, hvalues, hspec⟩ | ⟨status, hne, hfold⟩
      · refine ⟨fun index h => ?_, fun hlarge => ?_⟩
        · obtain ⟨r, hr⟩ := hok t
          rw [haccess, hfold] at h
          exact nomatch hr.symm.trans h
        · have hcount := ht.count
          have hfew := ht.few
          rcases hlarge with hlarge | ⟨v, hv, hp, hid⟩
          · rw [List.nil_append] at hcount
            omega
          · exact absurd (ht.small v hv hp) (Nat.not_lt.mpr hid)
      · exact absurd ⟨hone, middle, v, after, hvalues, hspec⟩ hno
      · have hrefused : lowerGraphAccess g argumentCount = .error (.refused status) := by
          rw [haccess, hfold]
          rfl
        refine ⟨fun index h => ?_, fun _ => ⟨status, hne, hrefused⟩⟩
        rw [hrefused] at h
        cases h
  · have hrefused : lowerGraphAccess g argumentCount = .error (.refused .unsupported) := if_pos hone
    refine iff_of_true ⟨fun index h => ?_, fun _ => ⟨_, by decide, hrefused⟩⟩ fun h => hone h.1
    rw [hrefused] at h
    cases h

end

def manyConstants : Function where
  instructions := ((List.range 65).map fun i =>
      { opcode := .constantI64, destination := 0, immediate := BitVec.ofNat 64 i }) ++
    [{ opcode := .returnI64, left := 0 }]
  registerCount := 1
  argumentCount := 0
  localCount := 0

/-- One value is left of the constants, and its number is past the map. -/
theorem last_constant_outside :
    ¬ ∀ (fuel : Nat) (f : Function) (feedback : Option FeedbackVector) (g₁ g₂ g : Graph),
      (irVerify f).status = .ok → ssaBuildFromIR fuel f = some g₁ →
      specializeWith feedback g₁ = some g₂ → ssaOptimize fuel g₂ = some g →
      WithinMap g f.argumentCount := by
  intro h
  have houtside : ((ssaBuildFromIR 3 manyConstants).bind fun g => (ssaOptimize 3 g).map fun g =>
      lowerGraphAccess g 0) = some (.error (.outside 64)) := by decide +kernel
  obtain ⟨g₁, h₁, houtside⟩ := Option.bind_eq_some_iff.mp houtside
  obtain ⟨g, h₂, houtside⟩ := Option.map_eq_some_iff.mp houtside
  exact (h 3 manyConstants none g₁ g₁ g (by decide +kernel) h₁ rfl h₂).1 64 houtside

end TurboJS.Optimizing
