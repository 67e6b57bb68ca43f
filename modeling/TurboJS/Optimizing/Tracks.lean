import TurboJS.Optimizing.Lowered

namespace TurboJS.Optimizing

open IR Foundation

/-- The builder's state after the instructions `pre`: each register stands for a value whose
word is the one that the translated instructions leave in it. -/
structure Tracks (arguments : List Word) (w : Word) (ρ : Nat → Word) (pre : List Instruction)
    (s : Graph × (Nat → Nat)) : Prop where
  built : Built arguments w ρ s.1
  operands : ∀ r, Operand s.1 (s.2 r)
  words : ∀ r, ρ (s.2 r) = translatedRegisters arguments pre (fun _ => 0) r
  arguments : (∀ i ∈ pre, i.opcode = .argument) →
    ∀ i, i < s.1.valueCount → (s.1.value i).opcode = .argument

section

variable {arguments : List Word} {w : Word} {ρ : Nat → Word} {f : Function} {i : Instruction}
  {pre : List Instruction} {s s' : Graph × (Nat → Nat)} {bi ii : Nat}

theorem check_registers (h : checkInstruction f i = none) (hn : mapOp i.opcode ≠ .nop) :
    (isControl (mapOp i.opcode) = false → i.destination < f.registerCount) ∧
    (isBinary (mapOp i.opcode) = true → i.left < f.registerCount ∧ i.right < f.registerCount) ∧
    (mapOp i.opcode = .ret → i.left < f.registerCount) := by
  cases ho : i.opcode <;> rw [ho] at hn <;> simp only [checkInstruction, ho] at h <;> first
    | exact absurd rfl hn
    | (simp [validRegister] at h; simp [mapOp, isControl, isBinary]; omega)
    | (simp [mapOp, isControl, isBinary]; done)
    | (simp [mapOp, isControl, isBinary]; by_contra hd; simp [validRegister, hd] at h)

theorem mapOp_argument (h : mapOp i.opcode = .argument) : i.opcode = .argument := by
  cases ho : i.opcode <;> rw [ho] at h <;> first
    | rfl
    | cases h

theorem mapOp_ret (h : mapOp i.opcode = .ret) : i.opcode = .returnI64 := by
  cases ho : i.opcode <;> rw [ho] at h <;> first
    | rfl
    | cases h

/-- The value that `translate` emits for an instruction it keeps. -/
def translatedValue (bi ii : Nat) (i : Instruction) (s : Graph × (Nat → Nat)) : Value :=
  let op := mapOp i.opcode
  let readsLeft := !(op = .argument || op = .constantI64 || op = .jump)
  let readsRight := readsLeft && !(op = .branchTrue || op = .branchFalse || op = .ret)
  { opcode := op, type := typeFor i.opcode, block := bi
    left := if readsLeft then readRegister s.2 i.left else noValue
    right := if readsRight then readRegister s.2 i.right else noValue
    immediate := if isBranch i.opcode then BitVec.ofNat 64 (blockForInstruction s.1 i.target)
      else i.immediate
    sourceInstruction := ii }

theorem translate_some (hn : mapOp i.opcode ≠ .nop) (h : translate bi ii i s = some s') :
    Emitted s.1 (translatedValue bi ii i s) s'.1 ∧
    s'.2 = if i.destination < maxRegisters && !isControl (mapOp i.opcode) then
      Function.update s.2 i.destination s.1.valueCount else s.2 := by
  unfold translate at h
  simp only [hn, if_false, Option.bind_eq_bind, Option.bind_eq_some_iff, Option.some.injEq] at h
  obtain ⟨g, he, rfl⟩ := h
  exact ⟨emitValue_emitted he, rfl⟩

theorem Tracks.readRegister (h : Tracks arguments w ρ pre s) {r : Nat} (hr : r < maxRegisters) :
    ρ (readRegister s.2 r) = translatedRegisters arguments pre (fun _ => 0) r := by
  unfold Optimizing.readRegister
  rw [if_pos hr]
  exact h.words r

theorem Tracks.operand (h : Tracks arguments w ρ pre s) (b : Bool) (r : Nat) :
    Operand s.1 (if b then Optimizing.readRegister s.2 r else noValue) := by
  unfold Optimizing.readRegister
  split
  · split
    · exact h.operands r
    · exact .inl rfl
  · exact .inl rfl

theorem translatedWord_some {m : Nat → Word} {x : Word}
    (h : translatedWord arguments m i = some x) :
    (mapOp i.opcode = .argument ∧ x = arguments.getD i.immediate.toNat 0) ∨
    (mapOp i.opcode = .constantI64 ∧ x = i.immediate) ∨
    (isBinary (mapOp i.opcode) = true ∧
      evalBinary (mapOp i.opcode) (m i.left) (m i.right) = some x) := by
  unfold translatedWord at h
  split at h
  · rename_i ho
    exact .inl ⟨ho, (Option.some.inj h).symm⟩
  · rename_i ho
    exact .inr (.inl ⟨ho, (Option.some.inj h).symm⟩)
  · exact .inr (.inr ⟨evalBinary_isBinary h, h⟩)

theorem translatedWord_none {m : Nat → Word} (hn : mapOp i.opcode ≠ .nop) :
    translatedWord arguments m i = none ↔ isControl (mapOp i.opcode) = true := by
  unfold translatedWord
  cases ho : i.opcode <;> rw [ho] at hn <;> first
    | exact absurd rfl hn
    | simp [mapOp, isControl, evalBinary, foldBinary]

theorem not_branch (h : mapOp i.opcode = .argument ∨ mapOp i.opcode = .constantI64) :
    isBranch i.opcode = false := by
  cases ho : i.opcode <;> rw [ho] at h <;> first
    | rfl
    | (rcases h with h | h <;> cases h)

theorem Tracks.equation (h : Tracks arguments w ρ pre s) (hc : checkInstruction f i = none)
    (hf : f.registerCount ≤ maxRegisters) (hn : mapOp i.opcode ≠ .nop) {x : Word}
    (hx : translatedWord arguments (translatedRegisters arguments pre fun _ => 0) i = some x)
    {ρ' : Nat → Word} (hρ : ∀ y, Operand s.1 y → ρ' y = ρ y) (hnew : ρ' s.1.valueCount = x) :
    Equation arguments w ρ' ((translatedValue bi ii i s).withId s.1.valueCount) := by
  rcases translatedWord_some hx with ⟨ho, rfl⟩ | ⟨ho, rfl⟩ | ⟨hb, heval⟩
  · refine (equation_argument ho).mpr ?_
    simp [Value.withId, translatedValue, not_branch (.inl ho), hnew]
  · refine (equation_constant ho).mpr ?_
    simp [Value.withId, translatedValue, not_branch (.inr ho), hnew]
  · obtain ⟨hl, hr⟩ := (check_registers hc hn).2.1 hb
    have hl' := h.readRegister (Nat.lt_of_lt_of_le hl hf)
    have hr' := h.readRegister (Nat.lt_of_lt_of_le hr hf)
    have hol := h.operand true i.left
    have hor := h.operand true i.right
    rw [if_pos rfl] at hol hor
    refine (equation_binary (v := (translatedValue bi ii i s).withId s.1.valueCount) hb).mpr ?_
    have hleft : (translatedValue bi ii i s).left = Optimizing.readRegister s.2 i.left := by
      unfold translatedValue
      cases ho : mapOp i.opcode <;> rw [ho] at hb <;> first
        | rfl
        | cases hb
    have hright : (translatedValue bi ii i s).right = Optimizing.readRegister s.2 i.right := by
      unfold translatedValue
      cases ho : mapOp i.opcode <;> rw [ho] at hb <;> first
        | rfl
        | cases hb
    change evalBinary (mapOp i.opcode) (ρ' (translatedValue bi ii i s).left)
      (ρ' (translatedValue bi ii i s).right) = some (ρ' s.1.valueCount)
    rw [hleft, hright, hρ _ hol, hρ _ hor, hl', hr', heval, hnew]

theorem Tracks.control (h : Tracks arguments w ρ pre s) (hc : checkInstruction f i = none)
    (hf : f.registerCount ≤ maxRegisters) (hn : mapOp i.opcode ≠ .nop)
    (hctl : isControl (mapOp i.opcode) = true)
    (hret : i.opcode = .returnI64 → translatedRegisters arguments pre (fun _ => 0) i.left = w)
    {ρ' : Nat → Word} (hρ : ∀ y, Operand s.1 y → ρ' y = ρ y) :
    Equation arguments w ρ' ((translatedValue bi ii i s).withId s.1.valueCount) := by
  by_cases hr : mapOp i.opcode = .ret
  · have hl := (check_registers hc hn).2.2 hr
    have hl' := h.readRegister (Nat.lt_of_lt_of_le hl hf)
    have hol := h.operand true i.left
    rw [if_pos rfl] at hol
    refine (equation_ret hr).mpr ?_
    have hleft : (translatedValue bi ii i s).left = Optimizing.readRegister s.2 i.left := by
      simp [translatedValue, hr]
    change ρ' (translatedValue bi ii i s).left = w
    rw [hleft, hρ _ hol, hl', hret (mapOp_ret hr)]
  · have hop : ((translatedValue bi ii i s).withId s.1.valueCount).opcode = mapOp i.opcode := rfl
    unfold Equation
    rw [hop]
    cases ho : mapOp i.opcode <;> rw [ho] at hctl hr <;> trivial

/-- One instruction keeps the builder on track. -/
theorem Tracks.translate (h : Tracks arguments w ρ pre s) (hc : checkInstruction f i = none)
    (hf : f.registerCount ≤ maxRegisters)
    (hret : i.opcode = .returnI64 → translatedRegisters arguments pre (fun _ => 0) i.left = w)
    (hfirst : i.opcode = .argument → ∀ j ∈ pre, j.opcode = .argument)
    (ht : translate bi ii i s = some s') : ∃ ρ, Tracks arguments w ρ (pre ++ [i]) s' := by
  have hstep : translatedRegisters arguments (pre ++ [i]) (fun _ => 0) =
      translatedStep arguments (translatedRegisters arguments pre fun _ => 0) i := by
    rw [translatedRegisters_append]
    rfl
  by_cases hn : mapOp i.opcode = .nop
  · have hs : s' = s := by
      simp only [Optimizing.translate, hn, if_true, Option.some.injEq] at ht
      exact ht.symm
    subst hs
    refine ⟨ρ, h.built, h.operands, ?_, ?_⟩
    · intro r
      rw [hstep, h.words r]
      simp [translatedStep, translatedWord, hn, evalBinary, foldBinary]
    · intro ha
      have hi := ha i (by simp)
      rw [hi] at hn
      cases hn
  · obtain ⟨he, hreg⟩ := translate_some hn ht
    have hroom := he.room
    have hfresh : ∀ x y, Operand s.1 y → Function.update ρ s.1.valueCount x y = ρ y := by
      intro x y hy
      refine Function.update_of_ne ?_ _ _
      rcases hy with hy | hy <;> omega
    have hgrow : ∀ y, Operand s.1 y → Operand s'.1 y := by
      intro y hy
      rcases hy with hy | hy
      · exact .inl hy
      · exact .inr (by rw [he.count]; omega)
    have hargs : (translatedValue bi ii i s).opcode = .argument →
        ∀ j, j < s.1.valueCount → (s.1.value j).opcode = .argument := by
      intro ho
      exact h.arguments (hfirst (mapOp_argument ho))
    have hargs' : (∀ j ∈ pre ++ [i], j.opcode = .argument) →
        ∀ j, j < s'.1.valueCount → (s'.1.value j).opcode = .argument := by
      intro ha j hj
      rw [he.count] at hj
      rcases Nat.lt_succ_iff_lt_or_eq.mp hj with hj | rfl
      · obtain ⟨n, hv⟩ := he.others j hj
        rw [hv]
        exact h.arguments (fun k hk => ha k (List.mem_append_left _ hk)) j hj
      · rw [he.last]
        have hi := ha i (by simp)
        simp only [translatedValue, hi]
        rfl
    cases hx : translatedWord arguments (translatedRegisters arguments pre fun _ => 0) i with
    | some x =>
      have hctl : isControl (mapOp i.opcode) = false := by
        rw [Bool.eq_false_iff]
        intro hctl
        rw [(translatedWord_none hn).mpr hctl] at hx
        cases hx
      have heq : Equation arguments w (Function.update ρ s.1.valueCount x)
          ((translatedValue bi ii i s).withId s.1.valueCount) :=
        h.equation hc hf hn hx (hfresh x) (Function.update_self ..)
      have hd := (check_registers hc hn).1 hctl
      have hd' : i.destination < maxRegisters := Nat.lt_of_lt_of_le hd hf
      simp only [hctl, hd', decide_true, Bool.not_false, Bool.and_self, if_true] at hreg
      refine ⟨_, h.built.emit he (h.operand _ _) (h.operand _ _) heq hargs, ?_, ?_, hargs'⟩
      · intro r
        rw [hreg]
        by_cases hr : r = i.destination
        · subst hr
          rw [Function.update_self]
          exact .inr (by rw [he.count]; omega)
        · rw [Function.update_of_ne hr]
          exact hgrow _ (h.operands r)
      · intro r
        rw [hstep, hreg]
        simp only [translatedStep, hx]
        by_cases hr : r = i.destination
        · subst hr
          rw [Function.update_self, Function.update_self, Function.update_self]
        · rw [Function.update_of_ne hr, Function.update_of_ne hr, hfresh x _ (h.operands r)]
          exact h.words r
    | none =>
      have hctl := (translatedWord_none hn).mp hx
      simp only [hctl, Bool.not_true, Bool.and_false, Bool.false_eq_true, if_false] at hreg
      have heq : Equation arguments w (Function.update ρ s.1.valueCount 0)
          ((translatedValue bi ii i s).withId s.1.valueCount) :=
        h.control hc hf hn hctl hret (hfresh 0)
      refine ⟨_, h.built.emit he (h.operand _ _) (h.operand _ _) heq hargs, ?_, ?_, hargs'⟩
      · intro r
        rw [hreg]
        exact hgrow _ (h.operands r)
      · intro r
        rw [hstep, hreg, hfresh 0 _ (h.operands r), h.words r]
        simp only [translatedStep, hx]

end

end TurboJS.Optimizing
