import TurboJS.Optimizing.Preservation

namespace TurboJS.Optimizing

open IR Foundation

/-- The word that an instruction defines as the optimising tier translates it: checked
operations are not checked, and an opcode that `mapOp` drops defines nothing. -/
def translatedWord (arguments : List Word) (m : Nat → Word) (i : Instruction) : Option Word :=
  match mapOp i.opcode with
  | .argument => some (arguments.getD i.immediate.toNat 0)
  | .constantI64 => some i.immediate
  | op => evalBinary op (m i.left) (m i.right)

def translatedStep (arguments : List Word) (m : Nat → Word) (i : Instruction) : Nat → Word :=
  match translatedWord arguments m i with
  | some x => Function.update m i.destination x
  | none => m

def translatedRegisters (arguments : List Word) (is : List Instruction) (m : Nat → Word) :
    Nat → Word :=
  is.foldl (translatedStep arguments) m

/-- Every `RETURN_I64` of the list returns `w`, by the translated registers before it. -/
def ReturnsOnly (arguments : List Word) (w : Word) (is : List Instruction) (m : Nat → Word) :
    Prop :=
  ∀ pre i post, is = pre ++ i :: post → i.opcode = .returnI64 →
    translatedRegisters arguments pre m i.left = w

def isPlain (op : Opcode) : Bool :=
  op = .argument || op = .constantI64 || op = .addI64 || op = .subI64 || op = .mulI64 ||
  op = .lessThanI64 || op = .returnI64

section

variable {arguments : List Word} {w : Word} {m : Nat → Word} {is : List Instruction}
  {i : Instruction}

theorem translatedRegisters_append (is js : List Instruction) :
    translatedRegisters arguments (is ++ js) m =
      translatedRegisters arguments js (translatedRegisters arguments is m) := by
  simp [translatedRegisters]

theorem ReturnsOnly.tail (h : ReturnsOnly arguments w (i :: is) m) :
    ReturnsOnly arguments w is (translatedStep arguments m i) := by
  intro pre j post hsplit hret
  exact h (i :: pre) j post (by rw [hsplit]; rfl) hret

theorem ReturnsOnly.snoc (h : ReturnsOnly arguments w is m)
    (hi : i.opcode = .returnI64 → translatedRegisters arguments is m i.left = w) :
    ReturnsOnly arguments w (is ++ [i]) m := by
  intro pre j post hsplit hret
  rcases List.append_eq_append_iff.mp hsplit with ⟨as, hpre, hcons⟩ | ⟨bs, his, hcons⟩
  · cases as with
    | nil =>
      simp only [List.append_nil] at hpre
      simp only [List.nil_append, List.cons.injEq] at hcons
      rw [hpre]
      rw [← hcons.1] at hret ⊢
      exact hi hret
    | cons a as => simp at hcons
  · cases bs with
    | nil =>
      simp only [List.append_nil] at his
      simp only [List.nil_append, List.cons.injEq] at hcons
      rw [← his, hcons.1]
      rw [hcons.1] at hret
      exact hi hret
    | cons b bs =>
      simp only [List.cons_append, List.cons.injEq] at hcons
      exact h pre j bs (by rw [his, hcons.1]) hret

theorem effect_plain {env : Env} {f : Function} {fr : Frame} (hp : isPlain i.opcode = true)
    (ha : i.opcode ≠ .argument) (hr : i.opcode ≠ .returnI64) :
    ∃ fr', IR.effect env f i fr = .next fr' ∧
      fr'.registers = translatedStep arguments fr.registers i := by
  unfold translatedStep translatedWord
  cases ho : i.opcode <;> rw [ho] at hp ha hr <;> first
    | exact absurd hp (by decide)
    | exact absurd rfl ha
    | exact absurd rfl hr
    | (simp only [IR.effect, ho]; exact ⟨_, rfl, rfl⟩)

theorem localsInBounds_plain (hp : isPlain i.opcode = true) : localsInBounds i = true := by
  have hg : i.opcode ≠ .localGet := by
    intro ho
    rw [ho] at hp
    cases hp
  have hs : i.opcode ≠ .localSet := by
    intro ho
    rw [ho] at hp
    cases hp
  simp [localsInBounds, hg, hs]

theorem straightRun_plain {env : Env} {f : Function} {fr : Frame}
    (hp : ∀ i ∈ is, isPlain i.opcode = true) (hret : ∃ i ∈ is, i.opcode = .returnI64)
    (hw : ReturnsOnly arguments w is fr.registers) :
    straightRun env f arguments is fr = some w := by
  induction is generalizing fr with
  | nil => simp at hret
  | cons i rest ih =>
    have hp' : ∀ i ∈ rest, isPlain i.opcode = true := fun i hm => hp i (List.mem_cons_of_mem _ hm)
    have hpi := hp i List.mem_cons_self
    by_cases hr : i.opcode = .returnI64
    · have hv := hw [] i rest rfl hr
      have he : IR.effect env f i fr = .done (fr.registers i.left) := by simp [IR.effect, hr]
      simp only [straightRun, hr, reduceCtorEq, if_false, he]
      simp only [localsInBounds, hr]
      rw [← hv]
      rfl
    · have hret' : ∃ i ∈ rest, i.opcode = .returnI64 := by
        obtain ⟨j, hj, hjr⟩ := hret
        rcases List.mem_cons.mp hj with rfl | hj
        · exact absurd hjr hr
        · exact ⟨j, hj, hjr⟩
      by_cases ha : i.opcode = .argument
      · rw [straightRun_argument ha]
        refine ih hp' hret' ?_
        have ht := hw.tail
        simpa [translatedStep, translatedWord, ha, mapOp] using ht
      · obtain ⟨fr', he, hfr⟩ : ∃ fr', IR.effect env f i fr = .next fr' ∧
            fr'.registers = translatedStep arguments fr.registers i := effect_plain hpi ha hr
        simp only [straightRun, ha, if_false, localsInBounds_plain hpi, Bool.not_true, Bool.false_eq_true, he]
        refine ih hp' hret' ?_
        rw [hfr]
        exact hw.tail

end

def Operand (g : Graph) (x : Nat) : Prop := x = noValue ∨ x < g.valueCount

structure Built (arguments : List Word) (w : Word) (ρ : Nat → Word) (g : Graph) : Prop
    extends Sound arguments w ρ g where
  bounded : ∀ i, i < g.valueCount → Operand g (g.value i).left ∧ Operand g (g.value i).right
  small : g.valueCount ≤ noValue
  none : ρ noValue = 0

def Value.withUses (v : Value) (n : Nat) : Value := { v with useCount := n }

def Value.withId (v : Value) (n : Nat) : Value := { v with id := n }

/-- Everything `emit_value` does to the values. -/
structure Emitted (g : Graph) (v : Value) (g' : Graph) : Prop where
  room : g.valueCount < noValue
  count : g'.valueCount = g.valueCount + 1
  last : g'.value g.valueCount = v.withId g.valueCount
  others : ∀ i, i < g.valueCount → ∃ n, g'.value i = (g.value i).withUses n
  blocks : g'.blockCount = g.blockCount

section

variable {arguments : List Word} {w : Word} {ρ : Nat → Word} {g g' : Graph} {v : Value}

theorem addUse_value (g : Graph) (x i : Nat) :
    ∃ n, ((if x ≠ noValue then g.setValue x addUse else g).value i) =
      (g.value i).withUses n := by
  split
  · rw [Graph.setValue_value]
    split
    · exact ⟨(g.value i).useCount + 1, rfl⟩
    · exact ⟨(g.value i).useCount, rfl⟩
  · exact ⟨(g.value i).useCount, rfl⟩

theorem append_value_lt (g : Graph) (v : Value) {i : Nat} (hi : i < g.valueCount) :
    ({ g with values := g.values ++ [v] } : Graph).value i = g.value i := by
  have hi' : i < g.values.length := hi
  simp [Graph.value, List.getD_eq_getElem?_getD, List.getElem?_append_left hi']

theorem append_value_last (g : Graph) (v : Value) :
    ({ g with values := g.values ++ [v] } : Graph).value g.valueCount = v := by
  simp [Graph.value, Graph.valueCount, List.getD_eq_getElem?_getD]

theorem emitValue_emitted (h : emitValue g v = some g') : Emitted g v g' := by
  unfold emitValue at h
  split at h
  · cases h
  · rename_i hroom
    simp only [Option.some.injEq] at h
    generalize hg1 : (if v.left ≠ noValue then g.setValue v.left addUse else g) = g1 at h
    generalize hg2 : (if v.right ≠ noValue then g1.setValue v.right addUse else g1) = g2 at h
    have hc1 : g1.valueCount = g.valueCount := by
      rw [← hg1]
      split <;> simp
    have hc2 : g2.valueCount = g.valueCount := by
      rw [← hg2, ← hc1]
      split <;> simp
    refine ⟨Nat.lt_of_not_le hroom, ?_, ?_, ?_, ?_⟩
    · rw [← h, Graph.setBlock_valueCount, ← hc2]
      simp [Graph.valueCount]
    · rw [← h, setBlock_value, ← hc2]
      exact append_value_last g2 _
    · intro i hi
      obtain ⟨n1, h1⟩ := addUse_value g v.left i
      obtain ⟨n2, h2⟩ := addUse_value g1 v.right i
      rw [hg1] at h1
      rw [hg2, h1] at h2
      refine ⟨n2, ?_⟩
      rw [← h, setBlock_value, append_value_lt g2 _ (by rw [hc2]; exact hi), h2]
      rfl
    · rw [← h]
      have hb1 : g1.blockCount = g.blockCount := by
        rw [← hg1]
        split <;> rfl
      have hb2 : g2.blockCount = g.blockCount := by
        rw [← hg2, ← hb1]
        split <;> rfl
      rw [Graph.setBlock_blockCount]
      exact hb2

/-- A new value gets its word without disturbing the words of the others. -/
theorem Built.emit {x : Word} (h : Built arguments w ρ g) (he : Emitted g v g')
    (hl : Operand g v.left) (hr : Operand g v.right)
    (hx : Equation arguments w (Function.update ρ g.valueCount x) (v.withId g.valueCount))
    (ha : v.opcode = .argument → ∀ i, i < g.valueCount → (g.value i).opcode = .argument) :
    Built arguments w (Function.update ρ g.valueCount x) g' := by
  have hfresh : ∀ y, Operand g y → Function.update ρ g.valueCount x y = ρ y := by
    intro y hy
    have hroom := he.room
    refine Function.update_of_ne ?_ _ _
    rcases hy with hy | hy <;> omega
  have hgrow : ∀ y, Operand g y → Operand g' y := by
    intro y hy
    rcases hy with hy | hy
    · exact .inl hy
    · refine .inr ?_
      rw [he.count]
      omega
  have hcase : ∀ i, i < g'.valueCount → i < g.valueCount ∨ i = g.valueCount := by
    intro i hi
    rw [he.count] at hi
    omega
  refine ⟨⟨?_, ?_, ?_⟩, ?_, ?_, ?_⟩
  · intro i hi
    rcases hcase i hi with hi | rfl
    · obtain ⟨n, hn⟩ := he.others i hi
      rw [hn]
      exact h.ids i hi
    · rw [he.last]
      rfl
  · intro i hi hlive
    rcases hcase i hi with hi | rfl
    · obtain ⟨n, hn⟩ := he.others i hi
      rw [hn] at hlive ⊢
      have heq := h.holds i hi hlive
      have hb := h.bounded i hi
      have hid : (g.value i).id = i := h.ids i hi
      refine Equation.congr (v := g.value i) rfl rfl rfl rfl rfl ?_
      unfold Equation at heq ⊢
      rw [hfresh _ hb.1, hfresh _ hb.2, hid, hfresh i (.inr hi)]
      rw [hid] at heq
      exact heq
    · rw [he.last]
      exact hx
  · intro i j hij hj harg
    rcases hcase j hj with hj | rfl
    · obtain ⟨n, hn⟩ := he.others j hj
      obtain ⟨k, hk⟩ := he.others i (Nat.lt_trans hij hj)
      rw [hn] at harg
      rw [hk]
      exact h.first i j hij hj harg
    · obtain ⟨k, hk⟩ := he.others i hij
      rw [he.last] at harg
      rw [hk]
      exact ha harg i hij
  · intro i hi
    rcases hcase i hi with hi | rfl
    · obtain ⟨n, hn⟩ := he.others i hi
      rw [hn]
      exact ⟨hgrow _ (h.bounded i hi).1, hgrow _ (h.bounded i hi).2⟩
    · rw [he.last]
      exact ⟨hgrow _ hl, hgrow _ hr⟩
  · rw [he.count]
    exact he.room
  · rw [hfresh noValue (.inl rfl)]
    exact h.none

theorem Built.setType (h : Built arguments w ρ g) (i : Nat) (t : SSAType) :
    Built arguments w ρ (g.setValue i fun v => { v with type := t }) := by
  refine ⟨h.toSound.setValue i fun _ => .of_meta rfl rfl rfl rfl rfl fun h => h, ?_, ?_, h.none⟩
  · intro j hj
    rw [Graph.setValue_valueCount] at hj
    have hb := h.bounded j hj
    rw [Graph.setValue_value]
    unfold Operand at hb ⊢
    rw [Graph.setValue_valueCount]
    split
    · exact hb
    · exact hb
  · rw [Graph.setValue_valueCount]
    exact h.small

theorem Built.of_values (h : Built arguments w ρ g) (hv : g'.values = g.values) :
    Built arguments w ρ g' := by
  have hc : g'.valueCount = g.valueCount := by unfold Graph.valueCount; rw [hv]
  have hval : ∀ i, g'.value i = g.value i := by
    intro i
    unfold Graph.value
    rw [hv]
  refine ⟨h.toSound.of_values hv, ?_, by rw [hc]; exact h.small, h.none⟩
  intro i hi
  rw [hc] at hi
  unfold Operand
  rw [hval, hc]
  exact h.bounded i hi

theorem specializeValue_built {feedback : FeedbackVector} {i : Nat} (h : Built arguments w ρ g)
    (hi : i < g.valueCount) (hs : specializeValue feedback i g = some g') :
    (∃ ρ, Built arguments w ρ g') ∧ g.valueCount ≤ g'.valueCount := by
  simp only [specializeValue] at hs
  split at hs
  · cases hs
    exact ⟨⟨ρ, h⟩, Nat.le_refl _⟩
  · simp only [Option.bind_eq_bind, Option.bind_eq_some_iff, Option.some.injEq] at hs
    obtain ⟨g1, he, rfl⟩ := hs
    have hb := h.setType i .int32
    have hem := emitValue_emitted he
    have hid : ((g.setValue i fun v => { v with type := .int32 }).value i).id = i :=
      hb.ids i (by rw [Graph.setValue_valueCount]; exact hi)
    refine ⟨⟨_, Built.of_values (hb.emit (x := ρ i) hem (.inr ?_) (.inl rfl) ?_ ?_) rfl⟩, ?_⟩
    · simp only [hid, Graph.setValue_valueCount]
      exact hi
    · have hne : i ≠ g.valueCount := Nat.ne_of_lt hi
      refine (equation_guard rfl).mpr ?_
      simp [Value.withId, hid, Function.update_of_ne hne]
    · intro ha
      cases ha
    · have hc := hem.count
      rw [Graph.setValue_valueCount] at hc
      have hc' : ({ g1 with deoptExitCount := g1.deoptExitCount + 1 } : Graph).valueCount =
          g.valueCount + 1 := hc
      omega

theorem specializeValue_blockCount {feedback : FeedbackVector} {i : Nat}
    (h : specializeValue feedback i g = some g') : g'.blockCount = g.blockCount := by
  simp only [specializeValue] at h
  split at h
  · cases h
    rfl
  · simp only [Option.bind_eq_bind, Option.bind_eq_some_iff, Option.some.injEq] at h
    obtain ⟨g1, he, rfl⟩ := h
    exact (emitValue_emitted he).blocks

theorem specializeWith_blockCount {feedback : Option FeedbackVector}
    (h : specializeWith feedback g = some g') : g'.blockCount = g.blockCount := by
  cases feedback with
  | none =>
    simp only [specializeWith, Option.some.injEq] at h
    rw [h]
  | some feedback =>
    simp only [specializeWith, ssaSpecializeFromFeedback] at h
    split at h
    · cases h
    · exact forUpM_blockCount (fun _ _ _ => specializeValue_blockCount) h

theorem Built.specialize {feedback : Option FeedbackVector} (h : Built arguments w ρ g)
    (hs : specializeWith feedback g = some g') : ∃ ρ, Built arguments w ρ g' := by
  unfold specializeWith ssaSpecializeFromFeedback at hs
  split at hs
  · cases hs
    exact ⟨ρ, h⟩
  split at hs
  · cases hs
  · have hinv := forUpM_invariant
      (P := fun s : Graph => (∃ ρ, Built arguments w ρ s) ∧ g.valueCount ≤ s.valueCount)
      ⟨⟨ρ, h⟩, Nat.le_refl _⟩ ?_ hs
    · exact hinv.1
    · rintro i s s' hi ⟨⟨ρ', hb⟩, hc⟩ hstep
      obtain ⟨hb', hc'⟩ := specializeValue_built hb (Nat.lt_of_lt_of_le hi hc) hstep
      exact ⟨hb', Nat.le_trans hc hc'⟩

end

/-- The lowering's state after the values `done`: the code it has emitted puts into each
mapped register the word of the value it stands for. -/
structure Lowered (arguments : List Word) (w : Word) (ρ : Nat → Word) (finished : List Value)
    (s : Lowering) : Prop where
  plain : ∀ i ∈ s.instructions, isPlain i.opcode = true
  first : ArgumentsFirst s.instructions
  source : ∀ i ∈ s.instructions, i.opcode ≠ .argument → ∃ v ∈ finished, v.opcode ≠ .argument
  words : ∀ id, s.map id ≠ noRegister → s.map id < s.registerCount ∧
    translatedRegisters arguments s.instructions (fun _ => 0) (s.map id) = ρ id
  returns : ReturnsOnly arguments w s.instructions fun _ => 0

section

variable {arguments : List Word} {w : Word} {ρ : Nat → Word} {finished : List Value}
  {s s' : Lowering} {v : Value}

theorem Lowered.start : Lowered arguments w ρ [] {} := by
  refine ⟨by simp, List.Pairwise.nil, by simp, ?_, ?_⟩
  · intro id h
    exact absurd rfl h
  · intro pre i post h
    simp at h

theorem ArgumentsFirst.snoc {is : List Instruction} {i : Instruction} (h : ArgumentsFirst is)
    (hi : i.opcode = .argument → ∀ j ∈ is, j.opcode = .argument) : ArgumentsFirst (is ++ [i]) := by
  refine List.pairwise_append.mpr ⟨h, List.pairwise_singleton _ _, ?_⟩
  intro a ha b hb hba
  rw [List.mem_singleton] at hb
  subst hb
  exact hi hba a ha

theorem Lowered.mono (h : Lowered arguments w ρ finished s) (v : Value) :
    Lowered arguments w ρ (finished ++ [v]) s := by
  refine ⟨h.plain, h.first, ?_, h.words, h.returns⟩
  intro i hi ha
  obtain ⟨u, hu, hua⟩ := h.source i hi ha
  exact ⟨u, List.mem_append_left _ hu, hua⟩

theorem Lowered.snoc (h : Lowered arguments w ρ finished s) {i : Instruction}
    (hp : isPlain i.opcode = true) (hi : i.opcode = .argument ↔ v.opcode = .argument)
    (hv : v.opcode = .argument → ∀ u ∈ finished, u.opcode = .argument)
    (hr : i.opcode = .returnI64 →
      translatedRegisters arguments s.instructions (fun _ => 0) i.left = w)
    {n : Nat} {map : Nat → Nat}
    (hw : ∀ id, map id ≠ noRegister → map id < n ∧
      translatedRegisters arguments (s.instructions ++ [i]) (fun _ => 0) (map id) = ρ id) :
    Lowered arguments w ρ (finished ++ [v]) ⟨s.instructions ++ [i], n, map⟩ := by
  have hfirst : i.opcode = .argument → ∀ j ∈ s.instructions, j.opcode = .argument := by
    intro ha j hj
    by_contra hja
    obtain ⟨u, hu, hua⟩ := h.source j hj hja
    exact hua (hv (hi.mp ha) u hu)
  refine ⟨?_, ArgumentsFirst.snoc h.first hfirst, ?_, hw, h.returns.snoc hr⟩
  · intro j hj
    rcases List.mem_append.mp hj with hj | hj
    · exact h.plain j hj
    · rw [List.mem_singleton.mp hj]
      exact hp
  · intro j hj hja
    rcases List.mem_append.mp hj with hj | hj
    · obtain ⟨u, hu, hua⟩ := h.source j hj hja
      exact ⟨u, List.mem_append_left _ hu, hua⟩
    · rw [List.mem_singleton.mp hj] at hja
      exact ⟨v, by simp, fun hva => hja (hi.mpr hva)⟩

theorem Lowered.define (h : Lowered arguments w ρ finished s) {i : Instruction}
    (hp : isPlain i.opcode = true) (hi : i.opcode = .argument ↔ v.opcode = .argument)
    (hv : v.opcode = .argument → ∀ u ∈ finished, u.opcode = .argument)
    (hr : i.opcode ≠ .returnI64)
    (hx : translatedWord arguments (translatedRegisters arguments s.instructions fun _ => 0)
      { i with destination := s.registerCount } = some (ρ v.id))
    (hd : s.define v.id i = some s') : Lowered arguments w ρ (finished ++ [v]) s' := by
  unfold Lowering.define at hd
  split at hd
  · cases hd
  · simp only [Option.some.injEq] at hd
    subst hd
    refine h.snoc (i := { i with destination := s.registerCount }) hp hi hv
      (fun ho => absurd ho hr) ?_
    intro id hid
    rw [translatedRegisters_append]
    change _ ∧ translatedStep arguments _ _ _ = _
    simp only [translatedStep, hx]
    by_cases he : id = v.id
    · subst he
      simp only [Function.update_self]
      exact ⟨Nat.lt_succ_self _, trivial⟩
    · simp only [Function.update_of_ne he] at hid ⊢
      obtain ⟨hlt, hword⟩ := h.words id hid
      refine ⟨Nat.lt_succ_of_lt hlt, ?_⟩
      rw [Function.update_of_ne (Nat.ne_of_lt hlt), hword]

theorem loweredOpcode_cases {op : SSAOpcode} {opcode : Opcode}
    (h : loweredOpcode op = some opcode) :
    mapOp opcode = op ∧ isBinary op = true ∧ isPlain opcode = true := by
  cases op <;> simp only [loweredOpcode, Option.some.injEq, reduceCtorEq] at h <;> subst h <;>
    exact ⟨rfl, rfl, rfl⟩

/-- One value keeps the lowering on track. -/
theorem Lowered.lowerValue (h : Lowered arguments w ρ finished s)
    (heq : v.removed = false → Equation arguments w ρ v)
    (hv : v.opcode = .argument → ∀ u ∈ finished, u.opcode = .argument)
    (hl : lowerValue s v = some s') : Lowered arguments w ρ (finished ++ [v]) s' := by
  unfold Optimizing.lowerValue at hl
  split at hl
  · cases hl
    exact h.mono v
  · rename_i hskip
    simp only [Bool.or_eq_true, decide_eq_true_eq, not_or, Bool.not_eq_true] at hskip
    have heq := heq hskip.1.1
    split at hl
    · rename_i ho
      rw [equation_argument ho] at heq
      exact h.define rfl (by simp [ho]) hv (by simp) (by rw [heq]; rfl) hl
    · rename_i ho
      rw [equation_constant ho] at heq
      exact h.define rfl (by simp [ho]) hv (by simp) (by rw [heq]; rfl) hl
    · rename_i ho
      rw [equation_ret ho] at heq
      split at hl
      · cases hl
      · rename_i hm
        simp only [Lowering.mapped, Bool.not_eq_true', Bool.and_eq_false_iff, not_or,
          Bool.not_eq_false, decide_eq_true_eq, bne_iff_ne, ne_eq] at hm
        simp only [Option.some.injEq] at hl
        subst hl
        have hleft := (h.words v.left hm.2).2
        refine h.snoc rfl (by simp [ho]) hv (fun _ => by rw [hleft, heq]) ?_
        intro id hid
        rw [translatedRegisters_append]
        exact h.words id hid
    · cases hop : loweredOpcode v.opcode with
      | none => simp [hop] at hl
      | some opcode =>
        obtain ⟨hmap, hbin, hplain⟩ := loweredOpcode_cases hop
        rw [equation_binary hbin] at heq
        simp only [hop] at hl
        split at hl
        · cases hl
        · rename_i hm
          simp only [Lowering.mapped, Bool.or_eq_true, Bool.not_eq_true', Bool.and_eq_false_iff,
            not_or, Bool.not_eq_false, decide_eq_true_eq, bne_iff_ne, ne_eq] at hm
          have hleft := (h.words v.left hm.1.2).2
          have hright := (h.words v.right hm.2.2).2
          have hword : ∀ m : Nat → Word, ∀ i : Instruction, i.opcode = opcode →
              translatedWord arguments m i = evalBinary v.opcode (m i.left) (m i.right) := by
            intro m i hi
            unfold translatedWord
            rw [hi, hmap]
            cases ho : v.opcode <;> rw [ho] at hbin <;> first
              | rfl
              | cases hbin
          refine h.define hplain ?_ hv ?_ ?_ hl
          · constructor
            · intro ha
              change opcode = .argument at ha
              rw [← hmap, ha]
              rfl
            · intro ha
              rw [ha] at hbin
              cases hbin
          · intro ha
            change opcode = .returnI64 at ha
            rw [ha] at hmap
            rw [← hmap] at hbin
            cases hbin
          · rw [hword _ _ rfl, hleft, hright, heq]

theorem Lowered.foldlM {rest : List Value} (h : Lowered arguments w ρ finished s)
    (heq : ∀ v ∈ rest, v.removed = false → Equation arguments w ρ v)
    (hv : (finished ++ rest).Pairwise fun a b => b.opcode = .argument → a.opcode = .argument)
    (hl : rest.foldlM Optimizing.lowerValue s = some s') :
    Lowered arguments w ρ (finished ++ rest) s' := by
  induction rest generalizing s finished with
  | nil =>
    simp only [List.foldlM_nil, Option.pure_def, Option.some.injEq] at hl
    subst hl
    rw [List.append_nil]
    exact h
  | cons v rest ih =>
    simp only [List.foldlM_cons, Option.bind_eq_bind, Option.bind_eq_some_iff] at hl
    obtain ⟨t, ht, hl⟩ := hl
    have hfirst : v.opcode = .argument → ∀ u ∈ finished, u.opcode = .argument := by
      intro ha u hu
      exact (List.pairwise_append.mp hv).2.2 u hu v List.mem_cons_self ha
    have hstep := h.lowerValue (heq v List.mem_cons_self) hfirst ht
    rw [List.append_cons] at hv ⊢
    exact ih hstep (fun u hu => heq u (List.mem_cons_of_mem _ hu)) hv hl

theorem Sound.values_holds {g : Graph} (h : Sound arguments w ρ g) :
    ∀ v ∈ g.values, v.removed = false → Equation arguments w ρ v := by
  intro v hv hl
  obtain ⟨i, hi, rfl⟩ := List.mem_iff_getElem.mp hv
  have hval : g.value i = g.values[i] := by
    simp [Graph.value, List.getD_eq_getElem?_getD, hi]
  rw [← hval] at hl ⊢
  exact h.holds i hi hl

theorem Sound.values_first {g : Graph} (h : Sound arguments w ρ g) :
    g.values.Pairwise fun a b => b.opcode = .argument → a.opcode = .argument := by
  rw [List.pairwise_iff_getElem]
  intro i j hi hj hij ha
  have hvi : g.value i = g.values[i] := by simp [Graph.value, List.getD_eq_getElem?_getD, hi]
  have hvj : g.value j = g.values[j] := by simp [Graph.value, List.getD_eq_getElem?_getD, hj]
  rw [← hvj] at ha
  rw [← hvi]
  exact h.first i j hij hj ha

theorem Sound.lowerGraph {g : Graph} {n : Nat} {out : Function} {env : Env}
    (h : Sound arguments w ρ g) (hn : n ≤ arguments.length) (hl : lowerGraph g n = some out) :
    irExecute env out arguments = .ok w := by
  unfold Optimizing.lowerGraph at hl
  split at hl
  · cases hl
  · simp only [Option.bind_eq_bind, Option.bind_eq_some_iff] at hl
    obtain ⟨s, hs, hl⟩ := hl
    split at hl
    · rename_i hv
      simp only [Option.some.injEq] at hl
      have hlow := Lowered.start.foldlM h.values_holds h.values_first hs
      have hplain := hlow.plain
      have hret : ∃ i ∈ s.instructions, i.opcode = .returnI64 := by
        obtain ⟨i, hi, hr⟩ := (irVerify_ok.mp hv).2.2
        refine ⟨i, hi, ?_⟩
        have hp := hplain i hi
        simp only [isReturn, Bool.or_eq_true, decide_eq_true_eq] at hr
        rcases hr with (hr | hr) | hr
        · exact hr
        · rw [hr] at hp
          cases hp
        · rw [hr] at hp
          cases hp
      subst hl
      refine (irExecute_straight hv hn hlow.first ?_).mpr (straightRun_plain hplain hret hlow.returns)
      intro i hi hj
      have hp := hplain i hi
      rcases hj with hj | hj | hj <;> rw [hj] at hp <;> cases hp
    · cases hl

end

end TurboJS.Optimizing
