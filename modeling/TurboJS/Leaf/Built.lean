import TurboJS.Leaf.Builder

namespace TurboJS.Leaf
open Bytecode

/-! What is known of a finished plan: the invariant of the builder, and the two closed forms. -/

def marksInt32 (i : Instruction) : Bool := i.opcode ∈ [.xor, .or, .and, .shl, .sar, .imul]

/-- While the builder decodes, the kind is not yet set, and `returnsInt32` tells whether any of
the instructions leaves an int32. -/
structure Building.Noted (s : Building) : Prop where
  kind : s.plan.kind = .general
  int32 : s.plan.returnsInt32 = s.plan.instructions.any marksInt32

theorem Realm.imulGuard_atoms {realm : Realm} {mathAtom imulAtom : Nat} {g : ImulGuard}
    (h : realm.imulGuard mathAtom imulAtom = some g) :
    g.mathAtom = mathAtom ∧ g.imulAtom = imulAtom := by
  simp only [Realm.imulGuard, Option.bind_eq_bind, Option.bind_eq_some_iff] at h
  obtain ⟨mathObject, -, imulFunction, -, he⟩ := h
  cases he
  exact ⟨rfl, rfl⟩

/-- What one instruction of the code does to a plan: it appends an instruction, or turns the last
one into the read of a property, or notes something. -/
inductive Building.Change (realm : Realm) (s t : Building) : Prop where
  | appended (i : Instruction)
      (instructions : t.plan.instructions = s.plan.instructions ++ [i])
      (kind : t.plan.kind = s.plan.kind)
      (int32 : t.plan.returnsInt32 = (s.plan.returnsInt32 || marksInt32 i))
      (guard : t.plan.guard = s.plan.guard)
      (pending : t.pendingMathImul = true → s.pendingMathImul = true)
      (imul : i.opcode = .imul → s.pendingMathImul = true)
  | property (last : Instruction) (atom : Nat)
      (found : s.plan.instructions.getLast? = some last)
      (arg : last.opcode = .arg)
      (same : t = { s with plan := { s.plan with instructions :=
        s.plan.instructions.dropLast ++ [{ last with opcode := .argProperty, atom := atom }] } })
  | noted (instructions : t.plan.instructions = s.plan.instructions)
      (kind : t.plan.kind = s.plan.kind)
      (int32 : t.plan.returnsInt32 = s.plan.returnsInt32)
      (guard : t.plan.guard = s.plan.guard)
      (pending : t.pendingMathImul = s.pendingMathImul)
  | recorded (g : ImulGuard)
      (instructions : t.plan.instructions = s.plan.instructions)
      (kind : t.plan.kind = s.plan.kind)
      (int32 : t.plan.returnsInt32 = s.plan.returnsInt32)
      (guard : t.plan.guard = some g)
      (math : realm.named g.mathAtom "Math" = true)
      (imul : realm.named g.imulAtom "imul" = true)
      (found : realm.imulGuard g.mathAtom g.imulAtom = some g)

namespace Building

variable {realm : Realm} {f : LeafFunction} {s t : Building} {i : Instruction}
  {offset next pops pushes : Nat}

theorem append_eq (h : s.append i = some t) :
    t = { s with plan := { s.plan with instructions := s.plan.instructions ++ [i] } } := by
  unfold append at h
  split at h
  · cases h
  · cases h
    rfl

theorem emit_eq (h : s.emit i pops pushes = some t) :
    t = { s with plan := { s.plan with instructions := s.plan.instructions ++ [i] },
                 depth := s.depth - pops + pushes } := by
  unfold emit at h
  split at h
  · cases h
  · obtain ⟨u, hu, he⟩ := Option.map_eq_some_iff.mp h
    cases he
    rw [append_eq hu]

theorem emit_change (hi : marksInt32 i = false) (h : s.emit i pops pushes = some t) :
    Change realm s t := by
  rw [emit_eq h]
  refine .appended i rfl rfl ?_ rfl id ?_
  · rw [hi, Bool.or_false]
  · intro himul
    simp [marksInt32, himul] at hi

theorem extended_change (hi : marksInt32 i = false) (h : s.extended.emit i pops pushes = some t) :
    Change realm s t := by
  rw [emit_eq h]
  refine .appended i rfl rfl ?_ rfl id ?_
  · rw [hi, Bool.or_false]
    rfl
  · intro himul
    simp [marksInt32, himul] at hi

theorem forSlot_change (slot : Slot) (hi : marksInt32 i = false)
    (h : (s.forSlot slot).emit i pops pushes = some t) : Change realm s t := by
  unfold forSlot at h
  split at h
  · exact extended_change hi h
  · exact emit_change hi h

theorem slotRead_mark {slot : Slot} {form : Form} {opcode : Opcode}
    (h : slotRead f slot form = some opcode) (argument : Nat) :
    marksInt32 (.at offset opcode argument 0) = false := by
  unfold slotRead at h
  split at h
  all_goals first | (cases h; done) | (cases h; rfl) | (split at h <;> cases h; rfl)

theorem slotWrite_mark {slot : Slot} {form : Form} {keep : Bool} {opcode : Opcode}
    (h : slotWrite f slot form keep = some opcode) (argument : Nat) :
    marksInt32 (.at offset opcode argument 0) = false := by
  unfold slotWrite at h
  cases keep
  all_goals
    split at h
    all_goals first | cases h | (split at h <;> cases h; rfl)

theorem emitJump_change {opcode : Opcode} {target : ℤ}
    (hi : marksInt32 (.at offset opcode 0 target) = false)
    (h : s.emitJump f offset opcode target pops = some t) : Change realm s t := by
  unfold emitJump at h
  split at h
  · cases h
  · obtain ⟨u, hu, he⟩ := Option.map_eq_some_iff.mp h
    cases he
    rw [emit_eq hu]
    refine .appended _ rfl rfl ?_ rfl id ?_
    · rw [hi, Bool.or_false]
    · intro himul
      simp [marksInt32, himul] at hi

theorem emitGetField_change {atom : Nat} (h : s.emitGetField offset atom = some t) :
    Change realm s t := by
  unfold emitGetField at h
  split at h
  · cases h
  · split at h
    · cases h
    · rename_i last hlast
      split at h
      · rename_i harg
        cases h
        exact .property last atom hlast harg rfl
      · rw [append_eq h]
        exact .appended _ rfl rfl (by simp [marksInt32, Instruction.at]) rfl id nofun

/-- Every instruction of the code is one of the changes. -/
theorem insn_change {insn : Insn} {q : Nat} (h : s.insn realm f offset insn next = some (t, q)) :
    Change realm s t := by
  have hmap : ∀ {o : Option Building} {r : Nat}, o.map (·, r) = some (t, q) → o = some t := by
    intro o r ho
    obtain ⟨u, hu, he⟩ := Option.map_eq_some_iff.mp ho
    cases he
    exact hu
  unfold Building.insn at h
  split at h
  case h_1 =>
    cases h
    exact .noted rfl rfl rfl rfl rfl
  case h_2 =>
    split at h
    · cases h
    · exact emit_change rfl (hmap h)
  case h_3 => exact emit_change rfl (hmap h)
  case h_4 slot form =>
    obtain ⟨opcode, ho, h⟩ := Option.bind_eq_some_iff.mp h
    exact forSlot_change slot (slotRead_mark ho _) (hmap h)
  case h_5 slot form =>
    obtain ⟨opcode, ho, h⟩ := Option.bind_eq_some_iff.mp h
    exact forSlot_change slot (slotWrite_mark ho _) (hmap h)
  case h_6 slot form =>
    obtain ⟨opcode, ho, h⟩ := Option.bind_eq_some_iff.mp h
    exact forSlot_change slot (slotWrite_mark ho _) (hmap h)
  case h_7 =>
    split at h
    · cases h
    · cases h
      exact .noted rfl rfl rfl rfl rfl
  case h_8 mathAtom =>
    split at h
    · rename_i imulAtom after hmath hdecode
      split at h
      · rename_i himul
        obtain ⟨guard, hg, he⟩ := Option.map_eq_some_iff.mp h
        cases he
        obtain ⟨rfl, rfl⟩ := Realm.imulGuard_atoms hg
        exact .recorded guard rfl rfl rfl rfl hmath himul hg
      · cases h
    · cases h
  case h_9 =>
    split at h
    · cases h
    · rename_i hp
      rw [emit_eq (hmap h)]
      refine .appended _ rfl rfl ?_ rfl nofun ?_
      · simp [marksInt32, Instruction.at, Building.int32]
      · intro _
        simp only [not_or, Bool.not_eq_true, not_not] at hp
        simpa using hp.1
  case h_10 =>
    split at h
    · cases h
    · rw [emit_eq (hmap h)]
      exact .appended _ rfl rfl (by simp [marksInt32, Instruction.at]) rfl id nofun
  case h_11 => exact emit_change rfl (hmap h)
  case h_12 => exact emitGetField_change (hmap h)
  case h_13 => exact extended_change rfl (hmap h)
  case h_14 => exact emit_change rfl (hmap h)
  case h_15 => exact emit_change rfl (hmap h)
  case h_16 => exact emit_change rfl (hmap h)
  case h_17 => exact emitJump_change rfl (hmap h)
  case h_18 => exact emitJump_change rfl (hmap h)
  case h_19 => exact emitJump_change rfl (hmap h)
  case h_20 op _ _ _ _ _ =>
    split at h
    · rename_i opcode extended int32 ho
      have hmark : marksInt32 (.at offset opcode 0 0) = int32 := by
        cases op <;> cases ho <;> rfl
      have himul : opcode ≠ .imul := by
        rintro rfl
        cases op <;> cases ho
      rw [emit_eq (hmap h)]
      refine .appended (.at offset opcode 0 0) ?_ ?_ ?_ ?_ ?_ (fun h => absurd h himul)
      · cases extended <;> cases int32 <;> rfl
      · cases extended <;> cases int32 <;> rfl
      · rw [hmark]
        cases extended <;> cases int32 <;> simp [Building.extended, Building.int32]
      · cases extended <;> cases int32 <;> rfl
      · cases extended <;> cases int32 <;> exact id
    · cases h
  case h_21 => cases h

theorem Noted.change (hs : s.Noted) (h : Change realm s t) : t.Noted := by
  cases h with
  | appended i instructions kind int32 guard pending imul =>
    refine ⟨kind.trans hs.kind, ?_⟩
    simp only [int32, hs.int32, instructions, List.any_append, List.any_cons, List.any_nil,
      Bool.or_false]
  | property last atom found arg same =>
    subst same
    refine ⟨hs.kind, ?_⟩
    have hsplit := List.dropLast_append_getLast? last found
    have hi := hs.int32
    rw [← hsplit] at hi
    simp only [List.any_append, List.any_cons, List.any_nil, Bool.or_false] at hi ⊢
    rw [hi, marksInt32, arg]
    rfl
  | noted instructions kind int32 guard pending =>
    exact ⟨kind.trans hs.kind, by rw [int32, instructions, hs.int32]⟩
  | recorded g instructions kind int32 guard math imul found =>
    exact ⟨kind.trans hs.kind, by rw [int32, instructions, hs.int32]⟩

theorem Noted.insn {insn : Insn} {q : Nat} (hs : s.Noted)
    (h : s.insn realm f offset insn next = some (t, q)) : t.Noted :=
  hs.change (insn_change h)

theorem Noted.return {r : Returned} (hs : s.Noted) (h : s.return f offset next = some r) :
    (∃ t, r = .goOn t ∧ t.Noted) ∨ ∃ plan, r = .finished plan ∧
      (plan.kind = .general ∨ plan = s.plan.summarise.recognise f.closureVarCount) := by
  unfold Building.return at h
  split at h
  · cases h
  · split at h
    · cases h
    · split at h
      · simp only [Option.bind_eq_bind, Option.bind_eq_some_iff] at h
        obtain ⟨t, ht, h⟩ := h
        have hnoted : t.Noted := hs.change (emit_change rfl ht : Change bareRealm s t)
        split at h
        · cases h
          exact .inl ⟨t, rfl, hnoted⟩
        · obtain ⟨resolved, -, he⟩ := Option.bind_eq_some_iff.mp h
          cases he
          exact .inr ⟨_, rfl, .inl hnoted.kind⟩
      · cases h
        exact .inr ⟨_, rfl, .inr rfl⟩

end Building

section

variable {realm : Realm} {f : LeafFunction} {plan : Plan}

theorem buildFrom_finished {fuel offset : Nat} {s : Building} (hs : s.Noted)
    (h : buildFrom realm f fuel offset s = some plan) :
    plan.kind = .general ∨
      ∃ t : Building, t.Noted ∧ plan = t.plan.summarise.recognise f.closureVarCount := by
  induction fuel generalizing offset s with
  | zero => cases h
  | succ fuel ih =>
    simp only [buildFrom, Option.bind_eq_bind, Option.bind_eq_some_iff] at h
    obtain ⟨⟨i, next⟩, -, h⟩ := h
    split at h
    · obtain ⟨r, hr, h⟩ := Option.bind_eq_some_iff.mp h
      rcases hs.return hr with ⟨t, rfl, ht⟩ | ⟨finished, rfl, hplan⟩
      · exact ih ht h
      · cases h
        exact hplan.imp_right fun hplan => ⟨s, hs, hplan⟩
    · obtain ⟨⟨t, q⟩, ht, h⟩ := Option.bind_eq_some_iff.mp h
      split at h
      · cases h
      · exact ih (hs.insn ht) h

theorem detectStringHashLeaf_spec (h : detectStringHashLeaf realm f = some plan) :
    plan.kind = .stringHash ∧ plan.instructions = [] := by
  unfold detectStringHashLeaf at h
  split at h
  · simp only [Option.bind_eq_bind, Option.bind_eq_some_iff] at h
    obtain ⟨mathAtom, -, imulAtom, -, charcodeAtom, -, h⟩ := h
    split at h
    · simp only [Option.bind_eq_some_iff] at h
      obtain ⟨seedIndex, -, multiplier, -, h⟩ := h
      split at h
      · simp only [Option.bind_eq_some_iff] at h
        obtain ⟨guard, -, charcode, -, he⟩ := h
        cases he
        exact ⟨rfl, rfl⟩
      · cases h
    · cases h
  · cases h

theorem buildTinyLeafPlan_closed (h : buildTinyLeafPlan realm f = some plan)
    (hk : plan.kind = .affine ∨ plan.kind = .stateful) :
    ∃ t : Building, t.Noted ∧ plan = t.plan.summarise.recognise f.closureVarCount := by
  unfold buildTinyLeafPlan at h
  split at h
  · cases h
  · split at h
    · rename_i hash hhash
      cases h
      simp [(detectStringHashLeaf_spec hhash).1] at hk
    · refine (buildFrom_finished ⟨rfl, rfl⟩ h).resolve_left ?_
      intro hgeneral
      simp [hgeneral] at hk

theorem recognise_eq (plan : Plan) (n : Nat) :
    plan.recognise n = plan ∨ ∃ steps, n = 1 ∧ 2 ≤ steps.length ∧
      Leaf.statefulSteps 4 plan.instructions.length plan.instructions = some steps ∧
      plan.recognise n =
        { plan with kind := .stateful, statefulSteps := steps, returnsInt32 := true } := by
  unfold Plan.recognise
  split
  · rename_i hc
    split
    · rename_i steps hsteps
      split
      · rename_i hlen
        exact .inr ⟨steps, hc.1, hlen, hsteps, rfl⟩
      · exact .inl rfl
    · exact .inl rfl
  · exact .inl rfl

theorem buildTinyLeafPlan_affine (h : buildTinyLeafPlan realm f = some plan)
    (hk : plan.kind = .affine) :
    affineSummary plan.instructions =
        some (plan.affineArgument, plan.affineMultiplier, plan.affineAddend) ∧
      plan.returnsInt32 = plan.instructions.any marksInt32 := by
  obtain ⟨t, ht, rfl⟩ := buildTinyLeafPlan_closed h (.inl hk)
  rcases recognise_eq t.plan.summarise f.closureVarCount with he | ⟨steps, -, -, -, he⟩
  · rw [he] at hk ⊢
    unfold Plan.summarise at hk ⊢
    split
    · rename_i hsum
      exact ⟨hsum, ht.int32⟩
    · rename_i hsum
      simp only [hsum, ht.kind, reduceCtorEq] at hk
  · rw [he] at hk
    cases hk

/-- A plan that multiplies has recorded an identity, and what is recorded has been found under the
names `Math` and `imul`. -/
structure Plan.Guarded (realm : Realm) (plan : Plan) : Prop where
  imul : (∃ i ∈ plan.instructions, i.opcode = .imul) → plan.guard.isSome = true
  found : ∀ g, plan.guard = some g →
    realm.named g.mathAtom "Math" = true ∧ realm.named g.imulAtom "imul" = true ∧
      realm.imulGuard g.mathAtom g.imulAtom = some g

structure Building.Guarded (realm : Realm) (s : Building) : Prop where
  plan : s.plan.Guarded realm
  pending : s.pendingMathImul = true → s.plan.guard.isSome = true

theorem Building.Guarded.change {s t : Building} (hs : s.Guarded realm)
    (h : Building.Change realm s t) : t.Guarded realm := by
  cases h with
  | appended i instructions kind int32 guard pending imul =>
    refine ⟨⟨?_, ?_⟩, ?_⟩
    · rintro ⟨j, hj, hop⟩
      rw [instructions, List.mem_append, List.mem_singleton] at hj
      rw [guard]
      rcases hj with hj | rfl
      · exact hs.plan.imul ⟨j, hj, hop⟩
      · exact hs.pending (imul hop)
    · rw [guard]
      exact hs.plan.found
    · intro hp
      rw [guard]
      exact hs.pending (pending hp)
  | property last atom found arg same =>
    subst same
    refine ⟨⟨?_, hs.plan.found⟩, hs.pending⟩
    rintro ⟨j, hj, hop⟩
    rw [List.mem_append, List.mem_singleton] at hj
    rcases hj with hj | rfl
    · exact hs.plan.imul ⟨j, List.dropLast_subset _ hj, hop⟩
    · cases hop
  | noted instructions kind int32 guard pending =>
    refine ⟨⟨?_, ?_⟩, ?_⟩
    · rw [instructions, guard]
      exact hs.plan.imul
    · rw [guard]
      exact hs.plan.found
    · rw [pending, guard]
      exact hs.pending
  | recorded g instructions kind int32 guard math imul found =>
    have hguard : t.plan.guard.isSome = true := by rw [guard]; rfl
    refine ⟨⟨fun _ => hguard, ?_⟩, fun _ => hguard⟩
    intro g' hg
    rw [guard] at hg
    cases hg
    exact ⟨math, imul, found⟩

theorem resolveJump_opcode {is : List Instruction} {i j : Instruction}
    (h : resolveJump is i = some j) : j.opcode = i.opcode := by
  unfold resolveJump at h
  split at h
  · obtain ⟨k, -, he⟩ := Option.map_eq_some_iff.mp h
    cases he
    rfl
  · cases h
    rfl

theorem resolved_opcodes {is js resolved : List Instruction}
    (h : js.mapM (resolveJump is) = some resolved) :
    resolved.map (·.opcode) = js.map (·.opcode) := by
  induction js generalizing resolved with
  | nil =>
    cases h
    rfl
  | cons j js ih =>
    simp only [List.mapM_cons, Option.bind_eq_bind, Option.bind_eq_some_iff] at h
    obtain ⟨k, hk, rest, hrest, he⟩ := h
    cases he
    rw [List.map_cons, List.map_cons, ih hrest, resolveJump_opcode hk]

theorem exists_opcode {is js : List Instruction} {opcode : Opcode}
    (h : is.map (·.opcode) = js.map (·.opcode)) (hi : ∃ i ∈ is, i.opcode = opcode) :
    ∃ i ∈ js, i.opcode = opcode := by
  rwa [← List.mem_map, ← h, List.mem_map]

theorem Plan.Guarded.summarise (h : plan.Guarded realm) : plan.summarise.Guarded realm := by
  unfold Plan.summarise
  split
  · exact ⟨h.imul, h.found⟩
  · exact h

theorem Plan.Guarded.recognise (h : plan.Guarded realm) (n : Nat) :
    (plan.recognise n).Guarded realm := by
  rcases recognise_eq plan n with he | ⟨steps, -, -, -, he⟩
  · rwa [he]
  · rw [he]
    exact ⟨h.imul, h.found⟩

theorem buildFrom_guarded {fuel offset : Nat} {s : Building} (hs : s.Guarded realm)
    (h : buildFrom realm f fuel offset s = some plan) : plan.Guarded realm := by
  induction fuel generalizing offset s with
  | zero => cases h
  | succ fuel ih =>
    simp only [buildFrom, Option.bind_eq_bind, Option.bind_eq_some_iff] at h
    obtain ⟨⟨i, next⟩, -, h⟩ := h
    split at h
    · obtain ⟨r, hr, h⟩ := Option.bind_eq_some_iff.mp h
      unfold Building.return at hr
      split at hr
      · cases hr
      · split at hr
        · cases hr
        · split at hr
          · simp only [Option.bind_eq_bind, Option.bind_eq_some_iff] at hr
            obtain ⟨t, ht, hr⟩ := hr
            have hguarded := hs.change (Building.emit_change rfl ht)
            split at hr
            · cases hr
              exact ih hguarded h
            · obtain ⟨resolved, hresolved, he⟩ := Option.bind_eq_some_iff.mp hr
              cases he
              cases h
              exact ⟨fun hi => hguarded.plan.imul (exists_opcode (resolved_opcodes hresolved) hi),
                hguarded.plan.found⟩
          · cases hr
            cases h
            exact hs.plan.summarise.recognise f.closureVarCount
    · obtain ⟨⟨t, q⟩, ht, h⟩ := Option.bind_eq_some_iff.mp h
      split at h
      · cases h
      · exact ih (hs.change (Building.insn_change ht)) h

theorem buildTinyLeafPlan_guarded (h : buildTinyLeafPlan realm f = some plan) :
    plan.Guarded realm := by
  unfold buildTinyLeafPlan at h
  split at h
  · cases h
  · split at h
    · rename_i hash hhash
      cases h
      unfold detectStringHashLeaf at hhash
      split at hhash
      · simp only [Option.bind_eq_bind, Option.bind_eq_some_iff] at hhash
        obtain ⟨mathAtom, -, imulAtom, -, charcodeAtom, -, hhash⟩ := hhash
        split at hhash
        · rename_i hnames
          simp only [Option.bind_eq_some_iff] at hhash
          obtain ⟨seedIndex, -, multiplier, -, hhash⟩ := hhash
          split at hhash
          · simp only [Option.bind_eq_some_iff] at hhash
            obtain ⟨guard, hg, charcode, -, he⟩ := hhash
            cases he
            refine ⟨fun _ => rfl, ?_⟩
            intro g hguard
            cases hguard
            obtain ⟨hmath, himul⟩ := Realm.imulGuard_atoms hg
            rw [hmath, himul]
            exact ⟨hnames.1, hnames.2.1, hg⟩
          · cases hhash
        · cases hhash
      · cases hhash
    · refine buildFrom_guarded ⟨⟨?_, ?_⟩, ?_⟩ h
      · rintro ⟨i, hi, -⟩
        cases hi
      · intro g hg
        cases hg
      · intro hp
        cases hp

end

end TurboJS.Leaf
