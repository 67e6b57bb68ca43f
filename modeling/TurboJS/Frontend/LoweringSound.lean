import TurboJS.Frontend.LoweringTrace
import TurboJS.IR.Reference

namespace TurboJS.Frontend

open IR (Word Frame Env Ends Ending IsInt32 refEffect refEffect_of_ne)
open Foundation

/-! Words that stand for values. -/

def Represents (v : Value) (w : Word) : Prop := v.toInt = some w.toInt ∧ IsInt32 w.toInt

theorem Represents.integer {n : Int} (h : IsInt32 n) :
    Represents (.integer n) (BitVec.ofInt 64 n) := by
  have hn : (BitVec.ofInt 64 n : Word).toInt = n := IR.toInt_ofInt_of_int32 h
  exact ⟨by rw [hn]; rfl, by rw [hn]; exact h⟩

theorem Represents.bool (b : Bool) : Represents (.bool b) (IR.ofBool b) := by
  refine ⟨?_, ?_⟩
  · rw [IR.toInt_ofBool]
    rfl
  · rw [IR.toInt_ofBool]
    cases b <;> decide

theorem Represents.ofInt {w : Word} {n : Int} (hw : w.toInt = n) (h : IsInt32 n) :
    Represents (Value.ofInt n) w := by
  have hin : -2 ^ 53 ≤ n ∧ n ≤ 2 ^ 53 := by
    obtain ⟨hlo, hhi⟩ := h
    constructor <;> omega
  refine ⟨?_, hw ▸ h⟩
  rw [Value.ofInt, if_pos hin, hw]
  rfl

theorem Represents.truthy {v : Value} {w : Word} (h : Represents v w) :
    v.truthy = some (decide (w ≠ 0)) := by
  obtain ⟨hv, -⟩ := h
  have hzero : decide (w ≠ 0) = decide (w.toInt ≠ 0) :=
    decide_eq_decide.mpr (not_congr IR.word_eq_zero_iff)
  rw [hzero]
  cases v with
  | undefined => cases hv
  | inexact => cases hv
  | bool b =>
    rw [← Option.some.inj hv]
    cases b <;> rfl
  | integer n =>
    rw [← Option.some.inj hv]
    rfl

section arithmetic

variable {env : Env} {f : IR.Function} {i : IR.Instruction} {fr : Frame} {v : Value} {w : Word}

def Computes (env : Env) (f : IR.Function) (i : IR.Instruction) (fr : Frame) (v : Value) : Prop :=
  (∃ w, Represents v w ∧ IR.effect env f i fr = .next (fr.setRegister i.destination w)) ∨
  ∃ reason, IR.effect env f i fr = .bail reason

theorem computes_checked {n : Int} (hw : w.toInt = n)
    (he : IR.effect env f i fr = IR.checkedI32 w fr i.destination) :
    Computes env f i fr (Value.ofInt n) := by
  rw [Computes, he]
  unfold IR.checkedI32
  split
  · rename_i hfits
    exact .inl ⟨w, .ofInt hw (hw ▸ IR.fitsInt32_iff.mp hfits), rfl⟩
  · exact .inr ⟨_, rfl⟩

theorem computes_set (hw : Represents v w)
    (he : IR.effect env f i fr = .next (fr.setRegister i.destination w)) :
    Computes env f i fr v := .inl ⟨w, hw, he⟩

/-- The checked instructions on exact operands. -/
theorem arithmetic_computes {op : Arithmetic} {a b : Value}
    (hop : arithmeticOpcode .int32 op = some i.opcode) (ha : Represents a (fr.registers i.left))
    (hb : Represents b (fr.registers i.right))
    (hexact : ∀ m n, a.toInt = some m → b.toInt = some n → op.Exact m n) :
    ∃ v, op.onValues a b = some v ∧ Computes env f i fr v := by
  obtain ⟨ha, hra⟩ := ha
  obtain ⟨hb, hrb⟩ := hb
  have hex := hexact _ _ ha hb
  refine ⟨op.onInts (fr.registers i.left).toInt (fr.registers i.right).toInt, ?_, ?_⟩
  · rw [Arithmetic.onValues, ha, hb]
  cases op with
  | add =>
    have ho : i.opcode = .addI32Checked := (Option.some.inj hop).symm
    exact computes_checked (IR.toInt_add hra hrb) (by simp [IR.effect, ho])
  | sub =>
    have ho : i.opcode = .subI32Checked := (Option.some.inj hop).symm
    exact computes_checked (IR.toInt_sub hra hrb) (by simp [IR.effect, ho])
  | mul =>
    have ho : i.opcode = .mulI32Checked := (Option.some.inj hop).symm
    rw [Arithmetic.onInts, if_neg hex]
    exact computes_checked (IR.toInt_mul hra hrb) (by simp [IR.effect, ho])
  | div =>
    have ho : i.opcode = .divI32Checked := (Option.some.inj hop).symm
    have heffect : IR.effect env f i fr =
        if fr.registers i.right = 0 then .bail .divisionByZero
        else if fr.registers i.left = IR.int32Min ∧ fr.registers i.right = -1 then
          .bail .divisionOverflow
        else .next (fr.setRegister i.destination
          ((fr.registers i.left).sdiv (fr.registers i.right))) := by
      simp [IR.effect, ho]
    by_cases hzero : fr.registers i.right = 0
    · exact .inr ⟨_, by rw [heffect, if_pos hzero]⟩
    · by_cases hover : fr.registers i.left = IR.int32Min ∧ fr.registers i.right = -1
      · exact .inr ⟨_, by rw [heffect, if_neg hzero, if_pos hover]⟩
      · have hn : (fr.registers i.right).toInt ≠ 0 := fun h => hzero (IR.word_eq_zero_iff.mpr h)
        obtain ⟨hdvd, hsign⟩ := hex.resolve_left hn
        have hno : ¬ ((fr.registers i.left).toInt = -2147483648 ∧
            (fr.registers i.right).toInt = -1) := by
          rintro ⟨hl, hr⟩
          refine hover ⟨?_, ?_⟩
          · rw [← BitVec.toInt_inj, hl]
            decide
          · rw [← BitVec.toInt_inj, hr]
            decide
        have hcond : ¬ ((fr.registers i.right).toInt = 0 ∨
            ¬ (fr.registers i.right).toInt ∣ (fr.registers i.left).toInt ∨
            (fr.registers i.left).toInt = 0 ∧ (fr.registers i.right).toInt < 0) := by
          rintro (h | h | h)
          · exact hn h
          · exact h hdvd
          · exact hsign h
        rw [Arithmetic.onInts, if_neg hcond, ← Int.tdiv_eq_ediv_of_dvd hdvd]
        refine computes_set (.ofInt (IR.toInt_sdiv hra) (IR.int32_tdiv hra hno)) ?_
        rw [heffect, if_neg hzero, if_neg hover]
  | mod =>
    have ho : i.opcode = .remI32Checked := (Option.some.inj hop).symm
    have heffect : IR.effect env f i fr =
        if fr.registers i.right = 0 then .bail .divisionByZero
        else .next (fr.setRegister i.destination
          ((fr.registers i.left).srem (fr.registers i.right))) := by
      simp [IR.effect, ho]
    by_cases hzero : fr.registers i.right = 0
    · exact .inr ⟨_, by rw [heffect, if_pos hzero]⟩
    · have hn : (fr.registers i.right).toInt ≠ 0 := fun h => hzero (IR.word_eq_zero_iff.mpr h)
      have hcond : ¬ ((fr.registers i.right).toInt = 0 ∨ (fr.registers i.left).toInt < 0 ∧
          (fr.registers i.left).toInt.tmod (fr.registers i.right).toInt = 0) := by
        rintro (h | h)
        · exact hn h
        · exact hex.resolve_left hn h
      rw [Arithmetic.onInts, if_neg hcond]
      refine computes_set (.ofInt IR.toInt_srem (IR.int32_tmod hra)) ?_
      rw [heffect, if_neg hzero]
  | lt =>
    have ho : i.opcode = .lessThanI64 := (Option.some.inj hop).symm
    refine computes_set (Represents.bool _) ?_
    simp [IR.effect, ho, BitVec.slt_eq_decide]

end arithmetic

structure Translation (info : EngineBytecodeInfo) (a : Analysis) (fin : Lowering)
    (f : IR.Function) : Prop where
  frame : info.localCount + info.stackSize ≤ IR.maxRegisters
  argumentLimit : info.argumentCount ≤ IR.maxRegisters
  arguments : f.argumentCount = info.argumentCount
  analyzed : Analyzed info.bytecode a
  maximum : a.maximum ≤ info.stackSize
  rounds : Rounds info a .start fin
  done : info.bytecode.length ≤ fin.pc
  patched : fin.fixups.foldlM (applyFixup fin (Function.update fin.bytecodeToIR
    info.bytecode.length (some fin.instructions.length))) fin.instructions = .ok f.instructions

theorem engineBytecodeToIR_ok {info : EngineBytecodeInfo} {f : IR.Function}
    (h : engineBytecodeToIR info = .ok f) : ∃ a fin, Translation info a fin f := by
  unfold engineBytecodeToIR at h
  simp only at h
  split at h
  · cases h
  · rename_i hframe
    cases ha : analyzeStackDepths info.bytecode with
    | error e => simp [ha] at h
    | ok a =>
      simp only [ha] at h
      split at h
      · cases h
      · rename_i hmax
        obtain ⟨fin, hfin, h⟩ := bind_eq_ok.mp h
        split at h
        · cases h
        · obtain ⟨is, his, h⟩ := bind_eq_ok.mp h
          split at h
          · cases h
            obtain ⟨hrounds, hdone⟩ := lowerOffsets_rounds (Nat.le_add_left _ _) hfin
            exact ⟨a, fin, by omega, by omega, rfl, analyzeStackDepths_ok ha, by omega, hrounds, hdone, his⟩
          · cases h

def Placed (f : IR.Function) (pos : Nat) (is : List IR.Instruction) : Prop :=
  ∀ j i, is[j]? = some i → ∃ target, f.instructions[pos + j]? = some { i with target }

section placed

variable {f : IR.Function} {pos : Nat} {is js : List IR.Instruction} {i : IR.Instruction}

theorem Placed.head (h : Placed f pos (i :: is)) :
    ∃ target, f.instructions[pos]? = some { i with target } := by
  exact h 0 i rfl

theorem Placed.left (h : Placed f pos (is ++ js)) : Placed f pos is := by
  intro j i hj
  refine h j i ?_
  rw [List.getElem?_append_left (List.getElem?_eq_some_iff.mp hj).1]
  exact hj

theorem Placed.right (h : Placed f pos (is ++ js)) : Placed f (pos + is.length) js := by
  intro j i hj
  obtain ⟨t, ht⟩ := h (is.length + j) i (by
    rw [List.getElem?_append_right (Nat.le_add_right _ _), Nat.add_sub_cancel_left]
    exact hj)
  exact ⟨t, by rw [Nat.add_assoc]; exact ht⟩

theorem Placed.tail (h : Placed f pos (i :: is)) : Placed f (pos + 1) is := by
  have happend : Placed f pos ([i] ++ is) := h
  exact happend.right

variable {info : EngineBytecodeInfo} {a : Analysis} {fin : Lowering}

theorem Translation.placed (h : Translation info a fin f) (hp : is ++ js <+: fin.instructions) :
    Placed f is.length js := by
  intro j i hj
  obtain ⟨rest, hrest⟩ := hp
  refine applyFixups_get h.patched ?_
  rw [← hrest, List.append_assoc, List.getElem?_append_right (Nat.le_add_right _ _),
    Nat.add_sub_cancel_left, List.getElem?_append_left (List.getElem?_eq_some_iff.mp hj).1]
  exact hj

theorem Translation.length (h : Translation info a fin f) :
    f.instructions.length = fin.instructions.length := applyFixups_length h.patched

theorem Translation.fixupsInOrder (h : Translation info a fin f) : FixupsInOrder fin :=
  h.rounds.fixupsInOrder ⟨.nil, by simp [Lowering.start]⟩

theorem Translation.branch (h : Translation info a fin f) {k o : Nat}
    (hmem : (k, o) ∈ fin.fixups) (hi : fin.instructions[k]? = some i)
    (ho : o < info.bytecode.length) :
    ∃ target u opened depth, f.instructions[k]? = some { i with target } ∧ Rounds info a u fin ∧
      u.pc = o ∧ OpenedAt info a u opened depth ∧ opened.bytecodeToIR o = some target := by
  obtain ⟨target, ht, hget⟩ := applyFixups_get_target h.patched h.fixupsInOrder.1 hmem hi
  rw [Function.update_of_ne (Nat.ne_of_lt ho)] at ht
  rcases h.rounds.arrival ht with hstart | ⟨u, opened, depth, hu, hpc, hopened, hx⟩
  · cases hstart
  · exact ⟨target, u, opened, depth, hget, hu, hpc, hopened, hx⟩

end placed

/-- The words of a stack, its top first, in the locals from `base` on. -/
def Spilled (base : Nat) (locals : Nat → Word) : List Word → Prop
  | [] => True
  | w :: rest => locals (base + rest.length) = w ∧ Spilled base locals rest

theorem Spilled.congr {base : Nat} {locals locals' : Nat → Word} {ws : List Word}
    (h : Spilled base locals ws)
    (heq : ∀ k, base ≤ k → k < base + ws.length → locals' k = locals k) :
    Spilled base locals' ws := by
  induction ws with
  | nil => trivial
  | cons w rest ih =>
    simp only [List.length_cons] at heq
    refine ⟨?_, ih h.2 ?_⟩
    · rw [heq _ (by omega) (by omega)]
      exact h.1
    · intro k hlo hhi
      exact heq k hlo (by omega)

theorem spillStackToLocals_length (base offset : Nat) (stack : List Nat) :
    (spillStackToLocals base offset stack).length = stack.length := by
  induction stack with
  | nil => rfl
  | cons r rest ih => simp [spillStackToLocals, ih]

theorem reloadStackFromLocals_length (base offset first n : Nat) :
    (reloadStackFromLocals base offset first n).length = n := by
  induction n with
  | zero => rfl
  | succ n ih => simp [reloadStackFromLocals, ih]

theorem reloadedStack_lt {first n r : Nat} (h : r ∈ reloadedStack first n) : r < first + n := by
  induction n with
  | zero => cases h
  | succ n ih =>
    rcases List.mem_cons.mp h with rfl | h
    · omega
    · have := ih h
      omega

section spills

variable {env : Env} {f : IR.Function} {arguments : List Word} {n pos base offset : Nat}
  {fr : Frame} {e : Ending}

theorem toNat_ofNat_of_lt {k : Nat} (h : k < 2 ^ 64) : (BitVec.ofNat 64 k : Word).toNat = k := by
  rw [BitVec.toNat_ofNat, Nat.mod_eq_of_lt h]

theorem spills_run {stack : List Nat} (hbound : base + stack.length < 2 ^ 64)
    (hp : Placed f pos (spillStackToLocals base offset stack))
    (he : Ends env f arguments n fr pos e) :
    ∃ m fr', m ≤ n ∧ Ends env f arguments m fr' (pos + stack.length) e ∧
      fr'.registers = fr.registers ∧ (∀ k, k < base → fr'.locals k = fr.locals k) ∧
      Spilled base fr'.locals (stack.map fr.registers) := by
  induction stack with
  | nil => exact ⟨n, fr, Nat.le_refl n, he, rfl, fun _ _ => rfl, trivial⟩
  | cons r rest ih =>
    simp only [List.length_cons] at hbound
    obtain ⟨m, fr', hm, he', hreg, hloc, hsp⟩ := ih (by omega) hp.left
    obtain ⟨t, hi⟩ := hp.right.head
    rw [spillStackToLocals_length] at hi
    have hk : (BitVec.ofNat 64 (base + rest.length) : Word).toNat = base + rest.length :=
      toNat_ofNat_of_lt (by omega)
    have heff : refEffect env f arguments
        { opcode := .localSet, left := r, immediate := BitVec.ofNat 64 (base + rest.length),
          bytecodeOffset := offset, target := t } fr' =
        .next (fr'.setLocal (base + rest.length) (fr'.registers r)) := by
      simp [refEffect, IR.effect, hk]
    obtain ⟨m', hm', he''⟩ := he'.of_next hi heff
    refine ⟨m', _, by omega, he'', hreg, ?_, ?_, ?_⟩
    · intro k hlt
      rw [IR.Frame.setLocal_locals, Function.update_of_ne (by omega)]
      exact hloc k hlt
    · simp [hreg]
    · refine hsp.congr ?_
      intro k _ hhi
      rw [List.length_map] at hhi
      rw [IR.Frame.setLocal_locals, Function.update_of_ne (by omega)]

theorem reloads_run {first d : Nat} {ws : List Word} (hd : ws.length = d)
    (hbound : base + d < 2 ^ 64)
    (hp : Placed f pos (reloadStackFromLocals base offset first d))
    (hs : Spilled base fr.locals ws) (he : Ends env f arguments n fr pos e) :
    ∃ m fr', m ≤ n ∧ Ends env f arguments m fr' (pos + d) e ∧ fr'.locals = fr.locals ∧
      (reloadedStack first d).map fr'.registers = ws := by
  induction d generalizing ws with
  | zero =>
    rw [List.length_eq_zero_iff.mp hd]
    exact ⟨n, fr, Nat.le_refl n, he, rfl, rfl⟩
  | succ d ih =>
    obtain ⟨w, rest, rfl⟩ := List.exists_cons_of_length_eq_add_one hd
    have hrest : rest.length = d := by simpa using hd
    obtain ⟨m, fr', hm, he', hloc, hregs⟩ := ih hrest (by omega) hp.left hs.2
    obtain ⟨t, hi⟩ := hp.right.head
    rw [reloadStackFromLocals_length] at hi
    have hk : (BitVec.ofNat 64 (base + d) : Word).toNat = base + d :=
      toNat_ofNat_of_lt (by omega)
    have heff : refEffect env f arguments
        { opcode := .localGet, destination := first + d, immediate := BitVec.ofNat 64 (base + d),
          bytecodeOffset := offset, target := t } fr' =
        .next (fr'.setRegister (first + d) (fr'.locals (base + d))) := by
      simp [refEffect, IR.effect, hk]
    obtain ⟨m', hm', he''⟩ := he'.of_next hi heff
    refine ⟨m', _, by omega, he'', hloc, ?_⟩
    have hsame : (reloadedStack first d).map
        (fr'.setRegister (first + d) (fr'.locals (base + d))).registers =
        (reloadedStack first d).map fr'.registers := by
      refine List.map_congr_left ?_
      intro r hr
      rw [IR.Frame.setRegister_registers, Function.update_of_ne (Nat.ne_of_lt (reloadedStack_lt hr))]
    rw [reloadedStack, List.map_cons, hsame, hregs]
    have hw : fr'.locals (base + d) = w := by
      rw [hloc, ← hrest]
      exact hs.1
    simp [hw]

end spills

def LocalsAgree (info : EngineBytecodeInfo) (m : NumberState) (fr : Frame) : Prop :=
  ∀ k, k < info.localCount →
    m.locals k = .undefined ∨ Represents (m.locals k) (fr.locals k)

structure Mirrors (info : EngineBytecodeInfo) (m : NumberState) (st : Lowering) (fr : Frame) :
    Prop where
  reachable : st.fallthroughReachable = true
  stack : List.Forall₂ Represents m.stack (st.stack.map fr.registers)
  fresh : ∀ r ∈ st.stack, r < st.registerCount
  locals : LocalsAgree info m fr

structure Arrives (info : EngineBytecodeInfo) (m : NumberState) (fr : Frame) : Prop where
  stack : ∃ ws, Spilled info.localCount fr.locals ws ∧ List.Forall₂ Represents m.stack ws
  locals : LocalsAgree info m fr

section simulation

variable {info : EngineBytecodeInfo} {a : Analysis} {fin st st' opened : Lowering}
  {f : IR.Function} {env : Env} {arguments : List Word} {args : List Int} {n : Nat}
  {m m' : NumberState} {fr : Frame} {e : Ending} {r : Word} {depth offset op : Nat}

theorem LocalsAgree.of_locals {fr' : Frame} (h : LocalsAgree info m fr)
    (hm : m'.locals = m.locals)
    (hfr : ∀ k, k < info.localCount → fr'.locals k = fr.locals k) : LocalsAgree info m' fr' := by
  intro k hk
  rw [hm, hfr k hk]
  exact h k hk

theorem Translation.bound (ht : Translation info a fin f) {o d : Nat}
    (h : a.depths o = some d) : info.localCount + d ≤ 64 := by
  have hframe := ht.frame
  have hmax := ht.maximum
  have hd := ht.analyzed.bounded o d h
  have h64 : IR.maxRegisters = 64 := rfl
  omega

theorem Arrives.opens (ht : Translation info a fin f) (ho : OpenedAt info a st opened depth)
    (htarget : a.branchTargets st.pc = true) (hp : opened.instructions <+: fin.instructions)
    (hd : m.stack.length = depth) (hm : Arrives info m fr)
    (he : Ends env f arguments n fr (st.instructions ++ spilledAt info st).length e) :
    ∃ k fr', k ≤ n ∧ Ends env f arguments k fr' opened.instructions.length e ∧
      Mirrors info m opened fr' := by
  rcases openOffset_ok ho.run with ⟨hplain, -⟩ | ⟨-, -, rfl⟩
  · rw [hplain] at htarget
    cases htarget
  · obtain ⟨ws, hws, hstack⟩ := hm.stack
    have hlen : ws.length = depth := hstack.length_eq.symm.trans hd
    have hbound := ht.bound ho.labelled
    have hplaced : Placed f (st.instructions ++ spilledAt info st).length
        (reloadStackFromLocals info.localCount st.pc st.registerCount depth) := ht.placed hp
    obtain ⟨k, fr', hk, he', hloc, hregs⟩ := reloads_run hlen (by omega) hplaced hws he
    refine ⟨k, fr', hk, ?_, rfl, ?_, ?_, ?_⟩
    · have hpos : (openedTarget info st depth).instructions.length =
          (st.instructions ++ spilledAt info st).length + depth := by
        rw [openedTarget, List.length_append, reloadStackFromLocals_length]
      rw [hpos]
      exact he'
    · rw [openedTarget, hregs]
      exact hstack
    · intro s hs
      exact reloadedStack_lt hs
    · exact hm.locals.of_locals rfl fun j _ => by rw [hloc]

theorem Mirrors.opens (ht : Translation info a fin f) (ho : OpenedAt info a st opened depth)
    (hp : opened.instructions <+: fin.instructions) (hd : m.stack.length = depth)
    (hm : Mirrors info m st fr)
    (he : Ends env f arguments n fr st.instructions.length e) :
    ∃ k fr', k ≤ n ∧ Ends env f arguments k fr' opened.instructions.length e ∧
      Mirrors info m opened fr' := by
  rcases openOffset_ok ho.run with ⟨-, rfl⟩ | ⟨htarget, -, hopened⟩
  · exact ⟨n, fr, Nat.le_refl n, he, hm.reachable, hm.stack, hm.fresh, hm.locals⟩
  · have hspilled : spilledAt info st =
        spillStackToLocals info.localCount st.pc st.stack := by
      rw [spilledAt, if_pos hm.reachable]
    have hlen : st.stack.length = depth := by
      rw [← hd, hm.stack.length_eq, List.length_map]
    have hbound := ht.bound ho.labelled
    have hpre : st.instructions ++ spillStackToLocals info.localCount st.pc st.stack <+:
        fin.instructions := by
      refine List.IsPrefix.trans ?_ hp
      rw [hopened, openedTarget, hspilled]
      exact List.prefix_append _ _
    obtain ⟨k, fr', hk, he', hreg, hloc, hsp⟩ := spills_run (by omega) (ht.placed hpre) he
    have harrives : Arrives info m fr' :=
      ⟨⟨_, hsp, hm.stack⟩, hm.locals.of_locals rfl hloc⟩
    have hpos : (st.instructions ++ spilledAt info st).length =
        st.instructions.length + st.stack.length := by
      rw [hspilled, List.length_append, spillStackToLocals_length]
    rw [← hpos] at he'
    obtain ⟨k', fr'', hk', he'', hm''⟩ := harrives.opens ht ho htarget hp hd he'
    exact ⟨k', fr'', Nat.le_trans hk' hk, he'', hm''⟩

theorem Translation.produced {i : IR.Instruction} {rest : List Nat}
    (ht : Translation info a fin f) (hprod : st.produce offset i rest = .ok st')
    (hp : st'.instructions <+: fin.instructions) :
    ∃ target, f.instructions[st.instructions.length]? = some
      { i with destination := st.registerCount, bytecodeOffset := offset, target } := by
  rw [produce_ok hprod] at hp
  exact (ht.placed hp).head

theorem Mirrors.produce {i : IR.Instruction} {target : Nat} {rest : List Nat} {vs : List Value}
    {v : Value} {w : Word} (hprod : st.produce offset i rest = .ok st')
    (hm : Mirrors info m st fr) (hvs : List.Forall₂ Represents vs (rest.map fr.registers))
    (hfresh : ∀ s ∈ rest, s < st.registerCount) (hv : Represents v w)
    (hstack : m'.stack = v :: vs) (hlocals : m'.locals = m.locals)
    (hi : f.instructions[st.instructions.length]? = some
      { i with destination := st.registerCount, bytecodeOffset := offset, target })
    (heff : refEffect env f arguments
      { i with destination := st.registerCount, bytecodeOffset := offset, target } fr =
        .next (fr.setRegister st.registerCount w))
    (he : Ends env f arguments n fr st.instructions.length e) :
    ∃ k fr', k ≤ n ∧ Mirrors info m' st' fr' ∧
      Ends env f arguments k fr' st'.instructions.length e := by
  obtain ⟨k, hk, he'⟩ := he.of_next hi heff
  rw [produce_ok hprod]
  refine ⟨k, fr.setRegister st.registerCount w, by omega, ⟨hm.reachable, ?_, ?_, ?_⟩, ?_⟩
  · have hsame : rest.map (fr.setRegister st.registerCount w).registers =
        rest.map fr.registers := by
      refine List.map_congr_left ?_
      intro s hs
      rw [IR.Frame.setRegister_registers, Function.update_of_ne (Nat.ne_of_lt (hfresh s hs))]
    rw [hstack, List.map_cons, hsame]
    refine .cons ?_ hvs
    simpa using hv
  · intro s hs
    rcases List.mem_cons.mp hs with rfl | hs
    · exact Nat.lt_succ_self _
    · exact Nat.lt_succ_of_lt (hfresh s hs)
  · exact hm.locals.of_locals hlocals fun j _ => rfl
  · simpa [Lowering.emit] using he'

def Follows (info : EngineBytecodeInfo) (a : Analysis) (fin : Lowering) (f : IR.Function)
    (env : Env) (arguments : List Word) (args : List Int) (r : Word) (n : Nat) (o : Operation)
    (next : Nat) (m : NumberState) (st' : Lowering) : Prop :=
  ∃ m', numberExec args o next m = some m' ∧
    ((m'.pc = st'.pc ∧ ∃ k fr', k ≤ n ∧ Mirrors info m' st' fr' ∧
        Ends env f arguments k fr' st'.instructions.length (.returned r)) ∨
      ∃ k fr' u opened depth x, m'.pc = u.pc ∧ o.target = some (u.pc : Int) ∧
        Rounds info a u fin ∧ OpenedAt info a u opened depth ∧
        opened.bytecodeToIR u.pc = some x ∧ k < n ∧ Arrives info m' fr' ∧
        Ends env f arguments k fr' x (.returned r))

/-- Where a round of the translation and the two runs stand before an operation: `st` is the
opened state and `st'` the state behind the round. -/
structure Before (info : EngineBytecodeInfo) (a : Analysis) (fin st st' : Lowering)
    (f : IR.Function) (env : Env) (arguments : List Word) (n : Nat) (m : NumberState) (fr : Frame)
    (r : Word) : Prop where
  translation : Translation info a fin f
  code : st'.instructions <+: fin.instructions
  fixups : st'.fixups <+: fin.fixups
  mirrors : Mirrors info m st fr
  bound : info.localCount + m.stack.length ≤ 64
  ends : Ends env f arguments n fr st.instructions.length (.returned r)

theorem Before.load {i : IR.Instruction} {o : Operation} {v : Value} {w : Word}
    (h : Before info a fin st st' f env arguments n m fr r)
    (hprod : st.produce offset i st.stack = .ok st') (hv : Represents v w)
    (hexec : numberExec args o st.pc m = some { m with pc := st.pc, stack := v :: m.stack })
    (heff : ∀ target, refEffect env f arguments
      { i with destination := st.registerCount, bytecodeOffset := offset, target } fr =
        .next (fr.setRegister st.registerCount w)) :
    Follows info a fin f env arguments args r n o st.pc m st' := by
  obtain ⟨target, hi⟩ := h.translation.produced hprod h.code
  refine ⟨_, hexec, .inl ⟨?_, ?_⟩⟩
  · rw [produce_ok hprod]
    rfl
  · exact h.mirrors.produce hprod h.mirrors.stack h.mirrors.fresh hv rfl rfl hi (heff target) h.ends

theorem Before.getArg {index : Nat} (h : Before info a fin st st' f env arguments n m fr r)
    (hargs : arguments = args.map (BitVec.ofInt 64)) (hint : ∀ x ∈ args, IsInt32 x)
    (hcount : info.argumentCount ≤ args.length)
    (hop : lowerOperation info st offset op (.getArg index) = .ok st') :
    Follows info a fin f env arguments args r n (.getArg index) st.pc m st' := by
  simp only [lowerOperation] at hop
  split at hop
  · cases hop
  · rename_i hlt
    have hlimit := h.translation.argumentLimit
    have h64 : IR.maxRegisters = 64 := rfl
    have hin : index < args.length := by omega
    have hk : (BitVec.ofNat 64 index : Word).toNat = index := toNat_ofNat_of_lt (by omega)
    refine h.load hop (Represents.integer (hint _ (List.getElem_mem hin))) ?_ ?_
    · simp [numberExec, List.getElem?_eq_getElem hin]
    · intro target
      simp [refEffect, hk, hargs, List.getElem?_eq_getElem hin]

theorem Before.getLoc {index : Nat} (h : Before info a fin st st' f env arguments n m fr r)
    (hdef : m.locals index ≠ .undefined)
    (hop : lowerOperation info st offset op (.getLoc index) = .ok st') :
    Follows info a fin f env arguments args r n (.getLoc index) st.pc m st' := by
  simp only [lowerOperation] at hop
  split at hop
  · cases hop
  · rename_i hlt
    have hbound := h.bound
    have hk : (BitVec.ofNat 64 index : Word).toNat = index := toNat_ofNat_of_lt (by omega)
    have hv := (h.mirrors.locals index (by omega)).resolve_left hdef
    refine h.load hop hv rfl ?_
    intro target
    simp [refEffect, IR.effect, hk]

theorem Before.store {index : Nat} {keep : Bool} {o : Operation}
    (h : Before info a fin st st' f env arguments n m fr r)
    (hop : lowerStore info st offset index keep = .ok st')
    (hexec : ∀ v vs, m.stack = v :: vs → numberExec args o st.pc m =
      some ⟨st.pc, if keep then v :: vs else vs, Function.update m.locals index v⟩) :
    Follows info a fin f env arguments args r n o st.pc m st' := by
  unfold lowerStore at hop
  split at hop
  · cases hop
  · rename_i hlt
    cases hst : st.stack with
    | nil => simp [hst] at hop
    | cons top rest =>
      simp only [hst, Except.ok.injEq] at hop
      have hstack := h.mirrors.stack
      rw [hst, List.map_cons] at hstack
      obtain ⟨v, vs, hv, hvs, hm⟩ := List.forall₂_cons_right_iff.mp hstack
      have hbound := h.bound
      have hk : (BitVec.ofNat 64 index : Word).toNat = index := toNat_ofNat_of_lt (by omega)
      have hcode := h.code
      rw [← hop] at hcode ⊢
      obtain ⟨t, hi⟩ := (h.translation.placed hcode).head
      have heff : refEffect env f arguments
          { opcode := .localSet, left := top, immediate := BitVec.ofNat 64 index,
            bytecodeOffset := offset, target := t } fr =
          .next (fr.setLocal index (fr.registers top)) := by
        simp [refEffect, IR.effect, hk]
      obtain ⟨k, hk', he⟩ := h.ends.of_next hi heff
      refine ⟨_, hexec v vs hm, .inl ⟨rfl, k, fr.setLocal index (fr.registers top), by omega,
        ⟨h.mirrors.reachable, ?_, ?_, ?_⟩, ?_⟩⟩
      · cases keep
        · exact hvs
        · exact .cons hv hvs
      · intro s hs
        refine h.mirrors.fresh s ?_
        rw [hst]
        cases keep
        · exact List.mem_cons_of_mem _ hs
        · exact hs
      · intro j hj
        by_cases hji : j = index
        · subst hji
          right
          simpa using hv
        · simp only [IR.Frame.setLocal_locals, Function.update_of_ne hji]
          exact h.mirrors.locals j hj
      · simpa [Lowering.emit] using he

theorem Before.arithmetic {op' : Arithmetic}
    (h : Before info a fin st st' f env arguments n m fr r) (hmode : info.numericMode = .int32)
    (hexact : ∀ b a' vs, m.stack = b :: a' :: vs →
      ∀ x y, a'.toInt = some x → b.toInt = some y → op'.Exact x y)
    (hop : lowerArithmetic info st offset op' = .ok st') :
    Follows info a fin f env arguments args r n (.arithmetic op') st.pc m st' := by
  unfold lowerArithmetic at hop
  split at hop
  · rename_i right left rest hst
    split at hop
    · cases hop
    · rw [hmode] at hop
      cases hopc : arithmeticOpcode .int32 op' with
      | none => simp [hopc] at hop
      | some opcode =>
        simp only [hopc] at hop
        have hstack := h.mirrors.stack
        rw [hst, List.map_cons, List.map_cons] at hstack
        obtain ⟨b, vs', hb, hvs', hm⟩ := List.forall₂_cons_right_iff.mp hstack
        obtain ⟨x, vs, hx, hvs, rfl⟩ := List.forall₂_cons_right_iff.mp hvs'
        have hne : opcode ≠ .argument := by
          intro ho
          subst ho
          cases op' <;> cases hopc
        obtain ⟨t, hi⟩ := h.translation.produced hop h.code
        obtain ⟨v, hv, hcomp⟩ : ∃ v, op'.onValues x b = some v ∧
            Computes env f { opcode, left, right, destination := st.registerCount,
                             bytecodeOffset := offset, target := t } fr v :=
          arithmetic_computes hopc hx hb (hexact b x vs hm)
        rcases hcomp with ⟨w, hw, heff⟩ | ⟨reason, hbail⟩
        · have hfresh : ∀ s ∈ rest, s < st.registerCount := by
            intro s hs
            refine h.mirrors.fresh s ?_
            rw [hst]
            exact List.mem_cons_of_mem _ (List.mem_cons_of_mem _ hs)
          have hexec : numberExec args (.arithmetic op') st.pc m =
              some { m with pc := st.pc, stack := v :: vs } := by
            simp [numberExec, hm, hv]
          refine ⟨_, hexec, .inl ⟨by rw [produce_ok hop]; rfl, ?_⟩⟩
          refine h.mirrors.produce hop hvs hfresh hw rfl rfl hi ?_ h.ends
          rw [refEffect_of_ne hne]
          exact heff
        · have hhead := h.ends.head hi
          rw [refEffect_of_ne hne, hbail] at hhead
          cases hhead
  · cases hop

theorem Before.branch {i : IR.Instruction} {rest : List Nat} {vs : List Value} {target : Int}
    (h : Before info a fin st st' f env arguments n m fr r)
    (hcode : st'.instructions =
      st.instructions ++ spillStackToLocals info.localCount offset rest ++ [i])
    (hfix : st'.fixups = st.fixups ++
      [((st.instructions ++ spillStackToLocals info.localCount offset rest).length, target.toNat)])
    (htarget : 0 ≤ target ∧ target < info.bytecode.length)
    (hvs : List.Forall₂ Represents vs (rest.map fr.registers))
    (hle : vs.length ≤ m.stack.length) :
    ∃ k fr' u opened depth x, k ≤ n ∧ fr'.registers = fr.registers ∧
      f.instructions[(st.instructions ++
        spillStackToLocals info.localCount offset rest).length]? = some { i with target := x } ∧
      Ends env f arguments k fr' (st.instructions ++
        spillStackToLocals info.localCount offset rest).length (.returned r) ∧
      Arrives info ⟨target.toNat, vs, m.locals⟩ fr' ∧ (u.pc : Int) = target ∧ Rounds info a u fin ∧
      OpenedAt info a u opened depth ∧ opened.bytecodeToIR u.pc = some x := by
  have hbound := h.bound
  have hlen : rest.length = vs.length := by rw [hvs.length_eq, List.length_map]
  have hpre : st.instructions ++ spillStackToLocals info.localCount offset rest <+:
      fin.instructions := by
    refine List.IsPrefix.trans ?_ h.code
    rw [hcode]
    exact List.prefix_append _ _
  obtain ⟨k, fr', hk, he, hreg, hloc, hsp⟩ :=
    spills_run (by omega) (h.translation.placed hpre) h.ends
  have hmem : ((st.instructions ++ spillStackToLocals info.localCount offset rest).length,
      target.toNat) ∈ fin.fixups := by
    refine h.fixups.subset ?_
    rw [hfix]
    exact List.mem_append_right _ List.mem_cons_self
  have hget : fin.instructions[(st.instructions ++
      spillStackToLocals info.localCount offset rest).length]? = some i := by
    obtain ⟨tail, htail⟩ := h.code
    rw [← htail, hcode, List.append_assoc, List.getElem?_append_right (Nat.le_refl _),
      Nat.sub_self]
    rfl
  obtain ⟨x, u, opened, depth, hi, hrounds, hpc, hopened, hx⟩ :=
    h.translation.branch hmem hget (by omega)
  refine ⟨k, fr', u, opened, depth, x, hk, hreg, hi, ?_, ⟨⟨_, hsp, hvs⟩, ?_⟩, ?_, hrounds, hopened,
    hpc ▸ hx⟩
  · rw [List.length_append, spillStackToLocals_length]
    exact he
  · exact h.mirrors.locals.of_locals rfl hloc
  · rw [hpc]
    exact Int.toNat_of_nonneg htarget.1

theorem Before.goto {target : Int} (h : Before info a fin st st' f env arguments n m fr r)
    (hop : lowerBranch info st offset .goto target = .ok st') :
    Follows info a fin f env arguments args r n (.branch .goto target) st.pc m st' := by
  unfold lowerBranch at hop
  split at hop
  · cases hop
  · rename_i hin
    simp only at hop
    split at hop
    · cases hop
    · rw [Except.ok.injEq] at hop
      have hcode := congrArg Lowering.instructions hop
      have hfix := congrArg Lowering.fixups hop
      obtain ⟨k, fr', u, opened, depth, x, hk, -, hi, he, harr, hpc, hrounds, hopened, hx⟩ :=
        h.branch hcode.symm hfix.symm (by omega) h.mirrors.stack (Nat.le_refl _)
      have heff : refEffect env f arguments
          { opcode := .jump, bytecodeOffset := offset, target := x } fr' = .goto x fr' := by
        simp [refEffect, IR.effect]
      obtain ⟨k', hk', he'⟩ := he.of_goto hi heff
      have hexec : numberExec args (.branch .goto target) st.pc m =
          some ⟨target.toNat, m.stack, m.locals⟩ := by
        simp only [numberExec, takeBranch, if_true]
        rw [if_pos (by omega)]
      exact ⟨_, hexec, .inr ⟨k', fr', u, opened, depth, x, by simp only; omega, by rw [hpc]; rfl,
        hrounds, hopened, hx, by omega, harr, he'⟩⟩

def conditionalKind (sense : Bool) : BranchKind := if sense then .ifTrue else .ifFalse

def conditionalOpcode (sense : Bool) : IR.Opcode := if sense then .branchTrue else .branchFalse

theorem lowerBranch_conditional {sense : Bool} {target : Int}
    (hop : lowerBranch info st offset (conditionalKind sense) target = .ok st') :
    (0 ≤ target ∧ target < info.bytecode.length) ∧ ∃ top rest, st.stack = top :: rest ∧
      st' = { (st.emit (spillStackToLocals info.localCount offset rest)).emit
          [{ opcode := conditionalOpcode sense, left := top, bytecodeOffset := offset }] with
        stack := rest
        fixups := st.fixups ++ [((st.instructions ++
          spillStackToLocals info.localCount offset rest).length, target.toNat)] } := by
  unfold lowerBranch at hop
  split at hop
  · cases hop
  · refine ⟨by omega, ?_⟩
    cases hst : st.stack with
    | nil => cases sense <;> simp [hst, conditionalKind] at hop
    | cons top rest =>
      refine ⟨top, rest, rfl, ?_⟩
      cases sense
      · simp only [hst, conditionalKind, Bool.false_eq_true, if_false] at hop
        split at hop
        · cases hop
        · cases hop
          simp [Lowering.emit, conditionalOpcode]
      · simp only [hst, conditionalKind, if_true] at hop
        split at hop
        · cases hop
        · cases hop
          simp [Lowering.emit, conditionalOpcode]

theorem refEffect_conditional (sense : Bool) (top x : Nat) :
    refEffect env f arguments
      { opcode := conditionalOpcode sense, left := top, bytecodeOffset := offset, target := x } fr =
      if decide (fr.registers top ≠ 0) = sense then .goto x fr else .next fr := by
  cases sense <;> simp [refEffect, IR.effect, conditionalOpcode]

theorem numberExec_conditional {sense b : Bool} {v : Value} {vs : List Value} {target : Int}
    {next : Nat} (hm : m.stack = v :: vs) (hv : v.truthy = some b) :
    numberExec args (.branch (conditionalKind sense) target) next m =
      takeBranch m vs next target (b == sense) := by
  cases sense <;> cases b <;> simp [numberExec, conditionalKind, hm, hv]

theorem Before.conditional {target : Int} {sense : Bool}
    (h : Before info a fin st st' f env arguments n m fr r)
    (hop : lowerBranch info st offset (conditionalKind sense) target = .ok st') :
    Follows info a fin f env arguments args r n (.branch (conditionalKind sense) target) st.pc m
      st' := by
  obtain ⟨hin, top, rest, hst, rfl⟩ := lowerBranch_conditional hop
  have hstack := h.mirrors.stack
  rw [hst, List.map_cons] at hstack
  obtain ⟨v, vs, hv, hvs, hm⟩ := List.forall₂_cons_right_iff.mp hstack
  have hle : vs.length ≤ m.stack.length := by
    rw [hm]
    exact Nat.le_succ _
  obtain ⟨k, fr', u, opened, depth, x, hk, hreg, hi, he, harr, hpc, hrounds, hopened, hx⟩ :=
    h.branch rfl rfl hin hvs hle
  have heff : refEffect env f arguments
      { opcode := conditionalOpcode sense, left := top, bytecodeOffset := offset,
        target := x } fr' =
      if decide (fr'.registers top ≠ 0) = sense then .goto x fr' else .next fr' :=
    refEffect_conditional sense top x
  have hexec : ∀ next, numberExec args (.branch (conditionalKind sense) target) next m =
      takeBranch m vs next target (decide (fr'.registers top ≠ 0) == sense) := by
    intro next
    rw [hreg]
    exact numberExec_conditional hm hv.truthy
  by_cases htaken : decide (fr'.registers top ≠ 0) = sense
  · rw [if_pos htaken] at heff
    obtain ⟨k', hk', he'⟩ := he.of_goto hi heff
    refine ⟨⟨target.toNat, vs, m.locals⟩, ?_, .inr ⟨k', fr', u, opened, depth, x, ?_, ?_, hrounds,
      hopened, hx, by omega, ⟨harr.stack, harr.locals⟩, he'⟩⟩
    · rw [hexec, htaken]
      simp [takeBranch, hin.1]
    · simp only
      omega
    · rw [hpc]
      rfl
  · rw [if_neg htaken] at heff
    obtain ⟨k', hk', he'⟩ := he.of_next hi heff
    refine ⟨⟨st.pc, vs, m.locals⟩, ?_, .inl ⟨rfl, k', fr', by omega,
      ⟨h.mirrors.reachable, ?_, ?_, harr.locals⟩, ?_⟩⟩
    · rw [hexec, beq_eq_false_iff_ne.mpr htaken]
      rfl
    · simp only [hreg]
      exact hvs
    · intro s hs
      refine h.mirrors.fresh s ?_
      rw [hst]
      exact List.mem_cons_of_mem _ hs
    · have hpos : ((st.emit (spillStackToLocals info.localCount offset rest)).emit
          [{ opcode := conditionalOpcode sense, left := top,
             bytecodeOffset := offset }]).instructions.length =
          (st.instructions ++ spillStackToLocals info.localCount offset rest).length + 1 := by
        simp [Lowering.emit]
        omega
      simp only [hpos]
      exact he'

theorem Before.not_other (h : Before info a fin st st' f env arguments n m fr r)
    (hop : lowerHelper info st offset op = .ok st') : False := by
  unfold lowerHelper at hop
  split at hop
  · cases hop
  · rw [Except.ok.injEq] at hop
    have hcode := h.code
    rw [← hop] at hcode
    have hplaced := h.translation.placed hcode
    obtain ⟨t, hi⟩ := hplaced.head
    obtain ⟨k, -, he⟩ := h.ends.of_next hi (by simp [refEffect, IR.effect]; rfl)
    obtain ⟨t', hi'⟩ := hplaced.tail.head
    obtain ⟨k', -, he'⟩ := he.of_next hi' (by simp [refEffect, IR.effect]; rfl)
    obtain ⟨t'', hi''⟩ := hplaced.tail.tail.head
    have hhead := he'.head hi''
    simp [refEffect, IR.effect] at hhead

theorem Before.not_callable {reference : Word} {rest : List Nat} {v : Lowering}
    (h : Before info a fin st st' f env arguments n m fr r)
    (hprod : st.produce offset { opcode := .valueCallableConstant, immediate := reference } rest =
      .ok v) (hcode : v.instructions <+: fin.instructions) : False := by
  obtain ⟨t, hi⟩ := h.translation.produced hprod hcode
  have hhead := h.ends.head hi
  simp [refEffect, IR.effect] at hhead

theorem Before.ret (h : Before info a fin st st' f env arguments n m fr r)
    (hmode : info.numericMode = .int32)
    (hop : lowerOperation info st offset op .ret = .ok st') :
    ∃ v, m.stack.head? = some v ∧ Represents v r := by
  simp only [lowerOperation] at hop
  cases hst : st.stack with
  | nil => simp [hst] at hop
  | cons top rest =>
    simp only [hst, hmode, Except.ok.injEq] at hop
    have hstack := h.mirrors.stack
    rw [hst, List.map_cons] at hstack
    obtain ⟨v, vs, hv, -, hm⟩ := List.forall₂_cons_right_iff.mp hstack
    have hcode := h.code
    rw [← hop] at hcode
    obtain ⟨t, hi⟩ := (h.translation.placed hcode).head
    have hhead := h.ends.head hi
    simp only [refEffect, returnOpcode, IR.effect, reduceCtorEq, if_false,
      Ending.returned.injEq] at hhead
    refine ⟨v, by rw [hm]; rfl, ?_⟩
    rw [hhead]
    exact hv

theorem Before.operation {o : Operation} (h : Before info a fin st st' f env arguments n m fr r)
    (hmode : info.numericMode = .int32) (hargs : arguments = args.map (BitVec.ofInt 64))
    (hint : ∀ x ∈ args, IsInt32 x) (hcount : info.argumentCount ≤ args.length)
    (hpush : ∀ k, o = .pushI32 k → IsInt32 k) (hexact : o.Exact m)
    (hop : lowerOperation info st offset op o = .ok st') :
    (o = .ret ∧ ∃ v, m.stack.head? = some v ∧ Represents v r) ∨
      Follows info a fin f env arguments args r n o st.pc m st' := by
  cases o with
  | nop =>
    cases hop
    exact .inr ⟨{ m with pc := st.pc }, rfl, .inl ⟨rfl, n, fr, Nat.le_refl n,
      ⟨h.mirrors.reachable, h.mirrors.stack, h.mirrors.fresh, h.mirrors.locals⟩, h.ends⟩⟩
  | pushI32 k =>
    refine .inr (h.load hop (Represents.integer (hpush k rfl)) rfl ?_)
    intro target
    simp [refEffect, IR.effect]
  | getArg index => exact .inr (h.getArg hargs hint hcount hop)
  | getLoc index => exact .inr (h.getLoc hexact hop)
  | putLoc index =>
    refine .inr (h.store hop ?_)
    intro v vs hm
    simp [numberExec, hm]
  | setLoc index =>
    refine .inr (h.store hop ?_)
    intro v vs hm
    simp [numberExec, hm]
  | getField2 atom =>
    simp only [lowerOperation, lowerGetField2] at hop
    split at hop
    · cases hop
    · split at hop
      · cases hop
      · split at hop
        · cases hop
        · obtain ⟨v, hv, hop⟩ := bind_eq_ok.mp hop
          cases hop
          exact (h.not_callable hv h.code).elim
  | callableLoad kind index =>
    simp only [lowerOperation] at hop
    split at hop
    · cases hop
    · exact (h.not_callable hop h.code).elim
  | arithmetic op' =>
    refine .inr (h.arithmetic hmode ?_ hop)
    intro b a' vs hm
    simpa [Operation.Exact, hm] using hexact
  | branch kind target =>
    cases kind with
    | goto => exact .inr (h.goto hop)
    | ifTrue =>
      have hop' : lowerBranch info st offset (conditionalKind true) target = .ok st' := hop
      exact .inr (h.conditional hop')
    | ifFalse =>
      have hop' : lowerBranch info st offset (conditionalKind false) target = .ok st' := hop
      exact .inr (h.conditional hop')
  | callMethod argc tail => exact hexact.elim
  | call argc => exact hexact.elim
  | ret => exact .inl ⟨rfl, h.ret hmode hop⟩
  | other => exact (h.not_other hop).elim

end simulation

def Operation.pushed : Operation → Option Int
  | .pushI32 n => some n
  | _ => none

theorem operation_pushed (code : List UInt8) (offset op : Nat) :
    (operation code offset op).pushed =
      if op = 1 then some (signedAt code (offset + 1) 4) else none := by
  simp only [operation, apply_ite Operation.pushed]
  by_cases h : op = 1
  · simp [h, Operation.pushed]
  · simp [h, Operation.pushed]

theorem operation_pushI32 {code : List UInt8} {offset op : Nat} {k : Int}
    (h : operation code offset op = .pushI32 k) : IsInt32 k := by
  have hpushed := operation_pushed code offset op
  rw [h] at hpushed
  split at hpushed
  · rw [Option.some.inj hpushed]
    exact signedAt_bounds code (offset + 1)
  · cases hpushed

theorem numberExec_effect (op : Nat) {args : List Int} {o : Operation} {next : Nat}
    {m m' : NumberState}
    (h : numberExec args o next m = some m') :
    m'.stack.length = m.stack.length - (stackCounts op o).1 + (stackCounts op o).2 ∧
      (m'.pc = next ∧ o.fallsThrough = true ∨ o.target = some (m'.pc : Int)) := by
  have hbranch : ∀ (stack : List Value) (target : Int) (taken : Bool),
      takeBranch m stack next target taken = some m' →
      m'.stack = stack ∧ (m'.pc = next ∧ taken = false ∨ target = (m'.pc : Int)) := by
    intro stack target taken hb
    unfold takeBranch at hb
    split at hb
    · split at hb
      · rename_i hnn
        cases hb
        exact ⟨rfl, .inr (Int.toNat_of_nonneg hnn).symm⟩
      · cases hb
    · rename_i htaken
      cases hb
      exact ⟨rfl, .inl ⟨rfl, by simpa using htaken⟩⟩
  unfold numberExec at h
  split at h
  case h_8 =>
    obtain ⟨hs, hpc⟩ := hbranch _ _ _ h
    refine ⟨by rw [hs]; rfl, .inr ?_⟩
    rcases hpc with ⟨-, hno⟩ | hpc
    · cases hno
    · exact congrArg some hpc
  case h_9 target v st hst =>
    obtain ⟨b, -, hb⟩ := Option.bind_eq_some_iff.mp h
    obtain ⟨hs, hpc⟩ := hbranch _ _ _ hb
    refine ⟨by rw [hs, hst]; rfl, ?_⟩
    rcases hpc with ⟨hpc, -⟩ | hpc
    · exact .inl ⟨hpc, rfl⟩
    · exact .inr (congrArg some hpc)
  case h_10 target v st hst =>
    obtain ⟨b, -, hb⟩ := Option.bind_eq_some_iff.mp h
    obtain ⟨hs, hpc⟩ := hbranch _ _ _ hb
    refine ⟨by rw [hs, hst]; rfl, ?_⟩
    rcases hpc with ⟨hpc, -⟩ | hpc
    · exact .inl ⟨hpc, rfl⟩
    · exact .inr (congrArg some hpc)
  case h_7 b a st hst =>
    obtain ⟨v, -, hv⟩ := Option.bind_eq_some_iff.mp h
    cases hv
    exact ⟨by rw [hst]; rfl, .inl ⟨rfl, rfl⟩⟩
  case h_11 => cases h
  all_goals
    cases h
    refine ⟨?_, .inl ⟨rfl, rfl⟩⟩
    simp_all [stackCounts]

section run

variable {info : EngineBytecodeInfo} {a : Analysis} {fin : Lowering} {f : IR.Function} {env : Env}
  {arguments : List Word} {args : List Int} {n : Nat} {m m' : NumberState} {r : Word}

theorem Analyzed.step (ha : Analyzed info.bytecode a) {o : Operation} {next : Nat}
    (hd : a.depths m.pc = some m.stack.length)
    (ho : operationAt info.bytecode m.pc = some (o, next))
    (hexec : numberExec args o next m = some m') :
    (m'.pc < info.bytecode.length → a.depths m'.pc = some m'.stack.length) ∧
      (o.target = some (m'.pc : Int) → a.branchTargets m'.pc = true) := by
  obtain ⟨d, e, hlabel, heff, -, htargets, hsucc⟩ := ha.settled _ _ hd
  rw [hd, Option.some.injEq] at hlabel
  obtain ⟨op, o', he⟩ := engineStackEffect_ok heff
  have hfetched : operationAt info.bytecode m.pc = some (o', e.nextOffset) := by
    rw [operationAt, he.fetched, Option.map_some, he.operation]
  rw [ho, Option.some.injEq, Prod.mk.injEq] at hfetched
  obtain ⟨rfl, rfl⟩ := hfetched
  obtain ⟨hlen, hpc⟩ := numberExec_effect op hexec
  rw [he.counts, hlabel] at hlen
  have htarget : o.target = some (m'.pc : Int) → e.branchTarget = some m'.pc := by
    intro ht
    have := he.target
    rw [ht] at this
    cases hb : e.branchTarget with
    | none => simp [hb] at this
    | some t =>
      simp only [hb, Option.map_some, Option.some.injEq, Int.ofNat_eq_natCast] at this
      rw [Option.some.injEq]
      omega
  refine ⟨?_, fun ht => htargets _ (htarget ht)⟩
  intro hin
  rw [hlen]
  refine hsucc m'.pc ?_
  rw [StackEffect.successors, List.mem_append]
  rcases hpc with ⟨hnext, hfalls⟩ | ht
  · right
    rw [if_pos ⟨he.falls.trans hfalls, hnext ▸ hin⟩, hnext]
    exact List.mem_cons_self
  · left
    rw [htarget ht]
    exact List.mem_cons_self

inductive Linked (info : EngineBytecodeInfo) (a : Analysis) (fin : Lowering) (f : IR.Function)
    (env : Env) (arguments : List Word) (r : Word) (n : Nat) (m : NumberState) : Prop where
  | falls {st : Lowering} {fr : Frame} (hrounds : Rounds info a st fin) (hpc : m.pc = st.pc)
      (hd : m.pc < info.bytecode.length → a.depths m.pc = some m.stack.length)
      (hm : Mirrors info m st fr)
      (he : Ends env f arguments n fr st.instructions.length (.returned r))
  | arrives {st opened : Lowering} {depth x : Nat} {fr : Frame} (hrounds : Rounds info a st fin)
      (hpc : m.pc = st.pc) (hd : a.depths m.pc = some m.stack.length)
      (htarget : a.branchTargets m.pc = true) (hopened : OpenedAt info a st opened depth)
      (hx : opened.bytecodeToIR st.pc = some x) (hm : Arrives info m fr)
      (he : Ends env f arguments n fr x (.returned r))

theorem Linked.before (ht : Translation info a fin f)
    (h : Linked info a fin f env arguments r n m) :
    a.depths m.pc = some m.stack.length ∧ ∃ (opened st' : Lowering) (op next : Nat) (fr : Frame) (k : Nat), k ≤ n ∧
      fetch info.bytecode m.pc = some (op, next) ∧
      lowerOperation info { opened with pc := next, offset := m.pc } m.pc op
        (operation info.bytecode m.pc op) = .ok st' ∧
      Rounds info a st' fin ∧
      Before info a fin { opened with pc := next, offset := m.pc } st' f env arguments k m fr r := by
  have hround : ∀ st, Rounds info a st fin → m.pc = st.pc →
      a.depths m.pc = some m.stack.length → ∃ (opened st' : Lowering) (op next : Nat),
        OpenedAt info a st opened m.stack.length ∧
        fetch info.bytecode m.pc = some (op, next) ∧
        lowerOperation info { opened with pc := next, offset := m.pc } m.pc op
          (operation info.bytecode m.pc op) = .ok st' ∧
        Rounds info a st' fin ∧ opened.instructions <+: st'.instructions := by
    intro st hrounds hpc hd
    rw [hpc] at hd ⊢
    obtain ⟨-, e, -, heff, -⟩ := ht.analyzed.settled _ _ hd
    obtain ⟨op, o, he⟩ := engineStackEffect_ok heff
    have hin := fetch_eq_some he.fetched
    obtain ⟨st', hst', hrest⟩ := hrounds.next ht.done (by omega)
    rcases lowerOffset_ok hst' with ⟨hskip, -⟩ | ⟨depth, opened, op', next, hopened, hf, hop⟩
    · rw [hd] at hskip
      cases hskip
    · obtain rfl := Option.some.inj (hd.symm.trans hopened.labelled)
      exact ⟨opened, st', op', next, hopened, hf, hop, hrest,
        (Extends.lowerOperation hop).instructions⟩
  cases h with
  | @falls st fr hrounds hpc hd hm he =>
    by_cases hin : m.pc < info.bytecode.length
    · obtain ⟨opened, st', op, next, hopened, hf, hop, hrest, hsub⟩ := hround st hrounds hpc (hd hin)
      obtain ⟨hcode, hfix⟩ := hrest.prefixes
      obtain ⟨k, fr', hk, he', hm'⟩ := hm.opens ht hopened (hsub.trans hcode) rfl he
      refine ⟨hd hin, opened, st', op, next, fr', k, hk, hf, hop, hrest, ht, hcode, hfix,
        ⟨hm'.reachable, hm'.stack, hm'.fresh, hm'.locals⟩, ht.bound (hd hin), he'⟩
    · have hfin := hrounds.eq_of_done (by omega)
      have hinside := he.inside
      rw [hfin, ht.length] at hinside
      omega
  | @arrives st opened' depth x fr hrounds hpc hd htarget hopened' hx hm he =>
    obtain ⟨opened, st', op, next, hopened, hf, hop, hrest, hsub⟩ := hround st hrounds hpc hd
    obtain ⟨hcode, hfix⟩ := hrest.prefixes
    obtain rfl := Option.some.inj ((hpc ▸ hd).symm.trans hopened'.labelled)
    have hsame : opened' = opened := Except.ok.inj (hopened'.run.symm.trans hopened.run)
    have hentry : x = (st.instructions ++ spilledAt info st).length := by
      rcases openOffset_ok hopened'.run with ⟨hplain, -⟩ | ⟨-, -, heq⟩
      · rw [← hpc, htarget] at hplain
        cases hplain
      · rw [heq, openedTarget] at hx
        simpa using hx.symm
    rw [hentry] at he
    obtain ⟨k, fr', hk, he', hm'⟩ :=
      hm.opens ht hopened (hpc ▸ htarget) (hsub.trans hcode) rfl he
    exact ⟨hd, opened, st', op, next, fr', k, hk, hf, hop, hrest, ht, hcode, hfix,
      ⟨hm'.reachable, hm'.stack, hm'.fresh, hm'.locals⟩, ht.bound hd, he'⟩

theorem Linked.step (ht : Translation info a fin f) (hmode : info.numericMode = .int32)
    (hargs : arguments = args.map (BitVec.ofInt 64)) (hint : ∀ x ∈ args, IsInt32 x)
    (hcount : info.argumentCount ≤ args.length) (hexact : ExactAt info.bytecode m)
    (h : Linked info a fin f env arguments r n m) :
    (atReturn info.bytecode m = true ∧ ∃ v, m.stack.head? = some v ∧ Represents v r) ∨
    ∃ m' k, atReturn info.bytecode m = false ∧ numberStep info.bytecode args m = some m' ∧
      Linked info a fin f env arguments r k m' ∧
      (k < n ∨ k ≤ n ∧ m.pc < m'.pc ∧ m.pc < info.bytecode.length) := by
  obtain ⟨hd, opened, st', op, next, fr, k, hk, hf, hop, hrest, hbefore⟩ := h.before ht
  have hat : operationAt info.bytecode m.pc = some (operation info.bytecode m.pc op, next) := by
    rw [operationAt, hf]
    rfl
  obtain ⟨hlt, hle⟩ := fetch_eq_some hf
  rcases hbefore.operation hmode hargs hint hcount (fun _ => operation_pushI32) (hexact _ _ hat) hop
    with ⟨hret, hv⟩ | ⟨m', hexec, hgo⟩
  · refine .inl ⟨?_, hv⟩
    simp [atReturn, hat, hret]
  · right
    have hnot : atReturn info.bytecode m = false := by
      rw [atReturn, hat, Option.any_some, decide_eq_false_iff_not]
      intro hret
      simp only at hret
      rw [hret] at hexec
      simp [numberExec] at hexec
    have hstep : numberStep info.bytecode args m = some m' := by
      rw [numberStep, hat]
      exact hexec
    obtain ⟨hdepth, htargets⟩ := ht.analyzed.step hd hat hexec
    rcases hgo with ⟨hpc, k', fr', hk', hm', he'⟩ |
      ⟨k', fr', u, opened', depth, x, hpc, htgt, hu, hopened, hx, hk', harr, he'⟩
    · refine ⟨m', k', hnot, hstep, .falls hrest hpc hdepth hm' he', ?_⟩
      refine .inr ⟨by omega, ?_, by omega⟩
      rw [hpc]
      rcases (Extends.lowerOperation hop).pc with h' | h'
      · rw [h']
        exact hlt
      · rw [h']
        omega
    · have hlabel : a.depths m'.pc = some m'.stack.length := by
        refine hdepth ?_
        obtain ⟨-, e, -, heff, -⟩ := ht.analyzed.settled _ _ hopened.labelled
        obtain ⟨op', o', he⟩ := engineStackEffect_ok heff
        have := fetch_eq_some he.fetched
        omega
      refine ⟨m', k', hnot, hstep, .arrives hu hpc hlabel ?_ hopened hx harr he', .inl (by omega)⟩
      exact htargets (hpc ▸ htgt)

theorem Linked.returns (ht : Translation info a fin f) (hmode : info.numericMode = .int32)
    (hargs : arguments = args.map (BitVec.ofInt 64)) (hint : ∀ x ∈ args, IsInt32 x)
    (hcount : info.argumentCount ≤ args.length)
    (hexact : ∀ s, NumberRuns info.bytecode args s → ExactAt info.bytecode s)
    (hruns : NumberRuns info.bytecode args m) (h : Linked info a fin f env arguments r n m) :
    ∃ v, NumberReturns info.bytecode args v ∧ Represents v r := by
  -- The steps of the IR that are left come first, then the code that is left.
  induction hμ : n * (info.bytecode.length + 1) + (info.bytecode.length - m.pc)
    using Nat.strong_induction_on generalizing n m with
  | h μ ih =>
    rcases h.step ht hmode hargs hint hcount (hexact m hruns) with
      ⟨hret, v, hv, hrep⟩ | ⟨m', k, hnot, hstep, hlinked, hmeasure⟩
    · exact ⟨v, ⟨m, hruns, hret, hv⟩, hrep⟩
    · have hruns' : NumberRuns info.bytecode args m' := Runs.trans hruns (.one hnot hstep)
      refine ih _ ?_ hruns' hlinked rfl
      rw [← hμ]
      rcases hmeasure with hlt | ⟨hle, hpc, hin⟩
      · have : (k + 1) * (info.bytecode.length + 1) ≤ n * (info.bytecode.length + 1) :=
          Nat.mul_le_mul_right _ hlt
        rw [Nat.add_mul] at this
        omega
      · have : k * (info.bytecode.length + 1) ≤ n * (info.bytecode.length + 1) :=
          Nat.mul_le_mul_right _ hle
        omega

end run

/-- The translation preserves meaning in int32 mode along every run of the bytecode that reads
no local before it is written, has exact results and makes no calls: a result of the IR is the
value that the bytecode returns. -/
theorem lowering_preserves_returns {info : EngineBytecodeInfo} {f : IR.Function} {env : Env}
    {args : List Int} {r : Word} (hf : engineBytecodeToIR info = .ok f)
    (hmode : info.numericMode = .int32) (hint : ∀ x ∈ args, IsInt32 x)
    (hr : IR.irExecute env f (args.map (BitVec.ofInt 64)) = .ok r)
    (hexact : ∀ s, NumberRuns info.bytecode args s → ExactAt info.bytecode s) :
    ∃ v, NumberReturns info.bytecode args v ∧ Represents v r := by
  obtain ⟨a, fin, ht⟩ := engineBytecodeToIR_ok hf
  obtain ⟨n, he⟩ := IR.ends_of_irExecute hr
  have hcount : info.argumentCount ≤ args.length := by
    unfold IR.irExecute at hr
    split at hr
    · cases hr
    · rename_i hlen
      rw [List.length_map, ht.arguments] at hlen
      omega
  have hm : Mirrors info .start .start .zero :=
    ⟨rfl, .nil, by simp [Lowering.start], fun _ _ => .inl rfl⟩
  have hlinked : Linked info a fin f env (args.map (BitVec.ofInt 64)) r n .start :=
    .falls ht.rounds rfl (fun _ => ht.analyzed.zero) hm he
  exact hlinked.returns ht hmode rfl hint hcount hexact (.refl _)

def integerOnly : Env where
  addF64 _ _ := 0
  subF64 _ _ := 0
  mulF64 _ _ := 0
  divF64 _ _ := 0
  lessThanF64 _ _ := false
  lessEqualF64 _ _ := false
  equalF64 _ _ := false
  i64ToF64 _ := 0
  f64ToI64 _ := 0
  arity _ := 0
  native _ _ := none

/-- `get_arg0; get_arg1;` one operator; `return`. -/
def operatorOnArguments (op : UInt8) : EngineBytecodeInfo where
  bytecode := [216, 217, op, 40]
  localCount := 0
  stackSize := 2
  argumentCount := 2
  numericMode := .int32
  callResolver := none
  callableResolver := none
  methodPropertyResolver := none

theorem operatorOnArguments_add_exact (s : NumberState) :
    ExactAt (operatorOnArguments 157).bytecode s := by
  intro o next h
  have hin : s.pc < 4 := by
    obtain ⟨p, hp, -⟩ := Option.map_eq_some_iff.mp h
    have hle : p.2 ≤ 4 := (fetch_eq_some hp).2
    have hlt := (fetch_eq_some hp).1
    omega
  have hops : ∀ k < 4, ∀ o', (operationAt (operatorOnArguments 157).bytecode k).map (·.1) = some o' →
      o' = .getArg 0 ∨ o' = .getArg 1 ∨ o' = .arithmetic .add ∨ o' = .ret := by
    have hall : ∀ k < 4, (operationAt (operatorOnArguments 157).bytecode k).map (·.1) ∈
        [some (.getArg 0), some (.getArg 1), some (.arithmetic .add), some .ret] := by
      decide +kernel
    intro k hk o' ho'
    have hmem := hall k hk
    rw [ho'] at hmem
    simpa using hmem
  rcases hops s.pc hin o (by rw [h]; rfl) with rfl | rfl | rfl | rfl
  · trivial
  · trivial
  · cases hs : s.stack with
    | nil => simp [Operation.Exact, hs]
    | cons b rest => cases rest <;> simp [Operation.Exact, hs, Arithmetic.Exact]
  · trivial

/-- The sum of 3 and 4 by the translation is the sum by the bytecode. -/
theorem sum_is_preserved : ∃ f, engineBytecodeToIR (operatorOnArguments 157) = .ok f ∧
    IR.irExecute integerOnly f ([3, 4].map (BitVec.ofInt 64)) = .ok 7 ∧
    ∃ v, NumberReturns (operatorOnArguments 157).bytecode [3, 4] v ∧ Represents v 7 := by
  obtain ⟨f, hf⟩ : ∃ f, (engineBytecodeToIR (operatorOnArguments 157)).toOption = some f :=
    Option.isSome_iff_exists.mp (by decide +kernel)
  have hr : ((engineBytecodeToIR (operatorOnArguments 157)).toOption.map fun f =>
      IR.irExecute integerOnly f ([3, 4].map (BitVec.ofInt 64))) = some (.ok 7) := by
    decide +kernel
  rw [hf, Option.map_some, Option.some.injEq] at hr
  exact ⟨f, ok_of_toOption hf, hr, lowering_preserves_returns (ok_of_toOption hf) rfl (by decide) hr
    fun s _ => operatorOnArguments_add_exact s⟩

/-- The quotient of 7 and 2 is 3 in the IR, and no integer in the bytecode. -/
theorem quotient_is_truncated : ¬ ∀ (info : EngineBytecodeInfo) (f : IR.Function) (env : Env)
    (args : List Int) (r : Word), engineBytecodeToIR info = .ok f → info.numericMode = .int32 →
    (∀ x ∈ args, IsInt32 x) → IR.irExecute env f (args.map (BitVec.ofInt 64)) = .ok r →
    ∃ v, NumberReturns info.bytecode args v ∧ Represents v r := by
  intro hclaim
  obtain ⟨f, hf⟩ : ∃ f, (engineBytecodeToIR (operatorOnArguments 155)).toOption = some f :=
    Option.isSome_iff_exists.mp (by decide +kernel)
  have hr : ((engineBytecodeToIR (operatorOnArguments 155)).toOption.map fun f =>
      IR.irExecute integerOnly f ([7, 2].map (BitVec.ofInt 64))) = some (.ok 3) := by
    decide +kernel
  rw [hf, Option.map_some, Option.some.injEq] at hr
  obtain ⟨v, ⟨s, hruns, hret, hv⟩, hrep, -⟩ :=
    hclaim (operatorOnArguments 155) f integerOnly [7, 2] 3 (ok_of_toOption hf) rfl (by decide) hr
  have hadvance := advance_runs (numberStep (operatorOnArguments 155).bytecode [7, 2])
    (fun s => !atReturn (operatorOnArguments 155).bytecode s) 3 .start
  have hsame := Runs.exit_unique hruns (hadvance.mono fun s hs => by simpa using hs)
    (by simp [hret]) (by decide +kernel)
  have hhead : (advance (numberStep (operatorOnArguments 155).bytecode [7, 2])
      (fun s => !atReturn (operatorOnArguments 155).bytecode s) 3 .start).stack.head? =
      some .inexact := by
    decide +kernel
  rw [hsame, hhead] at hv
  cases hv
  cases hrep

end TurboJS.Frontend
