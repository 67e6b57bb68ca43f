import TurboJS.Bytecode.Calls
import TurboJS.Leaf.MathImul

namespace TurboJS.Leaf
open Bytecode Foundation

/-! What the bytecode of a leaf computes, and that its plan computes the same. Numbers are integers;
a zero has no sign, since the instructions of these plans cannot tell. -/

/-- What the code of a leaf asks from its surroundings: the globals, and the calls of `Math.imul` on
numbers. -/
def World.ops (w : World) : CallOps Unit where
  toHeapOps := { noHeap with
    getVar := fun _ atom => w.global atom
    getField := fun _ v atom => w.get v atom }
  call := fun _ f _ args =>
    match f, args with
    | .object o, [.number m, .number n] =>
      if w.isImul o then some (ofBits (toBits m * toBits n), ()) else none
    | _, _ => none
  arrayFrom := fun _ _ => none
  thisFunction := .undefined

def execUnsigned (w : World) (cpool : List JSValue) (i : FunctionInsn) (s : State Unit)
    (next : Nat) : Option (State Unit) :=
  match i, s.stack with
  | .base (.plain .mul), .number n :: .number m :: st =>
    some { s with pc := next, stack := .number (m * n) :: st }
  | .base (.plain .neg), .number n :: st =>
    some { s with pc := next, stack := .number (-n) :: st }
  | i, _ => execFunction w.ops cpool i s next

def stepUnsigned (w : World) (b : FunctionBytecode) (s : State Unit) : Option (State Unit) := do
  let (i, next) ← decodeFunction b.code s.pc
  execUnsigned w b.cpool i s next

def enterLeaf (args : List JSValue) : State Unit where
  pc := 0
  stack := []
  slots := fun slot =>
    match slot.kind with
    | .argument => args[slot.index]?.getD .undefined
    | .local | .varRef => .undefined
  heap := ()

/-- A call by interpretation. The code of a leaf is run at most once, and has no more instructions
than bytes. -/
def LeafFunction.interpret (f : LeafFunction) (w : World) (args : List JSValue) : Option JSValue :=
  returned f.toFunctionBytecode
    (advance (stepUnsigned w f.toFunctionBytecode) (fun _ => true) f.code.length (enterLeaf args))

def World.LooksUpImul (w : World) (mathAtom imulAtom : Nat) : Prop :=
  ∃ math f, w.global mathAtom = some math ∧ w.get math imulAtom = some (.object f) ∧
    w.isImul f = true

def arithmeticOpcodes : List Opcode :=
  [.arg, .constant, .add, .sub, .mul, .neg, .xor, .or, .and, .imul]

def Arithmetic (args : Nat → Option ℤ) (is : List Instruction) : Prop :=
  ∀ i ∈ is, i.opcode ∈ arithmeticOpcodes ∧ (i.opcode = .arg → (args i.argument).isSome = true)

section

variable {args : Nat → Option ℤ} {is js : List Instruction} {i : Instruction}

theorem Arithmetic.left (h : Arithmetic args (is ++ js)) : Arithmetic args is :=
  fun i hi => h i (List.mem_append_left js hi)

theorem Arithmetic.last (h : Arithmetic args (is ++ [i])) :
    i.opcode ∈ arithmeticOpcodes ∧ (i.opcode = .arg → (args i.argument).isSome = true) :=
  h i (List.mem_append_right is (List.mem_singleton_self i))

theorem Building.Change.arithmetic {realm : Realm} {s t : Building} (hc : Change realm s t)
    (h : Arithmetic args t.plan.instructions) : Arithmetic args s.plan.instructions := by
  cases hc with
  | appended i instructions kind int32 guard pending imul =>
    rw [instructions] at h
    exact h.left
  | property last atom found arg same =>
    subst same
    have hlast := h.last
    simp [arithmeticOpcodes] at hlast
  | noted instructions kind int32 guard pending =>
    rwa [instructions] at h
  | recorded g instructions kind int32 guard math imul found =>
    rwa [instructions] at h

theorem Building.Change.guard_isSome {realm : Realm} {s t : Building} (hc : Change realm s t)
    (h : s.plan.guard.isSome = true) : t.plan.guard.isSome = true := by
  cases hc with
  | appended i instructions kind int32 guard pending imul => rwa [guard]
  | property last atom found arg same =>
    subst same
    exact h
  | noted instructions kind int32 guard pending => rwa [guard]
  | recorded g instructions kind int32 guard math imul found => rw [guard]; rfl

theorem Plan.recognise_summarise (plan : Plan) (n : Nat) :
    (plan.summarise.recognise n).instructions = plan.instructions ∧
      (plan.summarise.recognise n).guard = plan.guard := by
  have hsum : plan.summarise.instructions = plan.instructions ∧
      plan.summarise.guard = plan.guard := by
    unfold Plan.summarise
    split <;> exact ⟨rfl, rfl⟩
  rcases recognise_eq plan.summarise n with he | ⟨steps, -, -, -, he⟩
  · rwa [he]
  · rw [he]
    exact hsum

theorem Building.return_arithmetic {f : LeafFunction} {offset next : Nat} {s : Building}
    {plan : Plan} (h : s.return f offset next = some (.finished plan))
    (ha : Arithmetic args plan.instructions) :
    s.depth = 1 ∧ plan.instructions = s.plan.instructions ∧ plan.guard = s.plan.guard := by
  unfold Building.return at h
  split at h
  · cases h
  · rename_i hdepth
    rw [not_not] at hdepth
    split at h
    · cases h
    · split at h
      · -- Code with jumps ends in a return, which is no arithmetic.
        simp only [Option.bind_eq_bind, Option.bind_eq_some_iff] at h
        obtain ⟨t, ht, h⟩ := h
        split at h
        · cases h
        · obtain ⟨resolved, hresolved, he⟩ := Option.bind_eq_some_iff.mp h
          cases he
          have hreturn : ∃ i ∈ t.plan.instructions, i.opcode = .return := by
            rw [Building.emit_eq ht]
            exact ⟨.at offset .return 0 0, List.mem_append_right _ (List.mem_singleton_self _), rfl⟩
          obtain ⟨j, hj, hop⟩ := exists_opcode (resolved_opcodes hresolved).symm hreturn
          have hmem := (ha j hj).1
          rw [hop] at hmem
          simp [arithmeticOpcodes] at hmem
      · cases h
        exact ⟨hdepth, Plan.recognise_summarise s.plan f.closureVarCount⟩

end

/-- A stack of the interpreter, and its numbers; every other value is of a lookup of `Math.imul`
that waits for its call. -/
inductive Rendered (w : World) : List JSValue → List ℤ → Prop where
  | nil : Rendered w [] []
  | number {st : List JSValue} {ns : List ℤ} (n : ℤ) (rest : Rendered w st ns) :
      Rendered w (.number n :: st) (n :: ns)
  | lookup {st : List JSValue} {ns : List ℤ} (math : JSValue) (f : Nat) (hf : w.isImul f = true)
      (rest : Rendered w st ns) : Rendered w (.object f :: math :: st) ns

structure Simulates (w : World) (args : Nat → Option ℤ) (cells : Nat → ℤ) (s : Building)
    (offset : Nat) (t : State Unit) : Prop where
  pc : t.pc = offset
  arguments : ∀ k v, args k = some v → t.slots ⟨.argument, k⟩ = .number v
  stack : ∃ ns, Rendered w t.stack ns ∧ s.depth = ns.length ∧
    exactRun args s.plan.instructions ⟨[], cells⟩ = some ⟨ns, cells⟩

theorem exactRun_concat (args : Nat → Option ℤ) (is : List Instruction) (i : Instruction)
    (s : ExactState) : exactRun args (is ++ [i]) s = (exactRun args is s).bind (exactStep args i) := by
  induction is generalizing s with
  | nil =>
    rw [List.nil_append, exactRun, exactRun, Option.bind_some]
    cases exactStep args i s <;> rfl
  | cons j is ih =>
    rw [List.cons_append, exactRun, exactRun, Option.bind_assoc]
    congr 1
    funext t
    exact ih t

section

variable {w : World} {args : Nat → Option ℤ} {cells : Nat → ℤ} {realm : Realm}
  {f : LeafFunction} {s s' : Building} {t : State Unit} {offset next pops pushes : Nat}

theorem returned_advance {b : FunctionBytecode} {i : Insn} {n : Nat} {v : JSValue}
    (hd : decode b.code t.pc = some (i, next)) (hi : i ≠ .plain .return)
    (h : returned b (advance (stepUnsigned w b) (fun _ => true) n t) = some v) :
    ∃ m t', execUnsigned w b.cpool (.base i) t next = some t' ∧
      returned b (advance (stepUnsigned w b) (fun _ => true) m t') = some v := by
  have hstuck : returned b t = none := by
    unfold returned
    rw [hd]
    split
    · rename_i heq _
      cases heq
      exact absurd rfl hi
    · rfl
  cases n with
  | zero =>
    rw [advance, hstuck] at h
    cases h
  | succ m =>
    rw [advance, if_pos rfl, stepUnsigned, decodeFunction_base hd] at h
    simp only [Option.bind_eq_bind, Option.bind_some] at h
    cases he : execUnsigned w b.cpool (.base i) t next with
    | none =>
      rw [he] at h
      simp only [hstuck, reduceCtorEq] at h
    | some t' =>
      rw [he] at h
      exact ⟨m, t', rfl, h⟩

theorem simulates_emit {i : Instruction} {ns ns' : List ℤ} {st : List JSValue}
    {slots : Slot → JSValue} (he : s.emit i pops pushes = some s') (hdepth : s.depth = ns.length)
    (hrun : exactRun args s.plan.instructions ⟨[], cells⟩ = some ⟨ns, cells⟩)
    (hstep : exactStep args i ⟨ns, cells⟩ = some ⟨ns', cells⟩)
    (hlen : ns.length - pops + pushes = ns'.length)
    (harguments : ∀ k v, args k = some v → slots ⟨.argument, k⟩ = .number v)
    (hrendered : Rendered w st ns') :
    Simulates w args cells s' next ⟨next, st, slots, ()⟩ := by
  rw [Building.emit_eq he]
  refine ⟨rfl, harguments, ns', hrendered, ?_, ?_⟩
  · rw [← hlen, ← hdepth]
  · simp only
    rw [exactRun_concat, hrun, Option.bind_some, hstep]

theorem emit_arithmetic {i : Instruction} (he : s.emit i pops pushes = some s')
    (ha : Arithmetic args s'.plan.instructions) :
    i.opcode ∈ arithmeticOpcodes ∧ (i.opcode = .arg → (args i.argument).isSome = true) := by
  rw [Building.emit_eq he] at ha
  exact ha.last

theorem emitJump_arithmetic {opcode : Opcode} {target : ℤ}
    (he : s.emitJump f offset opcode target pops = some s')
    (ha : Arithmetic args s'.plan.instructions) : opcode ∈ arithmeticOpcodes := by
  unfold Building.emitJump at he
  split at he
  · cases he
  · obtain ⟨u, hu, he⟩ := Option.map_eq_some_iff.mp he
    cases he
    exact (emit_arithmetic hu ha).1

theorem emitGetField_arithmetic {atom : Nat} (he : s.emitGetField offset atom = some s')
    (ha : Arithmetic args s'.plan.instructions) : False := by
  unfold Building.emitGetField at he
  split at he
  · cases he
  · split at he
    · cases he
    · split at he
      · cases he
        have hlast := ha.last
        simp [arithmeticOpcodes] at hlast
      · rw [Building.append_eq he] at ha
        have hlast := ha.last
        simp [arithmeticOpcodes, Instruction.at] at hlast

theorem binaryOpcode_arithmetic {op : Plain} {opcode : Opcode} {extended int32 : Bool}
    (ho : binaryOpcode op = some (opcode, extended, int32)) (hop : opcode ∈ arithmeticOpcodes) :
    op ∈ [Plain.add, .sub, .mul, .xor, .or, .and] := by
  cases op <;> cases ho <;> first | (simp; done) | simp [arithmeticOpcodes] at hop

theorem binary_object {op : Plain} (heq : op ≠ .strictEq) (hneq : op ≠ .strictNeq) (v : JSValue)
    (o : Nat) : binary op v (.object o) = none := by
  unfold binary
  split
  · contradiction
  · contradiction
  · rename_i h
    cases h
  · simp [toNumber]

theorem slotRead_arithmetic {slot : Slot} {form : Form} {opcode : Opcode}
    (h : slotRead f slot form = some opcode) (hop : opcode ∈ arithmeticOpcodes) :
    slot.kind = .argument ∧ opcode = .arg := by
  obtain ⟨kind, index⟩ := slot
  unfold slotRead at h
  cases kind
  case argument =>
    cases form
    case long =>
      dsimp only at h
      split at h
      · cases h
        exact ⟨rfl, rfl⟩
      · cases h
    case short =>
      cases h
      exact ⟨rfl, rfl⟩
    all_goals cases h
  case varRef =>
    have hclosure : opcode = .closure := by
      cases form
      case byte => cases h
      all_goals
        dsimp only at h
        split at h
        · exact (Option.some.inj h).symm
        · cases h
    simp [hclosure, arithmeticOpcodes] at hop
  case «local» =>
    have hlocal : opcode = .local := by
      dsimp only at h
      split at h
      · exact (Option.some.inj h).symm
      · cases h
    simp [hlocal, arithmeticOpcodes] at hop

theorem slotWrite_arithmetic {slot : Slot} {form : Form} {keep : Bool} {opcode : Opcode}
    (h : slotWrite f slot form keep = some opcode) : opcode ∉ arithmeticOpcodes := by
  unfold slotWrite at h
  cases keep
  all_goals
    split at h
    all_goals first | cases h | (split at h <;> cases h; simp [arithmeticOpcodes])

theorem execUnsigned_binary {op : Plain} {opcode : Opcode} {extended int32 : Bool}
    {cpool st : List JSValue} {ns : List ℤ} {slots : Slot → JSValue} {pc : Nat}
    (ho : binaryOpcode op = some (opcode, extended, int32)) (hop : opcode ∈ arithmeticOpcodes)
    (hst : Rendered w st ns)
    (he : execUnsigned w cpool (.base (.plain op)) ⟨pc, st, slots, ()⟩ next = some t) :
    ∃ x y rest ns' v, ns = y :: x :: ns' ∧ exactBinary opcode x y = some v ∧
      t = ⟨next, .number v :: rest, slots, ()⟩ ∧ Rendered w rest ns' := by
  have hops := binaryOpcode_arithmetic ho hop
  simp only [List.mem_cons, List.not_mem_nil, or_false] at hops
  have hobject : ∀ v o, binary op v (.object o) = none := by
    intro v o
    rcases hops with rfl | rfl | rfl | rfl | rfl | rfl <;>
      exact binary_object (by decide) (by decide) v o
  cases hst with
  | nil =>
    rcases hops with rfl | rfl | rfl | rfl | rfl | rfl <;> cases he
  | @lookup rest ns math f hf hrest =>
    have he : (binary op math (.object f)).bind
        (fun v => some ⟨next, v :: rest, slots, ()⟩) = some t := by
      rcases hops with rfl | rfl | rfl | rfl | rfl | rfl <;> exact he
    rw [hobject] at he
    cases he
  | number y rest =>
    cases rest with
    | nil =>
      rcases hops with rfl | rfl | rfl | rfl | rfl | rfl <;> cases he
    | lookup math f hf rest =>
      rcases hops with rfl | rfl | rfl | rfl | rfl | rfl <;> cases he
    | number x rest =>
      rcases hops with rfl | rfl | rfl | rfl | rfl | rfl <;> cases ho <;> cases he <;>
        exact ⟨x, y, _, _, _, rfl, rfl, rfl, rest⟩

theorem World.ops_call {g this : JSValue} {vs : List JSValue} {r : JSValue × Unit}
    (h : w.ops.call () g this vs = some r) :
    ∃ o m n, g = .object o ∧ vs = [.number m, .number n] ∧ r = (ofBits (toBits m * toBits n), ()) := by
  simp only [World.ops] at h
  split at h
  · rename_i o m n
    split at h
    · cases h
      exact ⟨o, m, n, rfl, rfl, rfl⟩
    · cases h
  · cases h

theorem execUnsigned_call {cpool st : List JSValue} {ns : List ℤ} {slots : Slot → JSValue}
    {pc : Nat} (hst : Rendered w st ns)
    (he : execUnsigned w cpool (.base (.callMethod 2)) ⟨pc, st, slots, ()⟩ next = some t) :
    ∃ x y rest ns', ns = y :: x :: ns' ∧
      t = ⟨next, ofBits (toBits x * toBits y) :: rest, slots, ()⟩ ∧ Rendered w rest ns' := by
  obtain ⟨a, b, c, d, rest, rfl⟩ : ∃ a b c d rest, st = a :: b :: c :: d :: rest := by
    rcases st with _ | ⟨a, _ | ⟨b, _ | ⟨c, _ | ⟨d, rest⟩⟩⟩⟩
    · cases he
    · cases he
    · cases he
    · cases he
    · exact ⟨a, b, c, d, rest, rfl⟩
  have hcall : (w.ops.call () c d [b, a]).bind
      (fun r => some ⟨next, r.1 :: rest, slots, r.2⟩) = some t := he
  obtain ⟨r, hr, ht⟩ := Option.bind_eq_some_iff.mp hcall
  obtain ⟨o, x, y, rfl, hargs, rfl⟩ := World.ops_call hr
  cases hargs
  cases ht
  cases hst with
  | number y hst =>
    cases hst with
    | number x hst =>
      cases hst with
      | lookup math f hf hst => exact ⟨x, y, rest, _, rfl, rfl, hst⟩

/-- One instruction of the code, on both sides. -/
theorem insn_simulates {i : Insn} {q n : Nat} {v : JSValue}
    (hd : decode f.code offset = some (i, next)) (hi : i ≠ .plain .return)
    (hinsn : s.insn realm f offset i next = some (s', q))
    (ha : Arithmetic args s'.plan.instructions)
    (hl : s'.plan.guard.isSome = true → ∀ mathAtom imulAtom, realm.named mathAtom "Math" = true →
      realm.named imulAtom "imul" = true → w.LooksUpImul mathAtom imulAtom)
    (hs : Simulates w args cells s offset t)
    (hr : returned f.toFunctionBytecode
      (advance (stepUnsigned w f.toFunctionBytecode) (fun _ => true) n t) = some v) :
    ∃ m t', Simulates w args cells s' q t' ∧ returned f.toFunctionBytecode
      (advance (stepUnsigned w f.toFunctionBytecode) (fun _ => true) m t') = some v := by
  obtain ⟨pc, st, slots, heap⟩ := t
  obtain ⟨hpc, harguments, ns, hst, hdepth, hrun⟩ := hs
  cases hpc
  obtain ⟨m, t', he, hr⟩ := returned_advance hd hi hr
  have hmap : ∀ {o : Option Building} {r : Nat}, o.map (·, r) = some (s', q) → o = some s' ∧ r = q := by
    intro o r ho
    obtain ⟨u, hu, hp⟩ := Option.map_eq_some_iff.mp ho
    cases hp
    exact ⟨hu, rfl⟩
  have hnot : ∀ {opcode : Opcode} {k : Nat} {c : ℤ} {u : Building} {pops pushes : Nat},
      u.emit (.at pc opcode k c) pops pushes = some s' → opcode ∈ arithmeticOpcodes :=
    fun hemit => (emit_arithmetic hemit ha).1
  have hdone : Simulates w args cells s' q t' → ∃ m t', Simulates w args cells s' q t' ∧
      returned f.toFunctionBytecode
        (advance (stepUnsigned w f.toFunctionBytecode) (fun _ => true) m t') = some v :=
    fun h => ⟨m, t', h, hr⟩
  unfold Building.insn at hinsn
  split at hinsn
  case h_1 =>
    cases hinsn
    cases he
    exact hdone ⟨rfl, harguments, ns, hst, hdepth, hrun⟩
  case h_2 =>
    split at hinsn
    · cases hinsn
    · have hop := hnot (hmap hinsn).1
      simp [arithmeticOpcodes] at hop
  case h_3 =>
    have hop := hnot (hmap hinsn).1
    simp [arithmeticOpcodes] at hop
  case h_4 slot form =>
    obtain ⟨opcode, ho, hinsn⟩ := Option.bind_eq_some_iff.mp hinsn
    obtain ⟨hemit, rfl⟩ := hmap hinsn
    obtain ⟨hop, harg⟩ := emit_arithmetic hemit ha
    obtain ⟨kind, index⟩ := slot
    obtain ⟨hkind, rfl⟩ := slotRead_arithmetic ho hop
    dsimp only at hkind
    subst hkind
    obtain ⟨x, hx⟩ := Option.isSome_iff_exists.mp (harg rfl)
    have hvalue : slots ⟨.argument, index⟩ = .number x := harguments index x hx
    simp only [execUnsigned, execFunction_get] at he
    rw [if_neg (by simp [hvalue]), hvalue] at he
    cases he
    rw [Building.forSlot, if_neg (by simp)] at hemit
    have hstep : exactStep args (.at pc .arg index 0) ⟨ns, cells⟩ = some ⟨x :: ns, cells⟩ := by
      simp only [exactStep, Instruction.at, Option.map_eq_some_iff]
      exact ⟨x, hx, rfl⟩
    exact hdone (simulates_emit hemit hdepth hrun hstep (by simp) harguments (.number x hst))
  case h_5 slot form =>
    obtain ⟨opcode, ho, hinsn⟩ := Option.bind_eq_some_iff.mp hinsn
    exact (slotWrite_arithmetic ho (hnot (hmap hinsn).1)).elim
  case h_6 slot form =>
    obtain ⟨opcode, ho, hinsn⟩ := Option.bind_eq_some_iff.mp hinsn
    exact (slotWrite_arithmetic ho (hnot (hmap hinsn).1)).elim
  case h_7 index =>
    split at hinsn
    · cases hinsn
    · cases hinsn
      cases he
      refine hdone ⟨rfl, ?_, ns, hst, hdepth, hrun⟩
      intro k x hk
      simp only [State.setSlot]
      rw [Function.update_of_ne (by simp)]
      exact harguments k x hk
  case h_8 mathAtom =>
    split at hinsn
    · rename_i imulAtom after hmath hget
      split at hinsn
      · rename_i himul
        obtain ⟨guard, -, hp⟩ := Option.map_eq_some_iff.mp hinsn
        cases hp
        obtain ⟨math, o, hglobal, hfield, ho⟩ := hl rfl mathAtom imulAtom hmath himul
        have hvar : (w.global mathAtom).bind
            (fun v => some ⟨next, v :: st, slots, ()⟩) = some t' := he
        rw [hglobal] at hvar
        cases hvar
        obtain ⟨m', t'', he', hr'⟩ := returned_advance (t := ⟨next, math :: st, slots, ()⟩) hget
          (fun h => by cases h) hr
        have hmethod : (w.get math imulAtom).bind
            (fun v => some ⟨q, v :: math :: st, slots, ()⟩) = some t'' := he'
        rw [hfield] at hmethod
        cases hmethod
        exact ⟨m', ⟨q, .object o :: math :: st, slots, ()⟩,
          ⟨rfl, harguments, ns, .lookup math o ho hst, hdepth, hrun⟩, hr'⟩
      · cases hinsn
    · cases hinsn
  case h_9 count =>
    split at hinsn
    · cases hinsn
    · rename_i hp
      obtain ⟨hemit, rfl⟩ := hmap hinsn
      have hcount : count = 2 := by
        by_contra hne
        exact hp (.inr hne)
      subst hcount
      obtain ⟨x, y, rest, ns', rfl, rfl, hrest⟩ := execUnsigned_call hst he
      exact hdone (simulates_emit hemit hdepth hrun rfl (by simp) harguments (.number _ hrest))
  case h_10 =>
    split at hinsn
    · cases hinsn
    · have hop := hnot (hmap hinsn).1
      simp [arithmeticOpcodes] at hop
  case h_11 =>
    have hop := (emit_arithmetic (hmap hinsn).1 ha).1
    simp [arithmeticOpcodes, Instruction.at] at hop
  case h_12 => exact (emitGetField_arithmetic (hmap hinsn).1 ha).elim
  case h_13 =>
    have hop := (emit_arithmetic (hmap hinsn).1 ha).1
    simp [arithmeticOpcodes, Instruction.at] at hop
  case h_14 k =>
    obtain ⟨hemit, rfl⟩ := hmap hinsn
    cases he
    exact hdone (simulates_emit hemit hdepth hrun rfl (by simp) harguments (.number k hst))
  case h_15 k _ =>
    obtain ⟨hemit, rfl⟩ := hmap hinsn
    cases he
    exact hdone (simulates_emit hemit hdepth hrun rfl (by simp) harguments (.number k hst))
  case h_16 =>
    obtain ⟨hemit, rfl⟩ := hmap hinsn
    dsimp only at hst
    cases hst with
    | nil => cases he
    | number x hst =>
      cases he
      exact hdone (simulates_emit hemit hdepth hrun rfl (by simp) harguments (.number (-x) hst))
    | @lookup rest ns math o ho hst =>
      have hneg : (binary .neg math (.object o)).bind
          (fun v => some ⟨next, v :: rest, slots, ()⟩) = some t' := he
      rw [binary_object (by decide) (by decide)] at hneg
      cases hneg
  case h_17 =>
    have hop := emitJump_arithmetic (hmap hinsn).1 ha
    simp [arithmeticOpcodes] at hop
  case h_18 =>
    have hop := emitJump_arithmetic (hmap hinsn).1 ha
    simp [arithmeticOpcodes] at hop
  case h_19 =>
    have hop := emitJump_arithmetic (hmap hinsn).1 ha
    simp [arithmeticOpcodes] at hop
  case h_20 op _ _ _ _ _ =>
    split at hinsn
    · rename_i opcode extended int32 ho
      obtain ⟨hemit, rfl⟩ := hmap hinsn
      have hop := hnot hemit
      obtain ⟨x, y, rest, ns', u, rfl, hbinary, rfl, hrest⟩ := execUnsigned_binary ho hop hst he
      have hstep : exactStep args (.at pc opcode 0 0) ⟨y :: x :: ns', cells⟩ =
          some ⟨u :: ns', cells⟩ := by
        have hops := binaryOpcode_arithmetic ho hop
        simp only [List.mem_cons, List.not_mem_nil, or_false] at hops
        rcases hops with rfl | rfl | rfl | rfl | rfl | rfl <;> cases ho <;> cases hbinary <;> rfl
      refine hdone (simulates_emit hemit ?_ ?_ hstep (by simp) harguments (.number u hrest))
      · cases extended <;> cases int32 <;> exact hdepth
      · cases extended <;> cases int32 <;> exact hrun
    · cases hinsn
  case h_21 => cases hinsn

theorem buildFrom_keeps {plan : Plan} {fuel : Nat}
    (hb : buildFrom realm f fuel offset s = some plan) (ha : Arithmetic args plan.instructions) :
    Arithmetic args s.plan.instructions ∧
      (s.plan.guard.isSome = true → plan.guard.isSome = true) := by
  induction fuel generalizing offset s with
  | zero => cases hb
  | succ fuel ih =>
    simp only [buildFrom, Option.bind_eq_bind, Option.bind_eq_some_iff] at hb
    obtain ⟨⟨i, next⟩, -, hb⟩ := hb
    split at hb
    · obtain ⟨r, hr, hb⟩ := Option.bind_eq_some_iff.mp hb
      cases r with
      | finished finished =>
        cases hb
        obtain ⟨-, hinstructions, hguard⟩ := Building.return_arithmetic hr ha
        rw [hinstructions] at ha
        exact ⟨ha, by rw [hguard]; exact id⟩
      | goOn u =>
        have hu := ih hb
        unfold Building.return at hr
        split at hr
        · cases hr
        · split at hr
          · cases hr
          · split at hr
            · simp only [Option.bind_eq_bind, Option.bind_eq_some_iff] at hr
              obtain ⟨x, hx, hr⟩ := hr
              split at hr
              · cases hr
                rw [Building.emit_eq hx] at hu
                exact ⟨hu.1.left, hu.2⟩
              · obtain ⟨resolved, -, he⟩ := Option.bind_eq_some_iff.mp hr
                cases he
            · cases hr
    · obtain ⟨⟨u, q⟩, hu, hb⟩ := Option.bind_eq_some_iff.mp hb
      split at hb
      · cases hb
      · have hchange := Building.insn_change hu
        obtain ⟨harithmetic, hguard⟩ := ih hb
        exact ⟨hchange.arithmetic harithmetic, fun hg => hguard (hchange.guard_isSome hg)⟩

/-- When the code returns an integer, the instructions of its plan compute that integer. -/
theorem buildFrom_simulates {plan : Plan} {fuel n : Nat} {u : ℤ}
    (hb : buildFrom realm f fuel offset s = some plan) (ha : Arithmetic args plan.instructions)
    (hl : plan.guard.isSome = true → ∀ mathAtom imulAtom, realm.named mathAtom "Math" = true →
      realm.named imulAtom "imul" = true → w.LooksUpImul mathAtom imulAtom)
    (hs : Simulates w args cells s offset t)
    (hr : returned f.toFunctionBytecode (advance (stepUnsigned w f.toFunctionBytecode)
      (fun _ => true) n t) = some (.number u)) :
    exactRun args plan.instructions ⟨[], cells⟩ = some ⟨[u], cells⟩ := by
  induction fuel generalizing offset s n t with
  | zero => cases hb
  | succ fuel ih =>
    have hb' := hb
    simp only [buildFrom, Option.bind_eq_bind, Option.bind_eq_some_iff] at hb
    obtain ⟨⟨i, next⟩, hd, hb⟩ := hb
    split at hb
    · rename_i hi
      dsimp only at hi
      subst hi
      obtain ⟨r, hreturn, hb⟩ := Option.bind_eq_some_iff.mp hb
      cases r with
      | goOn x =>
        -- The return has become an instruction of the plan.
        have hx := (buildFrom_keeps hb ha).1
        unfold Building.return at hreturn
        split at hreturn
        · cases hreturn
        · split at hreturn
          · cases hreturn
          · split at hreturn
            · simp only [Option.bind_eq_bind, Option.bind_eq_some_iff] at hreturn
              obtain ⟨y, hy, hreturn⟩ := hreturn
              split at hreturn
              · cases hreturn
                have hop := (emit_arithmetic hy hx).1
                simp [arithmeticOpcodes, Instruction.at] at hop
              · obtain ⟨resolved, -, he⟩ := Option.bind_eq_some_iff.mp hreturn
                cases he
            · cases hreturn
      | finished finished =>
        cases hb
        obtain ⟨hdepth, hinstructions, -⟩ := Building.return_arithmetic hreturn ha
        obtain ⟨pc, st, slots, heap⟩ := t
        obtain ⟨hpc, -, ns, hst, hlen, hrun⟩ := hs
        cases hpc
        have hstop : advance (stepUnsigned w f.toFunctionBytecode) (fun _ => true) n
            ⟨pc, st, slots, heap⟩ = ⟨pc, st, slots, heap⟩ := by
          cases n with
          | zero => rfl
          | succ n =>
            rw [advance, if_pos rfl, stepUnsigned, decodeFunction_base hd]
            cases st with
            | nil => rfl
            | cons a st => cases st <;> rfl
        rw [hstop] at hr
        unfold returned at hr
        dsimp only at hst hd hr
        rw [hd] at hr
        rw [hinstructions, hrun]
        rw [hdepth] at hlen
        cases hst with
        | nil => cases hlen
        | @number rest ns x hst =>
          cases hr
          have hns : ns = [] := by
            rw [List.length_cons] at hlen
            exact List.length_eq_zero_iff.mp (by omega)
          rw [hns]
        | lookup math o ho hst => cases hr
    · rename_i hi
      obtain ⟨⟨x, q⟩, hx, hb⟩ := Option.bind_eq_some_iff.mp hb
      split at hb
      · cases hb
      · obtain ⟨harithmetic, hguard⟩ := buildFrom_keeps hb ha
        obtain ⟨m, t', hs', hr'⟩ := insn_simulates hd (fun h => hi (by rw [h])) hx harithmetic
          (fun hg => hl (hguard hg)) hs hr
        exact ih hb hs' hr'

theorem World.YieldsBuiltin.looksUp {atoms : Atoms} {w' : World} (h : w.YieldsBuiltin atoms)
    (mathAtom imulAtom : Nat) (hmath : (w'.realm atoms).named mathAtom "Math" = true)
    (himul : (w'.realm atoms).named imulAtom "imul" = true) : w.LooksUpImul mathAtom imulAtom := by
  obtain ⟨f, hf, hb⟩ := h
  obtain ⟨math, hglobal, hget⟩ := Option.bind_eq_some_iff.mp hf
  rw [Atoms.eq_math hmath, Atoms.eq_imul himul]
  exact ⟨math, f, hglobal, hget, hb⟩

theorem interpret_arithmetic {atoms : Atoms} {w' : World} {plan : Plan} {values : List ℤ} {u : ℤ}
    (hb : buildTinyLeafPlan (w'.realm atoms) f = some plan) (hne : plan.instructions ≠ [])
    (ha : Arithmetic (fun k => values[k]?) plan.instructions)
    (hl : plan.guard.isSome = true → w.YieldsBuiltin atoms)
    (hr : f.interpret w (values.map .number) = some (.number u)) :
    exactRun (fun k => values[k]?) plan.instructions ⟨[], cells⟩ = some ⟨[u], cells⟩ := by
  unfold buildTinyLeafPlan at hb
  split at hb
  · cases hb
  · split at hb
    · rename_i hash hhash
      cases hb
      exact absurd (detectStringHashLeaf_spec hhash).2 hne
    · refine buildFrom_simulates hb ha (fun hg => (hl hg).looksUp) ?_ hr
      refine ⟨rfl, ?_, [], .nil, rfl, rfl⟩
      intro k v hv
      simp only [enterLeaf, List.getElem?_map, hv, Option.map_some, Option.getD_some]

end

end TurboJS.Leaf
