import TurboJS.Baseline.Compile

namespace TurboJS.Baseline

open IR Foundation

def Located (code : List Op) (off : Nat) (ops : List Op) : Prop :=
  ∃ pre post, code = pre ++ (ops ++ post) ∧ extent Op.size pre = off

abbrev Executes (w : World) (f : Function) (code : List Op) :
    Int × Machine → Int × Machine → Prop :=
  Runs (stepAt w f code) (fun s => ¬ Halted code s)

def execAll (w : World) (f : Function) (ops : List Op) (m : Machine) : Option Machine :=
  ops.foldlM (fun m op => exec w f op m) m

section

variable {w : World} {f : Function} {code ops ops' body : List Op} {op : Op} {off : Nat}
  {m m' : Machine}

theorem Located.left (h : Located code off (ops ++ ops')) : Located code off ops := by
  obtain ⟨pre, post, rfl, rfl⟩ := h
  exact ⟨pre, ops' ++ post, by simp, rfl⟩

theorem Located.right (h : Located code off (ops ++ ops')) :
    Located code (off + extent Op.size ops) ops' := by
  obtain ⟨pre, post, rfl, rfl⟩ := h
  exact ⟨pre ++ ops, post, by simp, by simp⟩

theorem Located.tail (h : Located code off (op :: ops)) : Located code (off + op.size) ops := by
  have hright : Located code (off + extent Op.size [op]) ops := Located.right h
  simpa using hright

theorem Located.fetch (h : Located code off (op :: ops)) : fetch code off = some op := by
  obtain ⟨pre, post, rfl, rfl⟩ := h
  rw [Baseline.fetch, if_pos (Int.natCast_nonneg _), Int.toNat_natCast, List.cons_append]
  exact itemAt_extent Op.size_pos pre op (ops ++ post)

theorem Located.step (h : Located code off (op :: ops)) (he : exec w f op m = some m') :
    Executes w f code (off, m) ((off + op.size : Nat), m') := by
  have hfetch := h.fetch
  refine .one ?_ ?_
  · intro hhalt
    rw [Halted, hfetch] at hhalt
    cases hhalt
    cases he
  · rw [stepAt, hfetch]
    cases op
    case jcc => cases he
    case jmp => cases he
    all_goals
      simp only [he, Option.map_some, Int.natCast_add]

theorem exec_loadSlot (r slot : Nat) :
    exec w f (loadSlot r slot) m = some (m.set r (.word (m.frame (slotDisp slot)))) := rfl

@[simp] theorem execAll_nil : execAll w f [] m = some m := rfl

theorem execAll_cons :
    execAll w f (op :: ops) m = (exec w f op m).bind (execAll w f ops) := by
  simp only [execAll, List.foldlM_cons]
  rfl

theorem execAll_append :
    execAll w f (ops ++ ops') m = (execAll w f ops m).bind (execAll w f ops') := by
  simp only [execAll, List.foldlM_append]
  rfl

theorem Located.straight (h : Located code off ops) (he : execAll w f ops m = some m') :
    Executes w f code (off, m) ((off + extent Op.size ops : Nat), m') := by
  induction ops generalizing off m with
  | nil =>
    cases he
    exact .refl _
  | cons op ops ih =>
    rw [execAll_cons] at he
    obtain ⟨m₁, h₁, he⟩ := Option.bind_eq_some_iff.mp he
    have hrest := ih h.tail he
    rw [Nat.add_assoc, ← extent_cons] at hrest
    exact (h.step h₁).trans hrest

theorem wrap32_of_small {d : Int} (hlo : -2 ^ 31 ≤ d) (hhi : d < 2 ^ 31) : wrap32 d = d := by
  rw [wrap32, BitVec.toInt_ofInt]
  rw [Int.bmod_eq_of_le] <;> omega

theorem Located.jump {disp : Int} (h : Located code off (.jmp disp :: ops)) (w : World)
    (f : Function) (m : Machine) : Executes w f code (off, m) (off + 5 + disp, m) := by
  have hfetch := h.fetch
  refine .one ?_ ?_
  · intro hhalt
    rw [Halted, hfetch] at hhalt
    cases hhalt
  · rw [stepAt, hfetch]

theorem Located.branch {onEqual : Bool} {disp : Int} {flags : Flags}
    (h : Located code off (.jcc onEqual disp :: ops)) (w : World) (f : Function)
    (hf : m.flags = some flags) :
    Executes w f code (off, m) (off + 6 + if flags.zero = onEqual then disp else 0, m) := by
  have hfetch := h.fetch
  refine .one ?_ ?_
  · intro hhalt
    rw [Halted, hfetch] at hhalt
    cases hhalt
  · rw [stepAt, hfetch]
    simp only [hf, Option.map_some]

theorem Located.skip {onEqual : Bool} {flags : Flags} (h : Located code off (skipIf onEqual body))
    (hf : m.flags = some flags) (hz : flags.zero = onEqual)
    (hsmall : extent Op.size body < 2 ^ 31) :
    Executes w f code (off, m) ((off + extent Op.size (skipIf onEqual body) : Nat), m) := by
  have hwrap : wrap32 (extent Op.size body) = extent Op.size body :=
    wrap32_of_small (by omega) (by omega)
  have hrun := Located.branch h w f hf
  have hend : ((off + extent Op.size (skipIf onEqual body) : Nat) : Int) =
      off + 6 + wrap32 (extent Op.size body) := by
    rw [hwrap, skipIf, extent_cons, Op.size]
    push_cast
    omega
  rw [if_pos hz, ← hend] at hrun
  exact hrun

theorem Located.enter {onEqual : Bool} {flags : Flags}
    (h : Located code off (skipIf onEqual body)) (hf : m.flags = some flags)
    (hz : flags.zero ≠ onEqual) :
    Executes w f code (off, m) ((off + 6 : Nat), m) ∧ Located code (off + 6) body := by
  have hrun := Located.branch h w f hf
  rw [if_neg hz, Int.add_zero] at hrun
  exact ⟨hrun, h.tail⟩

end

section

variable {f : Function} {code ops : List Op} {k : Nat} {i : Instruction}

theorem emitInstruction_size (f : Function) (k : Nat) (i : Instruction) (disp : Int) :
    (emitInstruction f k i disp).map (extent Op.size) =
      (emitInstruction f k i 0).map (extent Op.size) := by
  unfold emitInstruction
  cases i.opcode
  case jump => simp [Op.size]
  case branchTrue => simp [Op.size]
  case branchFalse => simp [Op.size]
  all_goals rfl

theorem instructionSize_eq {disp : Int} (h : emitInstruction f k i disp = some ops) :
    instructionSize f k i = extent Op.size ops := by
  rw [instructionSize, ← emitInstruction_size f k i disp, h]
  rfl

theorem mapM_get {α β : Type} {g : α → Option β} {xs : List α} {ys : List β}
    (h : xs.mapM g = some ys) : ys.map some = xs.map g := by
  induction xs generalizing ys with
  | nil =>
    cases h
    rfl
  | cons x xs ih =>
    rw [List.mapM_cons] at h
    obtain ⟨y, hy, h⟩ := Option.bind_eq_some_iff.mp h
    obtain ⟨ys', hys, h⟩ := Option.bind_eq_some_iff.mp h
    cases h
    rw [List.map_cons, List.map_cons, ih hys, hy]

theorem flatten_split {ys : List (List Op)} (hk : ys[k]? = some ops) :
    ys.flatten = (ys.take k).flatten ++ (ops ++ (ys.drop (k + 1)).flatten) := by
  obtain ⟨hlt, hget⟩ := List.getElem?_eq_some_iff.mp hk
  have hdrop : ys.drop k = ops :: ys.drop (k + 1) := by
    rw [List.drop_eq_getElem_cons hlt, hget]
  calc ys.flatten = (ys.take k ++ ys.drop k).flatten := by rw [List.take_append_drop]
    _ = (ys.take k).flatten ++ (ops ++ (ys.drop (k + 1)).flatten) := by
      rw [List.flatten_append, hdrop, List.flatten_cons]

theorem extent_flatten (ys : List (List Op)) :
    extent Op.size ys.flatten = (ys.map (extent Op.size)).sum := by
  induction ys with
  | nil => rfl
  | cons y ys ih => rw [List.flatten_cons, extent_append, ih, List.map_cons, List.sum_cons]

theorem baselineCode_parts (h : baselineCode f = some code) :
    (irVerify f).status = .ok ∧ ∃ body : List (List Op),
      code = prologue f ++ body.flatten ∧
      body.map some = f.instructions.zipIdx.map fun p =>
        emitInstruction f p.2 p.1 (branchDisp f p.2 p.1) := by
  unfold baselineCode at h
  split at h
  · cases h
  · rename_i hv
    obtain ⟨body, hbody, h⟩ := Option.bind_eq_some_iff.mp h
    cases h
    exact ⟨not_not.mp hv, body, rfl, mapM_get hbody⟩

theorem baselineCode_checks (h : baselineCode f = some code) (hi : f.instructions[k]? = some i) :
    checkInstruction f i = none := by
  obtain ⟨-, hall, -⟩ := irVerify_ok.mp (baselineCode_parts h).1
  exact hall i (List.mem_of_getElem? hi)

theorem baselineCode_placed (h : baselineCode f = some code) (hi : f.instructions[k]? = some i) :
    ∃ ops, emitInstruction f k i (branchDisp f k i) = some ops ∧
      Located code (offsetOf f k) ops ∧ offsetOf f (k + 1) = offsetOf f k + extent Op.size ops := by
  obtain ⟨-, body, rfl, hbody⟩ := baselineCode_parts h
  have hzip : f.instructions.zipIdx[k]? = some (i, k) := by
    rw [List.getElem?_zipIdx, hi]
    simp
  have hget : (body.map some)[k]? = some (emitInstruction f k i (branchDisp f k i)) := by
    rw [hbody, List.getElem?_map, hzip]
    rfl
  rw [List.getElem?_map] at hget
  obtain ⟨ops, hops, hemit⟩ := Option.map_eq_some_iff.mp hget
  have hsizes : ∀ n, (f.instructions.zipIdx.take n).map (fun p => instructionSize f p.2 p.1) =
      (body.take n).map (extent Op.size) := by
    intro n
    have hall : f.instructions.zipIdx.map (fun p => instructionSize f p.2 p.1) =
        body.map (extent Op.size) := by
      have hsome : f.instructions.zipIdx.map (fun p => instructionSize f p.2 p.1) =
          (body.map some).map fun o => (o.map (extent Op.size)).getD 0 := by
        rw [hbody, List.map_map]
        apply List.map_congr_left
        intro p _
        rw [instructionSize, ← emitInstruction_size f p.2 p.1 (branchDisp f p.2 p.1)]
        rfl
      rw [hsome, List.map_map]
      rfl
    rw [List.map_take, hall, List.map_take]
  refine ⟨ops, hemit.symm, ⟨prologue f ++ (body.take k).flatten, (body.drop (k + 1)).flatten, ?_, ?_⟩,
    ?_⟩
  · rw [flatten_split hops, List.append_assoc]
  · rw [offsetOf, hsizes, extent_append, extent_flatten]
  · have hlast : (body.take (k + 1)) = body.take k ++ [ops] := by
      rw [List.take_add_one, hops]
      rfl
    rw [offsetOf, offsetOf, hsizes, hsizes, hlast, List.map_append, List.sum_append]
    simp [Nat.add_assoc]

theorem Located.bound {off : Nat} (h : Located code off ops) :
    off + extent Op.size ops ≤ extent Op.size code := by
  obtain ⟨pre, post, rfl, rfl⟩ := h
  simp only [extent_append]
  omega

theorem baselineCode_offset_le (h : baselineCode f = some code) (hi : f.instructions[k]? = some i) :
    offsetOf f k ≤ extent Op.size code := by
  obtain ⟨ops, -, hat, -⟩ := baselineCode_placed h hi
  have hbound := hat.bound
  omega

theorem branchDisp_eq (h : baselineCode f = some code) (hi : f.instructions[k]? = some i)
    {j : Instruction} (hj : f.instructions[i.target]? = some j)
    (hsmall : extent Op.size code < 2 ^ 31) :
    (offsetOf f (k + 1) : Int) + branchDisp f k i = offsetOf f i.target := by
  obtain ⟨ops, hemit, hat, hnext⟩ := baselineCode_placed h hi
  have hbound := hat.bound
  have htarget := baselineCode_offset_le h hj
  have hwrap : branchDisp f k i = offsetOf f i.target - (offsetOf f k + instructionSize f k i) := by
    rw [branchDisp, instructionSize_eq hemit]
    apply wrap32_of_small <;> omega
  rw [hwrap, instructionSize_eq hemit, hnext]
  push_cast
  omega

theorem baselineCode_entry (h : baselineCode f = some code) :
    Located code 0 (prologue f) ∧ extent Op.size (prologue f) = offsetOf f 0 := by
  obtain ⟨-, body, rfl, -⟩ := baselineCode_parts h
  exact ⟨⟨[], body.flatten, rfl, rfl⟩, by simp [offsetOf]⟩

end

section

variable {w : World} {f : Function} {code : List Op} {off k status : Nat} {m : Machine}

theorem localDisp_eq (f : Function) (l : Nat) : localDisp f l = slotDisp (f.registerCount + l) := by
  simp only [localDisp, slotDisp]
  omega

theorem slotDisp_inj {a b : Nat} : slotDisp a = slotDisp b ↔ a = b := by
  simp only [slotDisp]
  omega

theorem execAll_snapshot (w : World) (f : Function) (h9 : m.gpr 9 = .pointer .deopt) (b n : Nat) :
    ∃ m', execAll w f ((List.range n).flatMap fun i =>
          [loadSlot 0 (b + i), .storeBase 9 0 (1 + (b + i))]) m = some m' ∧
      m'.gpr 9 = .pointer .deopt ∧ m'.frame = m.frame ∧
      ∀ c, m'.deopt c = if b < c ∧ c ≤ b + n then m.frame (slotDisp (c - 1)) else m.deopt c := by
  induction n with
  | zero =>
    refine ⟨m, rfl, h9, rfl, ?_⟩
    intro c
    rw [if_neg (by omega)]
  | succ n ih =>
    obtain ⟨m₁, h₁, h9₁, hframe, hdeopt⟩ := ih
    rw [List.range_succ, List.flatMap_append, execAll_append, h₁]
    have hlast : execAll w f [loadSlot 0 (b + n), .storeBase 9 0 (1 + (b + n))] m₁ =
        some ((m₁.set 0 (.word (m₁.frame (slotDisp (b + n))))).setDeopt (1 + (b + n))
          (m₁.frame (slotDisp (b + n)))) := by
      simp [execAll, loadSlot, exec, Machine.word, h9₁]
    rw [Option.bind_some, List.flatMap_singleton]
    refine ⟨_, hlast, ?_, hframe, ?_⟩
    · simpa using h9₁
    · intro c
      rw [Machine.setDeopt_deopt]
      by_cases hc : c = 1 + (b + n)
      · subst hc
        rw [Function.update_self, if_pos (by omega), hframe]
        congr 2
        omega
      · rw [Function.update_of_ne hc, Machine.set_deopt, hdeopt c]
        have hsame : b < c ∧ c ≤ b + n ↔ b < c ∧ c ≤ b + (n + 1) := by omega
        simp only [hsame]

/-- How native code leaves at `k`: the status is in `eax`, the index and the whole frame in
the deopt values. -/
structure LeavesAt (f : Function) (k status : Nat) (m m' : Machine) : Prop where
  status : m'.gpr 0 = .word (BitVec.ofNat 64 status)
  index : m'.deopt 0 = BitVec.ofNat 64 k
  cells : ∀ n, n < f.registerCount + f.localCount → m'.deopt (1 + n) = m.frame (slotDisp n)

def Leaves (w : World) (f : Function) (code : List Op) (s : Int × Machine) (m' : Machine) : Prop :=
  ∃ pc, Executes w f code s (pc, m') ∧ Halted code (pc, m')

theorem Leaves.after {s s' : Int × Machine} {m' : Machine} (h : Executes w f code s s')
    (h' : Leaves w f code s' m') : Leaves w f code s m' := by
  obtain ⟨pc, hrun, hhalt⟩ := h'
  exact ⟨pc, h.trans hrun, hhalt⟩

theorem Located.bailout (h : Located code off (returnBailoutAt f k status))
    (h9 : m.gpr 9 = .pointer .deopt) :
    ∃ m', Leaves w f code (off, m) m' ∧ LeavesAt f k status m m' := by
  have hfirst : execAll w f [.movImm64 0 (BitVec.ofNat 64 k), .storeBase 9 0 0] m =
      some ((m.set 0 (.word (BitVec.ofNat 64 k))).setDeopt 0 (BitVec.ofNat 64 k)) := by
    simp [execAll, exec, Machine.word, h9]
  have h9₁ : ((m.set 0 (.word (BitVec.ofNat 64 k))).setDeopt 0 (BitVec.ofNat 64 k)).gpr 9 =
      .pointer .deopt := by
    simpa using h9
  obtain ⟨m₂, h₂, h9₂, hframe₂, hdeopt₂⟩ := execAll_snapshot w f h9₁ 0 f.registerCount
  obtain ⟨m₃, h₃, h9₃, hframe₃, hdeopt₃⟩ := execAll_snapshot w f h9₂ f.registerCount f.localCount
  have hregisters : snapshotRegister =
      fun i => [loadSlot 0 (0 + i), .storeBase 9 0 (1 + (0 + i))] := by
    funext i
    simp only [snapshotRegister, Nat.zero_add]
  have hlocals : snapshotLocal f =
      fun i => [loadSlot 0 (f.registerCount + i), .storeBase 9 0 (1 + (f.registerCount + i))] := by
    funext i
    simp only [snapshotLocal, loadSlot, localDisp_eq]
  unfold returnBailoutAt at h
  rw [hregisters, hlocals] at h
  have hall : execAll w f
      (([.movImm64 0 (BitVec.ofNat 64 k), .storeBase 9 0 0] : List Op) ++
        ((List.range f.registerCount).flatMap fun i =>
          [loadSlot 0 (0 + i), .storeBase 9 0 (1 + (0 + i))]) ++
        ((List.range f.localCount).flatMap fun i =>
          [loadSlot 0 (f.registerCount + i), .storeBase 9 0 (1 + (f.registerCount + i))]) ++
        ([.movEax status] : List Op)) m = some (m₃.set 0 (.word (BitVec.ofNat 64 status))) := by
    rw [execAll_append, execAll_append, execAll_append, hfirst, Option.bind_some, h₂,
      Option.bind_some, h₃, Option.bind_some]
    rfl
  have hsplit : [Op.movEax status, Op.leaveRet] = [Op.movEax status] ++ [Op.leaveRet] := rfl
  rw [hsplit, ← List.append_assoc] at h
  refine ⟨m₃.set 0 (.word (BitVec.ofNat 64 status)), ⟨_, h.left.straight hall, h.right.fetch⟩, ?_⟩
  refine ⟨by simp, ?_, ?_⟩
  · rw [Machine.set_deopt, hdeopt₃, if_neg (by omega), hdeopt₂, if_neg (by omega)]
    simp
  · intro n hn
    rw [Machine.set_deopt, hdeopt₃]
    by_cases hr : n < f.registerCount
    · rw [if_neg (by omega), hdeopt₂, if_pos (by omega)]
      simp
    · rw [if_pos (by omega), hframe₂]
      simp

end

end TurboJS.Baseline
