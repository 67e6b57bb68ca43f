import TurboJS.IR.Function

namespace TurboJS.IR

/-- What the interpreter takes from outside the IR: the double operations, as
operations on bit patterns, and the native functions that handles name. A native
function reads its own `arity` arguments and either returns or bails out. -/
structure Env where
  addF64 : Word → Word → Word
  subF64 : Word → Word → Word
  mulF64 : Word → Word → Word
  divF64 : Word → Word → Word
  lessThanF64 : Word → Word → Bool
  lessEqualF64 : Word → Word → Bool
  equalF64 : Word → Word → Bool
  i64ToF64 : Word → Word
  f64ToI64 : Word → Word
  arity : Nat → Nat
  native : Nat → List Word → Option Word

structure Frame where
  registers : Nat → Word
  locals : Nat → Word

def Frame.zero : Frame := ⟨fun _ => 0, fun _ => 0⟩

def Frame.setRegister (fr : Frame) (r : Nat) (v : Word) : Frame :=
  { fr with registers := Function.update fr.registers r v }

def Frame.setLocal (fr : Frame) (l : Nat) (v : Word) : Frame :=
  { fr with locals := Function.update fr.locals l v }

@[simp] theorem Frame.setRegister_registers (fr : Frame) (r : Nat) (v : Word) :
    (fr.setRegister r v).registers = Function.update fr.registers r v := rfl

@[simp] theorem Frame.setRegister_locals (fr : Frame) (r : Nat) (v : Word) :
    (fr.setRegister r v).locals = fr.locals := rfl

@[simp] theorem Frame.setLocal_registers (fr : Frame) (l : Nat) (v : Word) :
    (fr.setLocal l v).registers = fr.registers := rfl

@[simp] theorem Frame.setLocal_locals (fr : Frame) (l : Nat) (v : Word) :
    (fr.setLocal l v).locals = Function.update fr.locals l v := rfl

def ofBool (b : Bool) : Word := if b then 1 else 0

def int32Min : Word := BitVec.ofInt 64 (-2147483648)
def int32Max : Word := BitVec.ofInt 64 2147483647

def fitsInt32 (v : Word) : Bool := !(v.slt int32Min || int32Max.slt v)

inductive BailoutReason where
  | none | integerOverflow | divisionByZero | divisionOverflow | safepointRequested | runtimeHelper
  deriving DecidableEq, Repr

/-- What one instruction does to the run. A bailout carries the reason that the
native tier reports for it. -/
inductive Effect where
  | next (fr : Frame)
  | goto (pc : Nat) (fr : Frame)
  | done (v : Word)
  | bail (reason : BailoutReason)
  | fail (s : Status)

def NativeEntryHandle.isLive (h : NativeEntryHandle) (generation : Nat) (kind : EntryKind) : Bool :=
  h.function.isSome && generation != 0 && h.generation == generation && h.kind == kind

/-- `TurboJS_ClutchCallSiteInvokeI64` and its Float64 twin down to
`TurboJS_NativeInvoke`; `none` is any status but OK. -/
def clutchCallSiteInvoke (env : Env) (kind : EntryKind) (site : ClutchCallSite)
    (arguments : List Word) : Option Word := do
  let handle ← site.target
  if clutchMaxArguments < site.argumentCount || site.expectedKind != kind then none
  if !handle.isLive site.expectedGeneration kind then none
  if arguments.length < handle.argumentCount then none
  let id ← handle.function
  if arguments.length < env.arity id then none
  env.native id (arguments.take (env.arity id))

def checkedI32 (value : Word) (fr : Frame) (destination : Nat) : Effect :=
  if fitsInt32 value then .next (fr.setRegister destination value) else .bail .integerOverflow

def callNative (env : Env) (f : Function) (i : Instruction) (kind : EntryKind) (fr : Frame) :
    Effect :=
  match i.site with
  | none => .bail .runtimeHelper
  | some site =>
    if clutchMaxArguments < site.argumentCount || !site.arguments.all (validRegister f) then
      .bail .runtimeHelper
    else match clutchCallSiteInvoke env kind site (site.arguments.map fr.registers) with
      | none => .bail .runtimeHelper
      | some v => .next (fr.setRegister i.destination v)

def effect (env : Env) (f : Function) (i : Instruction) (fr : Frame) : Effect :=
  let l := fr.registers i.left
  let r := fr.registers i.right
  let set (v : Word) : Effect := .next (fr.setRegister i.destination v)
  match i.opcode with
  | .nop => .next fr
  | .argument => .fail .invalidArgument
  | .constantI64 | .constantF64 => set i.immediate
  | .addI64 => set (l + r)
  | .subI64 => set (l - r)
  | .mulI64 => set (l * r)
  | .addF64 => set (env.addF64 l r)
  | .subF64 => set (env.subF64 l r)
  | .mulF64 => set (env.mulF64 l r)
  | .divF64 => set (env.divF64 l r)
  | .lessThanF64 => set (ofBool (env.lessThanF64 l r))
  | .lessEqualF64 => set (ofBool (env.lessEqualF64 l r))
  | .equalF64 => set (ofBool (env.equalF64 l r))
  | .i64ToF64 => set (env.i64ToF64 l)
  | .f64ToI64Trunc => set (env.f64ToI64 l)
  | .addI32Checked => checkedI32 (l + r) fr i.destination
  | .subI32Checked => checkedI32 (l - r) fr i.destination
  | .mulI32Checked => checkedI32 (l * r) fr i.destination
  | .divI32Checked =>
    if r = 0 then .bail .divisionByZero
    else if l = int32Min ∧ r = -1 then .bail .divisionOverflow
    else set (l.sdiv r)
  | .remI32Checked => if r = 0 then .bail .divisionByZero else set (l.srem r)
  | .callNativeI64 => callNative env f i .int32 fr
  | .callNativeF64 => callNative env f i .float64 fr
  | .runtimeHelper => .bail .runtimeHelper
  | .lessThanI64 => set (ofBool (l.slt r))
  | .localGet => set (fr.locals i.immediate.toNat)
  | .localSet => .next (fr.setLocal i.immediate.toNat l)
  | .jump => .goto i.target fr
  | .branchTrue => if l ≠ 0 then .goto i.target fr else .next fr
  | .branchFalse => if l = 0 then .goto i.target fr else .next fr
  | .returnI64 | .returnF64 => .done l
  | .valueArgument | .valueUndefined | .valueConstantI32 | .valueMove | .valueLocalGet
  | .valueLocalSet | .valueToBoolean | .valueCallableConstant | .valueCallI64 | .valueCallF64
  | .valueReturn => .fail .invalidOpcode

/-- How an execution ends. The last form is an access outside the 64 locals that
the C array holds, where C gives no result. -/
inductive Outcome where
  | ok (v : Word)
  | status (s : Status)
  | outOfBounds
  deriving DecidableEq, Repr

def localsInBounds (i : Instruction) : Bool :=
  !(i.opcode = .localGet || i.opcode = .localSet) || i.immediate.toNat < maxRegisters

/-- `execute_from`; `steps` counts down from the step limit. -/
def executeFrom (env : Env) (f : Function) : Nat → Frame → Nat → Outcome
  | steps, fr, pc =>
    match f.instructions[pc]?, steps with
    | none, _ => .status .missingReturn
    | some _, 0 => .status .executionLimit
    | some i, steps + 1 =>
      if !localsInBounds i then .outOfBounds
      else match effect env f i fr with
        | .next fr' => executeFrom env f steps fr' (pc + 1)
        | .goto pc' fr' => executeFrom env f steps fr' pc'
        | .done v => .ok v
        | .bail _ => .status .bailout
        | .fail s => .status s

def stepLimit (f : Function) : Nat := f.instructions.length * 1000 + 1024

def loadArguments (arguments : List Word) : List Instruction → Frame → Nat → Frame × Nat
  | i :: rest, fr, pc =>
    if i.opcode = .argument then
      loadArguments arguments rest
        (fr.setRegister i.destination (arguments.getD i.immediate.toNat 0)) (pc + 1)
    else (fr, pc)
  | [], fr, pc => (fr, pc)

def irExecute (env : Env) (f : Function) (arguments : List Word) : Outcome :=
  if arguments.length < f.argumentCount then .status .invalidArgument
  else if (irVerify f).status ≠ .ok then .status (irVerify f).status
  else
    let (fr, pc) := loadArguments arguments f.instructions .zero 0
    executeFrom env f (stepLimit f) fr pc

/-- The order in which the interpreter can load arguments: none stands after another
instruction. -/
def ArgumentsFirst (is : List Instruction) : Prop :=
  is.Pairwise fun a b => b.opcode = .argument → a.opcode = .argument

/-- The run of code without jumps: the value of the first return it reaches, or `none` when
an instruction before it stops the run. -/
def straightRun (env : Env) (f : Function) (arguments : List Word) :
    List Instruction → Frame → Option Word
  | [], _ => none
  | i :: rest, fr =>
    if i.opcode = .argument then
      straightRun env f arguments rest
        (fr.setRegister i.destination (arguments.getD i.immediate.toNat 0))
    else if !localsInBounds i then none
    else match effect env f i fr with
      | .next fr' => straightRun env f arguments rest fr'
      | .done v => some v
      | _ => none

def Jumps (i : Instruction) : Prop :=
  i.opcode = .jump ∨ i.opcode = .branchTrue ∨ i.opcode = .branchFalse

theorem callNative_no_goto {env : Env} {f : Function} {i : Instruction} {kind : EntryKind}
    {fr fr' : Frame} {pc : Nat} : callNative env f i kind fr ≠ .goto pc fr' := by
  unfold callNative
  repeat' split
  all_goals simp

theorem effect_goto {env : Env} {f : Function} {i : Instruction} {fr fr' : Frame} {pc : Nat}
    (h : effect env f i fr = .goto pc fr') : Jumps i := by
  unfold effect at h
  unfold Jumps
  cases ho : i.opcode <;> simp only [ho] at h <;> first
    | simp; done
    | cases h
    | exact absurd h callNative_no_goto
    | (unfold checkedI32 at h; split at h <;> cases h)
    | (split at h <;> cases h)
    | (repeat' split at h) <;> cases h

theorem straightRun_argument {env : Env} {f : Function} {arguments : List Word} {i : Instruction}
    (h : i.opcode = .argument) (rest : List Instruction) (fr : Frame) :
    straightRun env f arguments (i :: rest) fr = straightRun env f arguments rest
      (fr.setRegister i.destination (arguments.getD i.immediate.toNat 0)) := by
  simp [straightRun, h]

theorem executeFrom_straight {env : Env} {f : Function} {arguments : List Word}
    {is : List Instruction} {steps pc : Nat} {fr : Frame} {v : Word}
    (hd : f.instructions.drop pc = is) (hs : is.length ≤ steps)
    (ha : ∀ i ∈ is, i.opcode ≠ .argument) (hj : ∀ i ∈ is, ¬ Jumps i) :
    executeFrom env f steps fr pc = .ok v ↔ straightRun env f arguments is fr = some v := by
  induction is generalizing steps pc fr with
  | nil =>
    have hn : f.instructions[pc]? = none := by
      rw [← List.head?_drop, hd]; rfl
    unfold executeFrom
    rw [hn]
    cases steps <;> simp [straightRun]
  | cons i rest ih =>
    have hi : f.instructions[pc]? = some i := by
      rw [← List.head?_drop, hd]; rfl
    have hd' : f.instructions.drop (pc + 1) = rest := by
      rw [← List.tail_drop, hd]; rfl
    cases steps with
    | zero => simp at hs
    | succ steps =>
      have hs' : rest.length ≤ steps := by simpa using hs
      have ha' : ∀ i ∈ rest, i.opcode ≠ .argument := fun i hm => ha i (List.mem_cons_of_mem _ hm)
      have hj' : ∀ i ∈ rest, ¬ Jumps i := fun i hm => hj i (List.mem_cons_of_mem _ hm)
      have hna : i.opcode ≠ .argument := ha i List.mem_cons_self
      unfold executeFrom straightRun
      rw [hi]
      simp only [hna, if_false]
      split
      · simp
      · cases he : effect env f i fr with
        | next fr' => simpa [he] using ih hd' hs' ha' hj'
        | goto pc' fr' => exact absurd (effect_goto he) (hj i List.mem_cons_self)
        | done u => simp
        | bail r => simp
        | fail s => simp

theorem executeFrom_loadArguments {env : Env} {f : Function} {arguments : List Word}
    {is : List Instruction} {pc : Nat} {fr : Frame} {v : Word}
    (hd : f.instructions.drop pc = is) (ha : ArgumentsFirst is) (hj : ∀ i ∈ is, ¬ Jumps i) :
    executeFrom env f (stepLimit f) (loadArguments arguments is fr pc).1
        (loadArguments arguments is fr pc).2 = .ok v ↔
      straightRun env f arguments is fr = some v := by
  have hl : (f.instructions.drop pc).length ≤ stepLimit f := by
    rw [List.length_drop]
    unfold stepLimit
    omega
  induction is generalizing pc fr with
  | nil =>
    have hnil : ∀ i ∈ ([] : List Instruction), i.opcode ≠ .argument := by simp
    exact executeFrom_straight hd (by simp) hnil hj
  | cons i rest ih =>
    have hd' : f.instructions.drop (pc + 1) = rest := by
      rw [← List.tail_drop, hd]; rfl
    obtain ⟨hfirst, hrest⟩ := List.pairwise_cons.mp ha
    by_cases hi : i.opcode = .argument
    · rw [straightRun_argument hi]
      have hl' : (f.instructions.drop (pc + 1)).length ≤ stepLimit f := by
        rw [List.length_drop] at hl ⊢
        omega
      have hj' : ∀ i ∈ rest, ¬ Jumps i := fun i hm => hj i (List.mem_cons_of_mem _ hm)
      simpa [loadArguments, hi] using ih hd' hrest hj' hl'
    · have hna : ∀ j ∈ i :: rest, j.opcode ≠ .argument := by
        intro j hm hja
        rcases List.mem_cons.mp hm with rfl | hm
        · exact hi hja
        · exact hi (hfirst j hm hja)
      rw [hd] at hl
      have hload : loadArguments arguments (i :: rest) fr pc = (fr, pc) := by
        simp [loadArguments, hi]
      rw [hload]
      exact executeFrom_straight hd hl hna hj

theorem irExecute_straight {env : Env} {f : Function} {arguments : List Word} {v : Word}
    (hv : (irVerify f).status = .ok) (hn : f.argumentCount ≤ arguments.length)
    (ha : ArgumentsFirst f.instructions) (hj : ∀ i ∈ f.instructions, ¬ Jumps i) :
    irExecute env f arguments = .ok v ↔
      straightRun env f arguments f.instructions .zero = some v := by
  have hlt : ¬ arguments.length < f.argumentCount := Nat.not_lt.mpr hn
  have hrun : executeFrom env f (stepLimit f) (loadArguments arguments f.instructions .zero 0).1
      (loadArguments arguments f.instructions .zero 0).2 = .ok v ↔
      straightRun env f arguments f.instructions .zero = some v :=
    executeFrom_loadArguments List.drop_zero ha hj
  unfold irExecute
  rw [if_neg hlt]
  simp only [hv, ne_eq, not_true_eq_false, if_false]
  exact hrun

def IsInt32 (n : Int) : Prop := -2147483648 ≤ n ∧ n ≤ 2147483647

instance (n : Int) : Decidable (IsInt32 n) := inferInstanceAs (Decidable (_ ∧ _))

section

variable {x y : Word}

theorem fitsInt32_iff : fitsInt32 x = true ↔ IsInt32 x.toInt := by
  have hmin : int32Min.toInt = -2147483648 := by decide
  have hmax : int32Max.toInt = 2147483647 := by decide
  simp only [fitsInt32, BitVec.slt_eq_decide, hmin, hmax, IsInt32]
  simp

theorem fitsInt32_signExtend (v : Word) :
    fitsInt32 v = (v == (v.setWidth 32).signExtend 64) := by
  have hsext : ((v.setWidth 32).signExtend 64).toInt = v.toInt.bmod (2 ^ 32) := by
    rw [BitVec.toInt_signExtend_of_le (by omega), BitVec.toInt_setWidth]
    rw [BitVec.toInt_eq_toNat_bmod, Int.bmod_bmod_of_dvd (by decide)]
  rw [Bool.eq_iff_iff, fitsInt32_iff, beq_iff_eq, ← BitVec.toInt_inj, hsext, IsInt32]
  constructor
  · rintro ⟨hlo, hhi⟩
    rw [Int.bmod_eq_of_le] <;> omega
  · intro he
    have h1 := @Int.le_bmod v.toInt (2 ^ 32) (by omega)
    have h2 := @Int.bmod_lt v.toInt (2 ^ 32) (by omega)
    omega

theorem word_eq_zero_iff : x = 0 ↔ x.toInt = 0 := by
  rw [← BitVec.toInt_inj]
  rfl

theorem toInt_ofInt_of_int32 {n : Int} (h : IsInt32 n) : (BitVec.ofInt 64 n : Word).toInt = n := by
  obtain ⟨hlo, hhi⟩ := h
  rw [BitVec.toInt_ofInt, Int.bmod_eq_of_le] <;> omega

theorem toInt_ofBool (b : Bool) : (ofBool b).toInt = if b then 1 else 0 := by
  cases b <;> decide

theorem toInt_add (hx : IsInt32 x.toInt) (hy : IsInt32 y.toInt) :
    (x + y).toInt = x.toInt + y.toInt := by
  obtain ⟨hx1, hx2⟩ := hx
  obtain ⟨hy1, hy2⟩ := hy
  rw [BitVec.toInt_add, Int.bmod_eq_of_le] <;> omega

theorem toInt_sub (hx : IsInt32 x.toInt) (hy : IsInt32 y.toInt) :
    (x - y).toInt = x.toInt - y.toInt := by
  obtain ⟨hx1, hx2⟩ := hx
  obtain ⟨hy1, hy2⟩ := hy
  rw [BitVec.toInt_sub, Int.bmod_eq_of_le] <;> omega

theorem mul_bounds {m n : Int} (hm : IsInt32 m) (hn : IsInt32 n) :
    -2 ^ 62 ≤ m * n ∧ m * n ≤ 2 ^ 62 := by
  obtain ⟨hm1, hm2⟩ := hm
  obtain ⟨hn1, hn2⟩ := hn
  have habs : (m * n).natAbs ≤ 2 ^ 31 * 2 ^ 31 := by
    rw [Int.natAbs_mul]
    exact Nat.mul_le_mul (by omega) (by omega)
  constructor <;> omega

theorem toInt_mul (hx : IsInt32 x.toInt) (hy : IsInt32 y.toInt) :
    (x * y).toInt = x.toInt * y.toInt := by
  obtain ⟨hlo, hhi⟩ := mul_bounds hx hy
  rw [BitVec.toInt_mul, Int.bmod_eq_of_le] <;> omega

theorem natAbs_tdiv_le (m n : Int) : (m.tdiv n).natAbs ≤ m.natAbs := by
  rw [Int.natAbs_tdiv]
  exact Nat.div_le_self _ _

theorem toInt_sdiv (hx : IsInt32 x.toInt) : (x.sdiv y).toInt = x.toInt.tdiv y.toInt := by
  obtain ⟨hx1, hx2⟩ := hx
  have hle := natAbs_tdiv_le x.toInt y.toInt
  rw [BitVec.toInt_sdiv, Int.bmod_eq_of_le] <;> omega

theorem int32_tdiv {m n : Int} (hm : IsInt32 m) (h : ¬ (m = -2147483648 ∧ n = -1)) :
    IsInt32 (m.tdiv n) := by
  obtain ⟨hm1, hm2⟩ := hm
  have hle := natAbs_tdiv_le m n
  by_cases hmin : m = -2147483648
  · have hn : n ≠ -1 := fun hn => h ⟨hmin, hn⟩
    subst hmin
    have hhalf : n ≠ 1 → (Int.tdiv (-2147483648) n).natAbs ≤ 1073741824 := by
      intro hn1
      rw [Int.natAbs_tdiv]
      rcases Nat.eq_zero_or_pos n.natAbs with hz | hz
      · rw [hz]
        decide
      · have h2 : 2 ≤ n.natAbs := by omega
        calc (-2147483648 : Int).natAbs / n.natAbs ≤ (-2147483648 : Int).natAbs / 2 :=
              Nat.div_le_div_left h2 (by decide)
          _ ≤ 1073741824 := by decide
    by_cases hn1 : n = 1
    · subst hn1
      decide
    · have := hhalf hn1
      unfold IsInt32
      omega
  · unfold IsInt32
    omega

theorem toInt_srem : (x.srem y).toInt = x.toInt.tmod y.toInt := BitVec.toInt_srem x y

theorem int32_tmod {m n : Int} (hm : IsInt32 m) : IsInt32 (m.tmod n) := by
  obtain ⟨hm1, hm2⟩ := hm
  have hle : (m.tmod n).natAbs ≤ m.natAbs := by
    rw [Int.natAbs_tmod]
    exact Nat.mod_le _ _
  rcases Int.lt_or_le m 0 with hneg | hpos
  · have hsign := Int.tmod_nonneg n (show 0 ≤ -m by omega)
    rw [Int.neg_tmod] at hsign
    unfold IsInt32
    omega
  · have hsign := Int.tmod_nonneg n hpos
    unfold IsInt32
    omega

end

end TurboJS.IR
