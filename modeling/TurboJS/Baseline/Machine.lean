import TurboJS.IR.Interpreter
import TurboJS.Foundation.Layout
import TurboJS.Foundation.Run

namespace TurboJS.Baseline

open IR Foundation

/-- The addresses that native code works with. A call site and its target handle are
named by the call's instruction, a frame cell by its displacement from `rbp`. -/
inductive Pointer where
  | arguments | result | deopt | safepoint
  | site (k : Nat)
  | handle (k : Nat)
  | native (id : Nat)
  | code (id : Nat)
  | frame (disp : Int)
  | callee
  deriving DecidableEq, Repr

inductive Value where
  | word (w : Word)
  | pointer (p : Pointer)
  deriving DecidableEq, Repr

/-- The members that `load_base_disp32` reads, and any other word of an object. -/
inductive Field where
  | siteTarget | siteGeneration | siteKind
  | handleFunction | handleGeneration | handleKind
  | nativeDeoptValues | nativeSafepoint | nativeCode
  | objectWord (offset : Nat)
  deriving DecidableEq, Repr

inductive F64Op where
  | add | sub | mul | div
  deriving DecidableEq, Repr

inductive F64Predicate where
  | equal | lessThan | lessEqual
  deriving DecidableEq, Repr

/-- One machine operation for each emit helper. Registers have the numbers of the
encoding. -/
inductive Op where
  | nop
  | enter (frame : Nat)
  | movRR (d s : Nat)
  | movImm64 (d : Nat) (v : Word)
  | movSite (d k : Nat)
  | movEax (v : Nat)
  | xorEax
  | loadFrame (r : Nat) (disp : Int)
  | storeFrame (disp : Int) (r : Nat)
  | leaFrame (r : Nat) (disp : Int)
  | loadArg (r arg : Nat)
  | loadBase (r base : Nat) (field : Field)
  | storeBase (base r cell : Nat)
  | storeAt (base r : Nat)
  | add (d s : Nat)
  | sub (d s : Nat)
  | imul (d s : Nat)
  | cmp (d s : Nat)
  | test (r : Nat)
  | testEax
  | movsxdRcxEax
  | cqo
  | idivRcx
  | setlAl
  | movzxRaxAl
  | movzxEdxDl
  | movzxEsiSil
  | andEaxOne
  | movqXmmGpr (x g : Nat)
  | movqGprXmm (g x : Nat)
  | scalarF64 (op : F64Op) (d s : Nat)
  | compareF64 (p : F64Predicate) (d s : Nat)
  | cvtsi2sd (x g : Nat)
  | cvttsd2si (g x : Nat)
  | cmpSafepoint
  | jcc (onEqual : Bool) (disp : Int)
  | jmp (disp : Int)
  | push (r : Nat)
  | pop (r : Nat)
  | callReg (r : Nat)
  | leaveRet
  deriving DecidableEq, Repr

def Op.size : Op → Nat
  | .nop => 1
  | .enter frame => if frame = 0 then 4 else 11
  | .movRR .. => 3
  | .movImm64 .. => 10
  | .movSite .. => 10
  | .movEax _ => 5
  | .xorEax => 2
  | .loadFrame .. | .storeFrame .. | .leaFrame .. | .loadArg .. => 7
  | .loadBase .. | .storeBase .. => 7
  | .storeAt .. => 3
  | .add .. | .sub .. | .cmp .. | .test _ => 3
  | .imul .. => 4
  | .testEax => 2
  | .movsxdRcxEax => 3
  | .cqo => 2
  | .idivRcx => 3
  | .setlAl => 3
  | .movzxRaxAl => 4
  | .movzxEdxDl => 3
  | .movzxEsiSil => 4
  | .andEaxOne => 3
  | .movqXmmGpr .. | .movqGprXmm .. => 5
  | .scalarF64 .. => 4
  | .compareF64 .. => 5
  | .cvtsi2sd .. | .cvttsd2si .. => 5
  | .cmpSafepoint => 4
  | .jcc .. => 6
  | .jmp _ => 5
  | .push r | .pop r => if r < 8 then 1 else 2
  | .callReg _ => 3
  | .leaveRet => 2

theorem Op.size_pos (op : Op) : 0 < op.size := by
  cases op <;> simp only [Op.size] <;> first | omega | (split <;> omega)

/-- What native code takes from outside: the double operations and the native functions,
the heap, the safepoint flag at each poll, and what it must not rely on (the bytes beside
a kind, and the registers after a call). -/
structure World where
  env : Env
  arguments : List Word
  heap : Word → Nat → Word
  requested : Nat → Bool
  beside : Nat → Word
  clobbered : Nat → Value
  clobberedXmm : Nat → Word

structure Flags where
  zero : Bool
  less : Bool
  deriving DecidableEq, Repr

/-- The machine. Arithmetic leaves the flags unknown; `result` and `deopt` are the two
areas that the code writes through pointers. -/
structure Machine where
  gpr : Nat → Value
  xmm : Nat → Word
  flags : Option Flags
  frame : Int → Word
  result : Word
  deopt : Nat → Word
  stack : List Value
  polls : Nat

def Machine.set (m : Machine) (r : Nat) (v : Value) : Machine :=
  { m with gpr := Function.update m.gpr r v }

def Machine.setXmm (m : Machine) (x : Nat) (v : Word) : Machine :=
  { m with xmm := Function.update m.xmm x v }

def Machine.setFlags (m : Machine) (flags : Option Flags) : Machine := { m with flags := flags }

def Machine.setFrame (m : Machine) (disp : Int) (v : Word) : Machine :=
  { m with frame := Function.update m.frame disp v }

def Machine.setDeopt (m : Machine) (cell : Nat) (v : Word) : Machine :=
  { m with deopt := Function.update m.deopt cell v }

def Machine.compare (m : Machine) (a b : Word) : Machine :=
  m.setFlags (some ⟨a == b, a.slt b⟩)

def Machine.word (m : Machine) (r : Nat) : Option Word :=
  match m.gpr r with
  | .word w => some w
  | .pointer _ => none

section

variable (m : Machine)

@[simp] theorem Machine.set_gpr (r : Nat) (v : Value) : (m.set r v).gpr = Function.update m.gpr r v := rfl
@[simp] theorem Machine.set_xmm (r : Nat) (v : Value) : (m.set r v).xmm = m.xmm := rfl
@[simp] theorem Machine.set_flags (r : Nat) (v : Value) : (m.set r v).flags = m.flags := rfl
@[simp] theorem Machine.set_frame (r : Nat) (v : Value) : (m.set r v).frame = m.frame := rfl
@[simp] theorem Machine.set_result (r : Nat) (v : Value) : (m.set r v).result = m.result := rfl
@[simp] theorem Machine.set_deopt (r : Nat) (v : Value) : (m.set r v).deopt = m.deopt := rfl
@[simp] theorem Machine.set_stack (r : Nat) (v : Value) : (m.set r v).stack = m.stack := rfl
@[simp] theorem Machine.set_polls (r : Nat) (v : Value) : (m.set r v).polls = m.polls := rfl

@[simp] theorem Machine.setXmm_gpr (x : Nat) (v : Word) : (m.setXmm x v).gpr = m.gpr := rfl
@[simp] theorem Machine.setXmm_xmm (x : Nat) (v : Word) : (m.setXmm x v).xmm = Function.update m.xmm x v := rfl
@[simp] theorem Machine.setXmm_flags (x : Nat) (v : Word) : (m.setXmm x v).flags = m.flags := rfl
@[simp] theorem Machine.setXmm_frame (x : Nat) (v : Word) : (m.setXmm x v).frame = m.frame := rfl
@[simp] theorem Machine.setXmm_result (x : Nat) (v : Word) : (m.setXmm x v).result = m.result := rfl
@[simp] theorem Machine.setXmm_deopt (x : Nat) (v : Word) : (m.setXmm x v).deopt = m.deopt := rfl
@[simp] theorem Machine.setXmm_stack (x : Nat) (v : Word) : (m.setXmm x v).stack = m.stack := rfl
@[simp] theorem Machine.setXmm_polls (x : Nat) (v : Word) : (m.setXmm x v).polls = m.polls := rfl

@[simp] theorem Machine.setFlags_gpr (fl : Option Flags) : (m.setFlags fl).gpr = m.gpr := rfl
@[simp] theorem Machine.setFlags_xmm (fl : Option Flags) : (m.setFlags fl).xmm = m.xmm := rfl
@[simp] theorem Machine.setFlags_flags (fl : Option Flags) : (m.setFlags fl).flags = fl := rfl
@[simp] theorem Machine.setFlags_frame (fl : Option Flags) : (m.setFlags fl).frame = m.frame := rfl
@[simp] theorem Machine.setFlags_result (fl : Option Flags) : (m.setFlags fl).result = m.result := rfl
@[simp] theorem Machine.setFlags_deopt (fl : Option Flags) : (m.setFlags fl).deopt = m.deopt := rfl
@[simp] theorem Machine.setFlags_stack (fl : Option Flags) : (m.setFlags fl).stack = m.stack := rfl
@[simp] theorem Machine.setFlags_polls (fl : Option Flags) : (m.setFlags fl).polls = m.polls := rfl

@[simp] theorem Machine.setFrame_gpr (d : Int) (v : Word) : (m.setFrame d v).gpr = m.gpr := rfl
@[simp] theorem Machine.setFrame_xmm (d : Int) (v : Word) : (m.setFrame d v).xmm = m.xmm := rfl
@[simp] theorem Machine.setFrame_flags (d : Int) (v : Word) : (m.setFrame d v).flags = m.flags := rfl
@[simp] theorem Machine.setFrame_frame (d : Int) (v : Word) : (m.setFrame d v).frame = Function.update m.frame d v := rfl
@[simp] theorem Machine.setFrame_result (d : Int) (v : Word) : (m.setFrame d v).result = m.result := rfl
@[simp] theorem Machine.setFrame_deopt (d : Int) (v : Word) : (m.setFrame d v).deopt = m.deopt := rfl
@[simp] theorem Machine.setFrame_stack (d : Int) (v : Word) : (m.setFrame d v).stack = m.stack := rfl
@[simp] theorem Machine.setFrame_polls (d : Int) (v : Word) : (m.setFrame d v).polls = m.polls := rfl

@[simp] theorem Machine.setDeopt_gpr (c : Nat) (v : Word) : (m.setDeopt c v).gpr = m.gpr := rfl
@[simp] theorem Machine.setDeopt_xmm (c : Nat) (v : Word) : (m.setDeopt c v).xmm = m.xmm := rfl
@[simp] theorem Machine.setDeopt_flags (c : Nat) (v : Word) : (m.setDeopt c v).flags = m.flags := rfl
@[simp] theorem Machine.setDeopt_frame (c : Nat) (v : Word) : (m.setDeopt c v).frame = m.frame := rfl
@[simp] theorem Machine.setDeopt_result (c : Nat) (v : Word) : (m.setDeopt c v).result = m.result := rfl
@[simp] theorem Machine.setDeopt_deopt (c : Nat) (v : Word) : (m.setDeopt c v).deopt = Function.update m.deopt c v := rfl
@[simp] theorem Machine.setDeopt_stack (c : Nat) (v : Word) : (m.setDeopt c v).stack = m.stack := rfl
@[simp] theorem Machine.setDeopt_polls (c : Nat) (v : Word) : (m.setDeopt c v).polls = m.polls := rfl

end

def kindNumber : EntryKind → Word
  | .none => 0
  | .int32 => 1
  | .float64 => 2

/-- The call site that the compiler cloned for the call at `k`. -/
def siteAt (f : Function) (k : Nat) : Option ClutchCallSite := (f.instructions[k]?).bind (·.site)

/-- `mov r, [base + field]`. -/
def loadField (w : World) (f : Function) : Value → Field → Option Value
  | .pointer (.site k), .siteTarget => do
    let site ← siteAt f k
    some (if site.target.isSome then .pointer (.handle k) else .word 0)
  | .pointer (.site k), .siteGeneration => do
    let site ← siteAt f k
    some (.word (BitVec.ofNat 64 site.expectedGeneration))
  | .pointer (.site k), .siteKind => do
    let site ← siteAt f k
    some (.word (kindNumber site.expectedKind + 256 * w.beside k))
  | .pointer (.handle k), .handleFunction => do
    let handle ← (siteAt f k).bind (·.target)
    some (match handle.function with
      | some id => .pointer (.native id)
      | none => .word 0)
  | .pointer (.handle k), .handleGeneration => do
    let handle ← (siteAt f k).bind (·.target)
    some (.word (BitVec.ofNat 64 handle.generation))
  | .pointer (.handle k), .handleKind => do
    let handle ← (siteAt f k).bind (·.target)
    some (.word (kindNumber handle.kind + 256 * w.beside k))
  | .pointer (.native _), .nativeDeoptValues | .pointer (.native _), .nativeSafepoint =>
    some (.pointer .callee)
  | .pointer (.native id), .nativeCode => some (.pointer (.code id))
  | .word base, .objectWord offset => some (.word (w.heap base offset))
  | _, _ => none

def calleeArguments (w : World) (m : Machine) (id : Nat) (disp : Int) : List Word :=
  (List.range (w.env.arity id)).map fun (i : Nat) => m.frame (disp + 8 * (i : Int))

def Machine.clobber (m : Machine) (w : World) (status : Word) : Machine :=
  { m with
    gpr := fun r =>
      if r = 0 then .word status
      else if r = 1 ∨ r = 2 ∨ r = 6 ∨ r = 7 ∨ 8 ≤ r ∧ r ≤ 11 then w.clobbered r
      else m.gpr r
    xmm := w.clobberedXmm
    flags := none }

/-- `call rax`: the function reads its arguments through `rdi`, writes its result through
`rsi` and returns a status, zero for success. -/
def callCode (w : World) (m : Machine) : Option Machine :=
  match m.gpr 0, m.gpr 7, m.gpr 6 with
  | .pointer (.code id), .pointer (.frame args), .pointer (.frame result) =>
    match w.env.native id (calleeArguments w m id args) with
    | some v => some ((m.setFrame result v).clobber w 0)
    | none => some (m.clobber w 1)
  | _, _, _ => none

def f64Operation (env : Env) : F64Op → Word → Word → Word
  | .add => env.addF64
  | .sub => env.subF64
  | .mul => env.mulF64
  | .div => env.divF64

def f64Compare (env : Env) : F64Predicate → Word → Word → Bool
  | .equal => env.equalF64
  | .lessThan => env.lessThanF64
  | .lessEqual => env.lessEqualF64

/-- `idiv rcx` on `rdx:rax`, which faults where the quotient has no place. -/
def idiv (high low divisor : Word) : Option (Word × Word) :=
  let dividend : Int := high.toInt * 2 ^ 64 + low.toNat
  let quotient := dividend.tdiv divisor.toInt
  if divisor = 0 ∨ quotient < -2 ^ 63 ∨ 2 ^ 63 ≤ quotient then none
  else some (BitVec.ofInt 64 quotient, BitVec.ofInt 64 (dividend.tmod divisor.toInt))

/-- One operation that goes on to the next; `none` is a fault. -/
def exec (w : World) (f : Function) (op : Op) (m : Machine) : Option Machine :=
  match op with
  | .nop | .enter _ => some m
  | .movRR d s => some (m.set d (m.gpr s))
  | .movImm64 d v => some (m.set d (.word v))
  | .movSite d k => some (m.set d (.pointer (.site k)))
  | .movEax v => some (m.set 0 (.word (BitVec.ofNat 64 v)))
  | .xorEax => some ((m.set 0 (.word 0)).setFlags none)
  | .loadFrame r disp => some (m.set r (.word (m.frame disp)))
  | .storeFrame disp r => do
    let v ← m.word r
    some (m.setFrame disp v)
  | .leaFrame r disp => some (m.set r (.pointer (.frame disp)))
  | .loadArg r arg =>
    if m.gpr 11 = .pointer .arguments then some (m.set r (.word (w.arguments.getD arg 0))) else none
  | .loadBase r base field => do
    let v ← loadField w f (m.gpr base) field
    some (m.set r v)
  | .storeBase base r cell => do
    let v ← m.word r
    if m.gpr base = .pointer .deopt then some (m.setDeopt cell v)
    else none
  | .storeAt base r => do
    let v ← m.word r
    if m.gpr base = .pointer .result then some { m with result := v } else none
  | .add d s => do
    let a ← m.word d
    let b ← m.word s
    some ((m.set d (.word (a + b))).setFlags none)
  | .sub d s => do
    let a ← m.word d
    let b ← m.word s
    some ((m.set d (.word (a - b))).setFlags none)
  | .imul d s => do
    let a ← m.word d
    let b ← m.word s
    some ((m.set d (.word (a * b))).setFlags none)
  | .cmp d s => do
    let a ← m.word d
    let b ← m.word s
    some (m.compare a b)
  | .test r =>
    match m.gpr r with
    | .word v => some (m.compare v 0)
    | .pointer _ => some (m.setFlags (some ⟨false, false⟩))
  | .testEax => do
    let a ← m.word 0
    some (m.setFlags (some ⟨a.setWidth 32 == 0, (a.setWidth 32).slt 0⟩))
  | .movsxdRcxEax => do
    let a ← m.word 0
    some (m.set 1 (.word ((a.setWidth 32).signExtend 64)))
  | .cqo => do
    let a ← m.word 0
    some (m.set 2 (.word (if a.slt 0 then -1 else 0)))
  | .idivRcx => do
    let low ← m.word 0
    let high ← m.word 2
    let divisor ← m.word 1
    let (q, r) ← idiv high low divisor
    some (((m.set 0 (.word q)).set 2 (.word r)).setFlags none)
  | .setlAl => do
    let a ← m.word 0
    let flags ← m.flags
    some (m.set 0 (.word ((a &&& ~~~255) ||| ofBool flags.less)))
  | .movzxRaxAl => do
    let a ← m.word 0
    some (m.set 0 (.word (a &&& 255)))
  | .movzxEdxDl => do
    let a ← m.word 2
    some (m.set 2 (.word (a &&& 255)))
  | .movzxEsiSil => do
    let a ← m.word 6
    some (m.set 6 (.word (a &&& 255)))
  | .andEaxOne => do
    let a ← m.word 0
    some ((m.set 0 (.word (a &&& 1))).setFlags none)
  | .movqXmmGpr x g => do
    let v ← m.word g
    some (m.setXmm x v)
  | .movqGprXmm g x => some (m.set g (.word (m.xmm x)))
  | .scalarF64 op d s => some (m.setXmm d (f64Operation w.env op (m.xmm d) (m.xmm s)))
  | .compareF64 p d s =>
    some (m.setXmm d (if f64Compare w.env p (m.xmm d) (m.xmm s) then -1 else 0))
  | .cvtsi2sd x g => do
    let v ← m.word g
    some (m.setXmm x (w.env.i64ToF64 v))
  | .cvttsd2si g x => some (m.set g (.word (w.env.f64ToI64 (m.xmm x))))
  | .cmpSafepoint =>
    if m.gpr 8 = .pointer .safepoint then
      some { m.setFlags (some ⟨!w.requested m.polls, false⟩) with polls := m.polls + 1 }
    else none
  | .push r => some { m with stack := m.gpr r :: m.stack }
  | .pop r =>
    match m.stack with
    | v :: rest => some { m.set r v with stack := rest }
    | [] => none
  | .callReg r => if r = 0 then callCode w m else none
  | .jcc .. | .jmp _ | .leaveRet => none

def fetch (code : List Op) (pc : Int) : Option Op :=
  if 0 ≤ pc then itemAt Op.size code pc.toNat else none

def stepAt (w : World) (f : Function) (code : List Op) (s : Int × Machine) :
    Option (Int × Machine) :=
  match fetch code s.1 with
  | none => none
  | some (.jmp disp) => some (s.1 + 5 + disp, s.2)
  | some (.jcc onEqual disp) =>
    s.2.flags.map fun flags => (s.1 + 6 + if flags.zero = onEqual then disp else 0, s.2)
  | some op => (exec w f op s.2).map fun m => (s.1 + op.size, m)

def Halted (code : List Op) (s : Int × Machine) : Prop := fetch code s.1 = some .leaveRet

end TurboJS.Baseline
