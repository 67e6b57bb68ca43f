import TurboJS.Frontend.Lowering
import TurboJS.Foundation.Run

namespace TurboJS.Frontend
open Foundation

/-! The stack machine of the bytecode on the values that int32 arguments lead to. -/

/-- The values. A number that is no integer of the range where doubles are exact, or that is
the negative zero, is `inexact`. -/
inductive Value where
  | undefined
  | bool (b : Bool)
  | integer (n : Int)
  | inexact
  deriving DecidableEq, Repr

def Value.ofInt (n : Int) : Value := if -2 ^ 53 ≤ n ∧ n ≤ 2 ^ 53 then .integer n else .inexact

/-- `ToNumber`, when it gives an exact integer. -/
def Value.toInt : Value → Option Int
  | .bool b => some (if b then 1 else 0)
  | .integer n => some n
  | .undefined | .inexact => none

/-- `ToBoolean`. Of an inexact number it is not known. -/
def Value.truthy : Value → Option Bool
  | .undefined => some false
  | .bool b => some b
  | .integer n => some (n ≠ 0)
  | .inexact => none

/-- The operators on two integers. A product or quotient that is zero has the sign of its
operands, a remainder the sign of its dividend. -/
def Arithmetic.onInts : Arithmetic → Int → Int → Value
  | .add, m, n => .ofInt (m + n)
  | .sub, m, n => .ofInt (m - n)
  | .mul, m, n => if m * n = 0 ∧ (m < 0 ∨ n < 0) then .inexact else .ofInt (m * n)
  | .div, m, n => if n = 0 ∨ ¬ n ∣ m ∨ m = 0 ∧ n < 0 then .inexact else .ofInt (m / n)
  | .mod, m, n => if n = 0 ∨ m < 0 ∧ m.tmod n = 0 then .inexact else .ofInt (m.tmod n)
  | .lt, m, n => .bool (m < n)

def Arithmetic.onNaN : Arithmetic → Value
  | .lt => .bool false
  | _ => .inexact

def Arithmetic.onValues (op : Arithmetic) (a b : Value) : Option Value :=
  match a.toInt, b.toInt with
  | some m, some n => some (op.onInts m n)
  | _, _ => if a = .undefined ∨ b = .undefined then some op.onNaN else none

structure NumberState where
  pc : Nat
  stack : List Value
  locals : Nat → Value

def NumberState.start : NumberState := ⟨0, [], fun _ => .undefined⟩

def takeBranch (s : NumberState) (stack : List Value) (next : Nat) (target : Int) (taken : Bool) :
    Option NumberState :=
  if taken then
    if 0 ≤ target then some { s with pc := target.toNat, stack } else none
  else some { s with pc := next, stack }

/-- One operation; `next` is the offset behind it. Nothing is known of the operations that the
translation leaves to the runtime, and no value of this machine can be called. -/
def numberExec (args : List Int) (o : Operation) (next : Nat) (s : NumberState) :
    Option NumberState :=
  match o, s.stack with
  | .nop, _ => some { s with pc := next }
  | .pushI32 n, st => some { s with pc := next, stack := .integer n :: st }
  | .getArg index, st =>
    some { s with pc := next, stack := (args[index]?.map .integer).getD .undefined :: st }
  | .getLoc index, st => some { s with pc := next, stack := s.locals index :: st }
  | .putLoc index, v :: st =>
    some { s with pc := next, stack := st, locals := Function.update s.locals index v }
  | .setLoc index, v :: _ =>
    some { s with pc := next, locals := Function.update s.locals index v }
  | .arithmetic op, b :: a :: st => do
    let v ← op.onValues a b
    some { s with pc := next, stack := v :: st }
  | .branch .goto target, st => takeBranch s st next target true
  | .branch .ifTrue target, v :: st => do
    let b ← v.truthy
    takeBranch s st next target b
  | .branch .ifFalse target, v :: st => do
    let b ← v.truthy
    takeBranch s st next target !b
  | _, _ => none

def operationAt (code : List UInt8) (offset : Nat) : Option (Operation × Nat) :=
  (fetch code offset).map fun p => (operation code offset p.1, p.2)

def numberStep (code : List UInt8) (args : List Int) (s : NumberState) : Option NumberState := do
  let (o, next) ← operationAt code s.pc
  numberExec args o next s

def atReturn (code : List UInt8) (s : NumberState) : Bool :=
  (operationAt code s.pc).any fun p => p.1 = .ret

def NumberRuns (code : List UInt8) (args : List Int) (s : NumberState) : Prop :=
  Runs (numberStep code args) (fun s => atReturn code s = false) .start s

def NumberReturns (code : List UInt8) (args : List Int) (v : Value) : Prop :=
  ∃ s, NumberRuns code args s ∧ atReturn code s = true ∧ s.stack.head? = some v

/-- The values that an operator maps to a number that the checked IR operation also has: no
negative zero, and an exact quotient. -/
def Arithmetic.Exact : Arithmetic → Int → Int → Prop
  | .add, _, _ | .sub, _, _ | .lt, _, _ => True
  | .mul, m, n => ¬ (m * n = 0 ∧ (m < 0 ∨ n < 0))
  | .div, m, n => n = 0 ∨ n ∣ m ∧ ¬ (m = 0 ∧ n < 0)
  | .mod, m, n => n = 0 ∨ ¬ (m < 0 ∧ m.tmod n = 0)

/-- An operation does not read a local before it is written, has an exact result, and does not
call. -/
def Operation.Exact (o : Operation) (s : NumberState) : Prop :=
  match o, s.stack with
  | .getLoc index, _ => s.locals index ≠ .undefined
  | .arithmetic op, b :: a :: _ => ∀ m n, a.toInt = some m → b.toInt = some n → op.Exact m n
  | .call _, _ | .callMethod _ _, _ => False
  | _, _ => True

def ExactAt (code : List UInt8) (s : NumberState) : Prop :=
  ∀ o next, operationAt code s.pc = some (o, next) → o.Exact s

end TurboJS.Frontend
