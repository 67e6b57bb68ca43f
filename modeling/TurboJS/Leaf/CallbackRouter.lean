import TurboJS.Leaf.Source

namespace TurboJS.Leaf
open Bytecode

/-! The callback router: its matcher, the closed forms of its three leaves, and its native run. -/

/-! ## The matcher -/

def routerOpcodes : List (Nat × Nat) :=
  [(0, 96), (3, 96), (6, 228), (7, 229), (8, 38), (11, 208), (12, 187), (13, 209), (14, 96),
   (17, 187), (18, 210), (19, 97), (22, 216), (23, 166), (24, 241), (26, 96), (29, 187),
   (30, 211), (31, 97), (34, 196), (37, 166), (38, 241), (40, 97), (43, 97), (46, 97), (49, 188),
   (50, 162), (51, 71), (52, 97), (55, 97), (58, 157), (59, 36), (62, 157), (63, 187), (64, 164),
   (65, 17), (66, 98), (69, 14), (70, 97), (73, 144), (74, 98), (77, 14), (78, 243), (80, 97),
   (83, 144), (84, 98), (87, 14), (88, 243), (90, 97), (93, 188), (94, 27), (95, 17), (96, 176),
   (97, 242), (99, 27), (100, 113), (101, 27), (102, 27), (103, 230), (104, 27), (105, 113),
   (106, 27), (107, 72), (108, 96), (111, 187), (112, 201), (114, 97), (117, 196), (120, 166),
   (121, 241), (123, 97), (126, 97), (129, 97), (132, 188), (133, 162), (134, 71), (135, 97),
   (138, 36), (141, 157), (142, 187), (143, 164), (144, 17), (145, 98), (148, 14), (149, 97),
   (152, 144), (153, 98), (156, 14), (157, 243), (159, 97), (162, 187), (163, 164), (164, 40)]

def routerOperands : List (Nat × Nat) :=
  [(1, 1), (4, 0), (9, 2), (15, 2), (20, 2), (27, 3), (32, 3), (35, 20000), (41, 1), (44, 0),
   (47, 3), (53, 3), (56, 2), (60, 1), (67, 1), (71, 3), (75, 3), (81, 2), (85, 2), (91, 0),
   (109, 4), (115, 4), (118, 5000), (124, 1), (127, 0), (130, 4), (136, 4), (139, 1), (146, 1),
   (150, 4), (154, 4), (160, 1)]

def isCallbackRouterBytecode (f : LeafFunction) : Prop :=
  f.normal = true ∧ f.argCount = 1 ∧ f.varCount = 5 ∧ f.closureVarCount = 3 ∧
    f.code.length = 165 ∧ (∀ x ∈ routerOpcodes, f.code[x.1]? = some (UInt8.ofNat x.2)) ∧
    (∀ x ∈ routerOperands, readBytes f.code x.1 2 = some x.2) ∧ f.code[113]? = some 4

instance (f : LeafFunction) : Decidable (isCallbackRouterBytecode f) :=
  inferInstanceAs (Decidable (_ ∧ _))

inductive FastLeaf where
  | affine (multiplier addend : Float64)
  | imul (constant : BitVec 32)
  | xor (constant : BitVec 32)
  deriving DecidableEq, Repr

/-- `(int32_t)(uint32_t)constant` of a double. The conversion of a negative one is left to the
compiler: it is `wrap`. -/
def fastConstant (wrap : ℤ → BitVec 32) (c : ℤ) : BitVec 32 := if 0 ≤ c then toBits c else wrap c

def Plan.fast (wrap : ℤ → BitVec 32) (plan : Plan) : Option FastLeaf :=
  if plan.kind = .affine ∧ plan.affineArgument = 0 then
    some (.affine plan.affineMultiplier plan.affineAddend)
  else
    match plan.instructions with
    | [arg, constant, op, zero, or] =>
      if arg.opcode = .arg ∧ arg.argument = 0 ∧ constant.opcode = .constant ∧
          zero.opcode = .constant ∧ zero.constant = 0 ∧ or.opcode = .or ∧
          int32Min ≤ constant.constant ∧ constant.constant < 2 ^ 32 then
        match op.opcode with
        | .imul => some (.imul (fastConstant wrap constant.constant))
        | .xor => some (.xor (fastConstant wrap constant.constant))
        | _ => none
      else none
    | _ => none

def FastLeaf.execute (leaf : FastLeaf) (x : BitVec 32) : BitVec 32 :=
  match leaf with
  | .affine multiplier addend => ((x.toInt : Float64) * multiplier + addend).toInt32
  | .imul constant => x * constant
  | .xor constant => x ^^^ constant

/-- The sum after `n` calls of two leaves in turn, the first with `start`. -/
def alternate (even odd : FastLeaf) (start n : Nat) (sum : BitVec 32) : BitVec 32 :=
  (List.range n).foldl (fun sum i =>
    sum + (if i % 2 = 1 then odd else even).execute (BitVec.ofNat 32 (i + start))) sum

def routerRounds (first second : FastLeaf) (rounds : Nat) : BitVec 32 :=
  (List.range rounds).foldl (fun sum r => alternate first second r 20000 sum) 0

structure Captured where
  leaf : LeafFunction
  plan : Option Plan

structure CapturedLeaves where
  first : Captured
  second : Captured
  replacement : Captured

def World.canonicalImul (w : World) (atoms : Atoms) : Bool :=
  match w.get (.object w.globalObject) atoms.math with
  | some (.object math) =>
    match w.get (.object math) atoms.imul with
    | some (.object f) => w.isImul f
    | _ => false
  | _ => false

def Plan.probes (plan : Plan) (w : World) (atoms : Atoms) : Bool :=
  match plan.call (plan.instructions.length + 1)
      ⟨w.realm atoms, [.int 0], fun _ _ => none, fun _ => none⟩ (fun _ => none) with
  | some (.handled _ _) => true
  | _ => false

inductive RouterOutcome where
  | declined
  | interrupted
  | handled (value : BitVec 32)
  deriving DecidableEq, Repr

/-- `turbojs_try_callback_router_call`; `interrupted` is whether one of its polls answers so. -/
def callRouter (wrap : ℤ → BitVec 32) (atoms : Atoms) (w : World) (router : LeafFunction)
    (captured : CapturedLeaves) (args : List LeafValue) (interrupted : Bool) : RouterOutcome :=
  match args, captured.first.plan, captured.second.plan, captured.replacement.plan with
  | .int rounds :: _, some first, some second, some replacement =>
    if isCallbackRouterBytecode router ∧ 0 ≤ rounds.toInt ∧ rounds.toInt ≤ 100000 ∧
        rounds.toInt ≤ int32Max - 20000 ∧ w.canonicalImul atoms ∧
        (∃ g ∈ second.guard, w.isImul g.imulFunction = true) ∧ first.probes w atoms ∧
        second.probes w atoms ∧ replacement.probes w atoms then
      match first.fast wrap, second.fast wrap, replacement.fast wrap with
      | some first, some second, some replacement =>
        if interrupted then .interrupted
        else
          .handled (alternate first replacement 0 5000
            (routerRounds first second rounds.toInt.toNat))
      | _, _, _ => .declined
    else .declined
  | _, _, _, _ => .declined

/-- What the code of the router asks from its surroundings: new arrays, whose names begin at `base`,
and calls of functions. -/
def routerOps (w : World) (functions : Nat → Option LeafFunction) (base : Nat) :
    CallOps (List (List JSValue)) where
  getArrayEl := fun arrays o k =>
    match o, k with
    | .object o, .number n =>
      if base ≤ o ∧ 0 ≤ n then (arrays[o - base]?).bind fun a => a[n.toNat]? else none
    | _, _ => none
  putArrayEl := fun arrays o k v =>
    match o, k with
    | .object o, .number n =>
      if base ≤ o ∧ 0 ≤ n then
        (arrays[o - base]?).bind fun a =>
          if n.toNat < a.length then some (arrays.set (o - base) (a.set n.toNat v)) else none
      else none
    | _, _ => none
  getLength := fun _ _ => none
  getField := fun _ _ _ => none
  putField := fun _ _ _ _ => none
  getVar := fun _ _ => none
  call := fun arrays f _ args =>
    match f with
    | .object o =>
      (functions o).bind fun leaf => (leaf.interpret w args).map fun v => (v, arrays)
    | _ => none
  arrayFrom := fun arrays values => some (.object (base + arrays.length), arrays ++ [values])
  thisFunction := .undefined

def Returns {H : Type} (ops : CallOps H) (b : FunctionBytecode) (s : State H) (v : JSValue) : Prop :=
  ∃ t next, Foundation.Runs (stepFunction ops b) (fun _ => True) s t ∧
    decode b.code t.pc = some (.plain .return, next) ∧ t.stack.head? = some v

end TurboJS.Leaf
