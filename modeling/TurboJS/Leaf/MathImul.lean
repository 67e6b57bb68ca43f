import TurboJS.Leaf.Stateful

namespace TurboJS.Leaf
open Bytecode

/-! When `Math.imul` is inlined: its lookup, the three guards, and the runs in which globals change
between them. -/

structure Atoms where
  math : Nat
  imul : Nat
  charCodeAt : Nat

def Atoms.named (a : Atoms) (atom : Nat) (name : String) : Bool :=
  (name = "Math" ∧ atom = a.math) ∨ (name = "imul" ∧ atom = a.imul) ∨
    (name = "charCodeAt" ∧ atom = a.charCodeAt)

inductive OwnProperty where
  | normal (v : JSValue)
  | autoinit (v : JSValue)
  | accessor (result : Option JSValue)

def OwnProperty.read : OwnProperty → Option JSValue
  | .normal v | .autoinit v => some v
  | .accessor result => result

/-- The globals of a realm, and which addresses hold the function of the engine. `inherited` is what
a property reads as that the value itself does not have. -/
structure World where
  own : Nat → Nat → Option OwnProperty
  inherited : JSValue → Nat → Option JSValue
  lexical : Nat → Option JSValue
  globalObject : Nat
  stringPrototype : Nat
  isImul : Nat → Bool

namespace World

def get (w : World) (v : JSValue) (atom : Nat) : Option JSValue :=
  match v with
  | .object o =>
    match w.own o atom with
    | some p => p.read
    | none => w.inherited v atom
  | v => w.inherited v atom

def global (w : World) (atom : Nat) : Option JSValue :=
  match w.lexical atom with
  | some .uninitialized => none
  | some v => some v
  | none => w.get (.object w.globalObject) atom

/-- The bytecode's lookup of `Math.imul`. -/
def lookup (w : World) (atoms : Atoms) : Option JSValue :=
  (w.global atoms.math).bind fun math => w.get math atoms.imul

def YieldsBuiltin (w : World) (atoms : Atoms) : Prop :=
  ∃ f, w.lookup atoms = some (.object f) ∧ w.isImul f = true

def realm (w : World) (atoms : Atoms) : Realm where
  named := atoms.named
  globalObject := w.globalObject
  stringPrototype := w.stringPrototype
  ownValue := fun o atom =>
    match w.own o atom with
    | some (.normal v) => some v
    | _ => none

def materialise (w : World) (o atom : Nat) : World :=
  match w.own o atom with
  | some (.autoinit v) =>
    { w with own := Function.update w.own o (Function.update (w.own o) atom (some (.normal v))) }
  | _ => w

/-- The world after `JS_GetGlobalVar`; `after` is what a getter leaves behind. -/
def afterGlobal (w : World) (atom : Nat) (after : World) : World :=
  match w.lexical atom, w.own w.globalObject atom with
  | some _, _ | none, some (.normal _) => w
  | none, some (.autoinit _) => w.materialise w.globalObject atom
  | _, _ => after

/-- The last check of the guard, on the object that `Math` is. -/
def imulOf (w : World) (math atom : Nat) : Bool × World :=
  let w := w.materialise math atom
  match w.own math atom with
  | some (.normal (.object f)) => (w.isImul f, w)
  | _ => (false, w)

/-- `turbojs_guard_builtin_math_imul`: the answer, and the world after it. -/
def guardBuiltinMathImul (w : World) (mathAtom imulAtom : Nat) (after : World) : Bool × World :=
  let v := w.global mathAtom
  let w := w.afterGlobal mathAtom after
  match v with
  | some (.object math) =>
    match w.own w.globalObject mathAtom with
    | some (.normal (.object found)) =>
      if found = math then w.imulOf math imulAtom else (false, w)
    | _ => (false, w)
  | _ => (false, w)

end World

/-- Whether the instructions from index `i` on come to a multiplication. -/
def Plan.multipliesFrom (plan : Plan) (env : CallEnv) : Nat → Nat → Evaluation → Bool
  | 0, _, _ => false
  | fuel + 1, i, s =>
    match plan.instructions[i]? with
    | none => false
    | some instruction =>
      match s.step env plan.instructions.length instruction with
      | some (.next t) => instruction.opcode = .imul || plan.multipliesFrom env fuel (i + 1) t
      | some (.jump k t) => plan.multipliesFrom env fuel k t
      | _ => false

def Plan.multiplies (plan : Plan) (fuel : Nat) (env : CallEnv) (cells : Cells) : Bool :=
  match plan.kind with
  | .affine | .stateful => false
  | .stringHash =>
    match plan.hashedUnits env with
    | some (_, units) => !units.isEmpty
    | none => false
  | .general =>
    plan.Admits env.realm && plan.multipliesFrom env fuel 0 (.start env cells)

def unaryMultiplies (argument : BitVec 32) : List Instruction → List Float64 → Bool
  | [], _ => false
  | i :: is, stack =>
    match unaryStep argument i stack with
    | some stack => i.opcode = .imul || unaryMultiplies argument is stack
    | none => false

/-- Whether `turbojs_execute_tiny_leaf_i32` multiplies. -/
def Plan.multipliesI32 (plan : Plan) (argument : BitVec 32) : Bool :=
  plan.kind ≠ .affine && unaryMultiplies argument plan.instructions []

def polymorphicMultiplies (first second : Plan) (mask : BitVec 32) : Nat → BitVec 32 → Bool
  | 0, _ => false
  | n + 1, i =>
    let selected := if i &&& mask ≠ 0 then first else second
    selected.multipliesI32 i ||
      ((selected.executeI32 i).isSome && polymorphicMultiplies first second mask n (i + 1))

/-- `jit_inline_leaf_state` with the plan. -/
inductive CachedPlan where
  | untried
  | unsupported
  | planned (plan : Plan)

/-- The engine between two steps of a program. `uses` has the worlds in which it has made a native
multiplication. -/
structure System where
  world : World
  plans : Nat → CachedPlan
  uses : List World

def System.start (w : World) : System := ⟨w, fun _ => .untried, []⟩

inductive Action where
  | change (w : World)
  | call (f fuel : Nat) (args : List LeafValue) (property : Nat → Nat → Option LeafValue)
      (codeUnits : LeafValue → Option (List (BitVec 16))) (cells : Cells)
  | polymorphic (f g : Nat) (sameTargets : Bool) (mask : BitVec 32) (count : Nat) (i : BitVec 32)
  | xorshift (mathAtom imulAtom : Nat) (after : World) (count : Nat)

section

variable (atoms : Atoms) (code : Nat → LeafFunction)

def System.cached (s : System) (f : Nat) : System × Option Plan :=
  match s.plans f with
  | .unsupported => (s, none)
  | .planned plan => (s, some plan)
  | .untried =>
    match buildTinyLeafPlan (s.world.realm atoms) (code f) with
    | some plan => ({ s with plans := Function.update s.plans f (.planned plan) }, some plan)
    | none => ({ s with plans := Function.update s.plans f .unsupported }, none)

def System.use (s : System) (multiplied : Bool) : System :=
  if multiplied then { s with uses := s.world :: s.uses } else s

def System.step (s : System) : Action → System
  | .change w => { s with world := w }
  | .call f fuel args property codeUnits cells =>
    match s.cached atoms code f with
    | (s, none) => s
    | (s, some plan) =>
      s.use (plan.multiplies fuel ⟨s.world.realm atoms, args, property, codeUnits⟩ cells)
  | .polymorphic f g sameTargets mask count i =>
    match s.cached atoms code f with
    | (s, none) => s
    | (s, some first) =>
      match s.cached atoms code g with
      | (s, none) => s
      | (s, some second) =>
        if sameTargets then s.use (polymorphicMultiplies first second mask count i) else s
  | .xorshift mathAtom imulAtom after count =>
    -- The detector has compared the names.
    if atoms.named mathAtom "Math" ∧ atoms.named imulAtom "imul" then
      let (valid, w) := s.world.guardBuiltinMathImul mathAtom imulAtom after
      System.use { s with world := w } (valid && count ≠ 0)
    else s

def System.run (s : System) (actions : List Action) : System :=
  actions.foldl (System.step atoms code) s

def System.KeepsRecorded (s : System) (w : World) : Prop :=
  ∀ f plan g, s.plans f = .planned plan → plan.guard = some g →
    s.world.isImul g.imulFunction = true → w.isImul g.imulFunction = true

def System.RecordsBuiltin (s : System) (f : Nat) : Prop :=
  s.plans f = .untried → ∀ plan g,
    buildTinyLeafPlan (s.world.realm atoms) (code f) = some plan → plan.guard = some g →
      s.world.isImul g.imulFunction = true

/-- A plan that looks at `Math` is not used under another binding of the name. -/
def System.Unshadowed (s : System) (f : Nat) : Prop :=
  ∀ plan, (s.cached atoms code f).2 = some plan → plan.guard.isSome = true →
    s.world.lexical atoms.math = none

def System.Admitted (s : System) (f : Nat) : Prop :=
  ∀ plan, (s.cached atoms code f).2 = some plan → plan.Admits (s.world.realm atoms)

def System.Meets (s : System) : Action → Prop
  | .change w => s.KeepsRecorded w
  | .call f _ _ _ _ _ => s.RecordsBuiltin atoms code f ∧ s.Unshadowed atoms code f
  | .polymorphic f g _ _ _ _ =>
    let t := (s.cached atoms code f).1
    (s.RecordsBuiltin atoms code f ∧ s.Unshadowed atoms code f ∧ s.Admitted atoms code f) ∧
      t.RecordsBuiltin atoms code g ∧ t.Unshadowed atoms code g ∧ t.Admitted atoms code g
  | .xorshift mathAtom _ after _ =>
    let w := s.world.afterGlobal mathAtom after
    s.KeepsRecorded w ∧ (s.world.lexical mathAtom = none → w.lexical mathAtom = none)

def System.AllMeet (s : System) : List Action → Prop
  | [] => True
  | a :: as => s.Meets atoms code a ∧ (s.step atoms code a).AllMeet as

end

section

variable {plan : Plan} {env : CallEnv}

theorem Plan.multipliesFrom_imul {fuel i : Nat} {s : Evaluation}
    (h : plan.multipliesFrom env fuel i s = true) :
    ∃ instruction ∈ plan.instructions, instruction.opcode = .imul := by
  induction fuel generalizing i s with
  | zero => cases h
  | succ fuel ih =>
    unfold multipliesFrom at h
    split at h
    · cases h
    · rename_i instruction hi
      split at h
      · rw [Bool.or_eq_true, decide_eq_true_eq] at h
        rcases h with hop | h
        · exact ⟨instruction, List.mem_of_getElem? hi, hop⟩
        · exact ih h
      · exact ih h
      · cases h

theorem unaryMultiplies_imul {argument : BitVec 32} {is : List Instruction} {stack : List Float64}
    (h : unaryMultiplies argument is stack = true) :
    ∃ instruction ∈ is, instruction.opcode = .imul := by
  induction is generalizing stack with
  | nil => cases h
  | cons i is ih =>
    unfold unaryMultiplies at h
    split at h
    · rw [Bool.or_eq_true, decide_eq_true_eq] at h
      rcases h with hop | h
      · exact ⟨i, List.mem_cons_self, hop⟩
      · obtain ⟨j, hj, hop⟩ := ih h
        exact ⟨j, List.mem_cons_of_mem i hj, hop⟩
    · cases h

theorem Plan.multiplies_holds {fuel : Nat} {cells : Cells} {realm : Realm}
    (hp : plan.Guarded realm) (h : plan.multiplies fuel env cells = true) : ∃ g, plan.guard = some g ∧ g.Holds env.realm := by
  unfold multiplies at h
  split at h
  · cases h
  · cases h
  · split at h
    · rename_i hash units hu
      unfold hashedUnits at hu
      simp only [Option.bind_eq_bind, Option.bind_eq_some_iff] at hu
      obtain ⟨_, -, g, hg, _, -, hu⟩ := hu
      split at hu
      · rename_i hall
        exact ⟨g, hg, hall.1⟩
      · cases hu
    · cases h
  · rw [Bool.and_eq_true, decide_eq_true_eq] at h
    obtain ⟨g, hg⟩ := Option.isSome_iff_exists.mp (hp.imul (multipliesFrom_imul h.2))
    exact ⟨g, hg, h.1 g hg⟩

theorem polymorphicMultiplies_imul {first second : Plan} {mask i : BitVec 32} {n : Nat}
    (h : polymorphicMultiplies first second mask n i = true) :
    (∃ instruction ∈ first.instructions, instruction.opcode = .imul) ∨
      ∃ instruction ∈ second.instructions, instruction.opcode = .imul := by
  induction n generalizing i with
  | zero => cases h
  | succ n ih =>
    simp only [polymorphicMultiplies, Bool.or_eq_true, Bool.and_eq_true] at h
    rcases h with h | h
    · rw [Plan.multipliesI32, Bool.and_eq_true] at h
      have himul := unaryMultiplies_imul h.2
      split at himul
      · exact .inl himul
      · exact .inr himul
    · exact ih h.2

end

section

variable {atoms : Atoms} {w : World}

theorem Atoms.eq_math {atom : Nat} (h : atoms.named atom "Math" = true) : atom = atoms.math := by
  simpa [named] using h

theorem Atoms.eq_imul {atom : Nat} (h : atoms.named atom "imul" = true) : atom = atoms.imul := by
  simpa [named] using h

theorem World.own_of_ownObject {o atom v : Nat} (h : (w.realm atoms).ownObject o atom = some v) :
    w.own o atom = some (.normal (.object v)) := by
  simp only [Realm.ownObject, realm] at h
  split at h
  · rename_i x hx
    cases h
    split at hx
    · rename_i y hy
      cases hx
      exact hy
    · cases hx
  · cases h

theorem World.lookup_of_own {math f : Nat} (hl : w.lexical atoms.math = none)
    (hmath : w.own w.globalObject atoms.math = some (.normal (.object math)))
    (himul : w.own math atoms.imul = some (.normal (.object f))) :
    w.lookup atoms = some (.object f) := by
  simp only [lookup, global, hl, get, hmath, OwnProperty.read, Option.bind_some, himul]

theorem World.yieldsBuiltin_of_holds {g : ImulGuard} (hmath : g.mathAtom = atoms.math)
    (himul : g.imulAtom = atoms.imul) (hl : w.lexical atoms.math = none)
    (hg : g.Holds (w.realm atoms)) (hb : w.isImul g.imulFunction = true) :
    w.YieldsBuiltin atoms := by
  obtain ⟨hm, hi⟩ := hg
  rw [hmath] at hm
  rw [himul] at hi
  exact ⟨g.imulFunction, lookup_of_own hl (own_of_ownObject hm) (own_of_ownObject hi), hb⟩

/-- What `materialise` leaves of a world. -/
structure World.Initialises (w w' : World) : Prop where
  lexical : w'.lexical = w.lexical
  globalObject : w'.globalObject = w.globalObject
  isImul : w'.isImul = w.isImul
  normal : ∀ o atom v, w.own o atom = some (.normal v) → w'.own o atom = some (.normal v)

theorem World.materialise_initialises (o atom : Nat) : w.Initialises (w.materialise o atom) := by
  unfold materialise
  split
  · rename_i v hv
    refine ⟨rfl, rfl, rfl, ?_⟩
    intro o' atom' v' hv'
    by_cases ho : o' = o
    · subst ho
      by_cases ha : atom' = atom
      · subst ha
        rw [hv] at hv'
        cases hv'
      · simpa [ha] using hv'
    · simpa [ho] using hv'
  · exact ⟨rfl, rfl, rfl, fun _ _ _ h => h⟩

theorem World.guardBuiltinMathImul_world (w : World) (mathAtom imulAtom : Nat) (after : World) :
    (w.guardBuiltinMathImul mathAtom imulAtom after).2.isImul =
      (w.afterGlobal mathAtom after).isImul := by
  unfold guardBuiltinMathImul
  dsimp only
  split
  · split
    · split
      · unfold imulOf
        dsimp only
        split <;> exact (World.materialise_initialises _ _).isImul
      · rfl
    · rfl
  · rfl

theorem World.guardBuiltinMathImul_sound {after w' : World}
    (hnew : w.lexical atoms.math = none → (w.afterGlobal atoms.math after).lexical atoms.math = none)
    (h : w.guardBuiltinMathImul atoms.math atoms.imul after = (true, w')) :
    w'.YieldsBuiltin atoms := by
  unfold guardBuiltinMathImul at h
  dsimp only at h
  split at h
  · rename_i math hglobal
    split at h
    · rename_i found hfound
      split at h
      · rename_i hsame
        subst hsame
        have hinit := (w.afterGlobal atoms.math after).materialise_initialises found atoms.imul
        unfold imulOf at h
        dsimp only at h
        split at h
        · rename_i f hf
          rw [Prod.mk.injEq] at h
          obtain ⟨hb, rfl⟩ := h
          refine ⟨f, ?_, hb⟩
          cases hl : w.lexical atoms.math with
          | none =>
            refine lookup_of_own (by rw [hinit.lexical, hnew hl]) ?_ hf
            rw [hinit.globalObject]
            exact hinit.normal _ _ _ hfound
          | some v =>
            -- A binding of the name has been read, and no code has run.
            have hsame : w.afterGlobal atoms.math after = w := by simp only [afterGlobal, hl]
            rw [hsame] at hinit hf ⊢
            have hread : ((w.materialise found atoms.imul).global atoms.math) = some (.object found) := by
              have hv : v = .object found := by
                rw [global, hl] at hglobal
                split at hglobal
                · cases hglobal
                · rename_i u hne hu
                  cases hu
                  exact Option.some.inj hglobal
                · rename_i hnone
                  cases hnone
              rw [global, hinit.lexical, hl, hv]
            rw [lookup, hread, Option.bind_some, get, hf]
            rfl
        · cases h
      · cases h
    · cases h
  · cases h

end

structure Plan.RecordsImul (atoms : Atoms) (w : World) (plan : Plan) : Prop where
  names : ∀ g, plan.guard = some g → g.mathAtom = atoms.math ∧ g.imulAtom = atoms.imul
  builtin : ∀ g, plan.guard = some g → w.isImul g.imulFunction = true
  guarded : ∃ realm, plan.Guarded realm

/-- Every plan has recorded the function of the engine, and no multiplication has been made where
the lookup yields something else. -/
structure System.Sound (atoms : Atoms) (s : System) : Prop where
  plans : ∀ f plan, s.plans f = .planned plan → plan.RecordsImul atoms s.world
  uses : ∀ w ∈ s.uses, w.YieldsBuiltin atoms

section

variable {atoms : Atoms} {code : Nat → LeafFunction} {s t : System} {f g : Nat} {plan : Plan}
  {found : Option Plan}

theorem Plan.RecordsImul.yields {w : World} {g : ImulGuard} (h : plan.RecordsImul atoms w)
    (hl : w.lexical atoms.math = none) (hg : plan.guard = some g)
    (hholds : g.Holds (w.realm atoms)) : w.YieldsBuiltin atoms := by
  obtain ⟨hmath, himul⟩ := h.names g hg
  exact World.yieldsBuiltin_of_holds hmath himul hl hholds (h.builtin g hg)

theorem System.start_sound (w : World) : (System.start w).Sound atoms where
  plans := by
    intro f plan h
    cases h
  uses := by
    intro w h
    cases h

theorem System.Sound.change (hs : s.Sound atoms) {w : World} (hw : s.KeepsRecorded w) :
    System.Sound atoms { s with world := w } where
  plans := fun f plan hf =>
    let h := hs.plans f plan hf
    ⟨h.names, fun g hg => hw f plan g hf hg (h.builtin g hg), h.guarded⟩
  uses := hs.uses

theorem System.cached_cases (h : s.cached atoms code f = (t, found)) :
    (t = s ∧ ∀ plan, found = some plan → s.plans f = .planned plan) ∨
    (s.plans f = .untried ∧ found = buildTinyLeafPlan (s.world.realm atoms) (code f) ∧
      ∃ c, t = { s with plans := Function.update s.plans f c } ∧
        ∀ plan, c = .planned plan ↔ found = some plan) := by
  unfold System.cached at h
  cases hp : s.plans f with
  | unsupported =>
    rw [hp] at h
    cases h
    refine .inl ⟨rfl, ?_⟩
    intro plan he
    cases he
  | planned plan =>
    rw [hp] at h
    cases h
    refine .inl ⟨rfl, ?_⟩
    intro plan' he
    cases he
    rfl
  | untried =>
    rw [hp] at h
    dsimp only at h
    generalize hb : buildTinyLeafPlan (s.world.realm atoms) (code f) = built at h
    cases built with
    | none =>
      cases h
      refine .inr ⟨rfl, rfl, _, rfl, ?_⟩
      intro plan
      simp only [reduceCtorEq]
    | some plan =>
      cases h
      refine .inr ⟨rfl, rfl, _, rfl, ?_⟩
      intro plan'
      rw [CachedPlan.planned.injEq, Option.some.injEq]

theorem System.Sound.cached (hs : s.Sound atoms) (hr : s.RecordsBuiltin atoms code f)
    (h : s.cached atoms code f = (t, found)) :
    t.Sound atoms ∧ t.world = s.world ∧
      ∀ plan, found = some plan → plan.RecordsImul atoms s.world := by
  rcases System.cached_cases h with ⟨rfl, hfound⟩ | ⟨huntried, hb, c, rfl, hc⟩
  · exact ⟨hs, rfl, fun plan he => hs.plans f plan (hfound plan he)⟩
  · have hnew : ∀ plan, found = some plan → plan.RecordsImul atoms s.world := by
      intro plan he
      rw [he] at hb
      have hguarded := buildTinyLeafPlan_guarded hb.symm
      refine ⟨?_, fun g hg => hr huntried plan g hb.symm hg, _, hguarded⟩
      intro g hg
      obtain ⟨hmath, himul, -⟩ := hguarded.found g hg
      exact ⟨Atoms.eq_math hmath, Atoms.eq_imul himul⟩
    refine ⟨⟨?_, hs.uses⟩, rfl, hnew⟩
    intro f' plan hf
    dsimp only at hf
    by_cases he : f' = f
    · subst he
      rw [Function.update_self] at hf
      exact hnew plan ((hc plan).mp hf)
    · rw [Function.update_of_ne he] at hf
      exact hs.plans f' plan hf

theorem System.Sound.use (hs : s.Sound atoms) {multiplied : Bool}
    (h : multiplied = true → s.world.YieldsBuiltin atoms) : (s.use multiplied).Sound atoms := by
  unfold System.use
  split
  · rename_i hm
    refine ⟨hs.plans, ?_⟩
    intro w hw
    rcases List.mem_cons.mp hw with rfl | hw
    · exact h hm
    · exact hs.uses w hw
  · exact hs

theorem Plan.RecordsImul.admitted {w : World} (h : plan.RecordsImul atoms w)
    (hl : plan.guard.isSome = true → w.lexical atoms.math = none)
    (ha : plan.Admits (w.realm atoms))
    (hi : ∃ instruction ∈ plan.instructions, instruction.opcode = .imul) :
    w.YieldsBuiltin atoms := by
  obtain ⟨realm, hguarded⟩ := h.guarded
  obtain ⟨g, hg⟩ := Option.isSome_iff_exists.mp (hguarded.imul hi)
  exact h.yields (hl (hguarded.imul hi)) hg (ha g hg)

/-- One step under the condition. -/
theorem System.Sound.step (hs : s.Sound atoms) {a : Action} (hm : s.Meets atoms code a) :
    (s.step atoms code a).Sound atoms := by
  cases a with
  | change w => exact hs.change hm
  | call f fuel args property codeUnits cells =>
    obtain ⟨hr, hl⟩ := hm
    unfold System.step
    dsimp only
    split
    · rename_i t hc
      exact (hs.cached hr hc).1
    · rename_i t plan hc
      obtain ⟨ht, hworld, hplan⟩ := hs.cached hr hc
      refine ht.use fun hmul => ?_
      obtain ⟨realm, hguarded⟩ := (hplan plan rfl).guarded
      obtain ⟨g, hg, hholds⟩ := Plan.multiplies_holds hguarded hmul
      rw [hworld] at hholds ⊢
      have hshadow := hl plan (by rw [hc]) (by rw [hg]; rfl)
      exact (hplan plan rfl).yields hshadow hg hholds
  | polymorphic f g sameTargets mask count i =>
    obtain ⟨⟨hrf, hlf, haf⟩, hrg, hlg, hag⟩ := hm
    unfold System.step
    dsimp only
    split
    · rename_i t hc
      exact (hs.cached hrf hc).1
    · rename_i t first hc
      obtain ⟨ht, hworld, hfirst⟩ := hs.cached hrf hc
      rw [hc] at hrg hlg hag
      split
      · rename_i u hd
        exact (ht.cached hrg hd).1
      · rename_i u second hd
        obtain ⟨hu, hworld', hsecond⟩ := ht.cached hrg hd
        split
        · refine hu.use fun hmul => ?_
          rcases polymorphicMultiplies_imul hmul with himul | himul
          · rw [hworld', hworld]
            exact (hfirst first rfl).admitted (hlf first (by rw [hc])) (haf first (by rw [hc])) himul
          · rw [hworld']
            exact (hsecond second rfl).admitted (hlg second (by rw [hd])) (hag second (by rw [hd]))
              himul
        · exact hu
  | xorshift mathAtom imulAtom after count =>
    obtain ⟨hkeeps, hnew⟩ := hm
    unfold System.step
    dsimp only
    split
    · rename_i hnames
      obtain ⟨hmath, himul⟩ := hnames
      rw [Atoms.eq_math hmath] at hkeeps hnew ⊢
      rw [Atoms.eq_imul himul]
      have hworld := s.world.guardBuiltinMathImul_world atoms.math atoms.imul after
      refine System.Sound.use (hs.change ?_) fun hmul => ?_
      · intro f plan g hf hg hb
        rw [hworld]
        exact hkeeps f plan g hf hg hb
      · rw [Bool.and_eq_true] at hmul
        exact World.guardBuiltinMathImul_sound hnew (Prod.ext hmul.1 rfl)
    · exact hs

/-- In a run whose steps all meet the condition, no multiplication is made where the lookup yields
something else. -/
theorem System.Sound.run {actions : List Action} (hs : s.Sound atoms)
    (hm : s.AllMeet atoms code actions) : (s.run atoms code actions).Sound atoms := by
  induction actions generalizing s with
  | nil => exact hs
  | cons a as ih => exact ih (hs.step hm.1) hm.2

end

def someAtoms : Atoms := ⟨1, 2, 3⟩

/-- `x => Math.imul(x, 3)`. -/
def triple : LeafFunction :=
  { code := [56, 1, 0, 0, 0, 65, 2, 0, 0, 0, 216, 190, 36, 2, 0, 40], cpool := [], argCount := 1,
    varCount := 0, normal := true, varRefCount := 0, closureVarCount := 0, stackSize := 4 }

/-- The global object 0 has `Math`, the object 5, and that has `imul`, the function 7 of a user or
the function 6 of the engine. -/
def worldWith (imul : Nat) : World where
  own := fun o atom =>
    if o = 0 ∧ atom = 1 then some (.normal (.object 5))
    else if o = 5 ∧ atom = 2 then some (.normal (.object imul))
    else none
  inherited := fun _ _ => none
  lexical := fun _ => none
  globalObject := 0
  stringPrototype := 9
  isImul := fun f => f = 6

def callWithTwo : Action := .call 0 6 [.int 2] (fun _ _ => none) (fun _ => none) (fun _ => none)

end TurboJS.Leaf
