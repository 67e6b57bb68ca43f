import TurboJS.Foundation.ParallelMoves
import TurboJS.IR.Function

namespace TurboJS.Moves

open IR Foundation

inductive MoveLocationKind where
  | register | spillSlot | scratch
  deriving DecidableEq, Repr

inductive RegisterClass where
  | integer | float64
  deriving DecidableEq, Repr

structure MoveLocation where
  kind : MoveLocationKind
  registerClass : RegisterClass
  index : Int
  deriving DecidableEq, Repr

structure ParallelMove where
  source : MoveLocation
  destination : MoveLocation
  deriving DecidableEq, Repr

def ParallelMove.run {V : Type} (σ : MoveLocation → V) (m : ParallelMove) : MoveLocation → V :=
  fun l => if l = m.destination then σ m.source else σ l

def execute {V : Type} (r : List ParallelMove) (σ : MoveLocation → V) : MoveLocation → V :=
  r.foldl ParallelMove.run σ

structure Resolving (n : Nat) where
  done : Fin n → Bool
  left : Nat
  r : List ParallelMove

section

variable {n : Nat} (m : Fin n → ParallelMove)

def sourceUsed (done : Fin n → Bool) (d : MoveLocation) : Bool :=
  (List.finRange n).any fun i =>
    !done i && (m i).source = d && (m i).source ≠ (m i).destination

/-- Write a move down and count move `i` as done. -/
def Resolving.write (s : Resolving n) (x : ParallelMove) (i : Fin n) : Resolving n :=
  { done := fun k => if k = i then true else s.done k, left := s.left - 1, r := s.r ++ [x] }

def Resolving.save (s : Resolving n) (source scratch : MoveLocation) : Resolving n :=
  { s with r := s.r ++ [⟨source, scratch⟩] }

/-- One move of a pass; the flag is `progress`. -/
def passStep (s : Resolving n × Bool) (i : Fin n) : Resolving n × Bool :=
  if !s.1.done i && !sourceUsed m s.1.done (m i).destination then (s.1.write (m i) i, true)
  else s

def pass (s : Resolving n) : Resolving n × Bool := (List.finRange n).foldl (passStep m) (s, false)

/-- From move `j` of a cycle back along the sources, `i` being the move whose source was saved.
The last move found is rewritten to read the scratch location. -/
def followCycle (i : Fin n) (scratch : MoveLocation) :
    Nat → Resolving n → Fin n → Option (Resolving n)
  | 0, _, _ => none
  | fuel + 1, s, j =>
    match (List.finRange n).find? fun k => !s.done k && (m k).destination = (m j).source with
    | none => some (s.write ⟨scratch, (m j).destination⟩ j)
    | some k =>
      if (m k).source = (m i).destination then some (s.write ⟨scratch, (m k).destination⟩ k)
      else followCycle i scratch fuel (s.write (m k) k) k

def scratchFor (integerScratch floatScratch l : MoveLocation) : MoveLocation :=
  match l.registerClass with
  | .float64 => floatScratch
  | .integer => integerScratch

def resolveLoop (integerScratch floatScratch : MoveLocation) :
    Nat → Resolving n → Option (Except Status (List ParallelMove))
  | 0, _ => none
  | fuel + 1, s =>
    if s.left = 0 then some (.ok s.r)
    else
      let passed := pass m s
      if passed.2 then resolveLoop integerScratch floatScratch fuel passed.1
      else match (List.finRange n).find? fun i => !passed.1.done i with
        | none => some (.ok passed.1.r)
        | some i =>
          let scratch := scratchFor integerScratch floatScratch (m i).source
          if scratch.kind ≠ .scratch then some (.error .invalidArgument)
          else do
            let s ← followCycle m i scratch (n + 1) (passed.1.save (m i).source scratch) i
            resolveLoop integerScratch floatScratch fuel s

def Resolving.start : Resolving n where
  done := fun i => (m i).source = (m i).destination
  left := (List.finRange n).countP fun i => (m i).source ≠ (m i).destination
  r := []

end

/-- `TurboJS_ResolveParallelMoves`; no result when it never returns. -/
def resolveParallelMoves (moves : List ParallelMove) (integerScratch floatScratch : MoveLocation) :
    Option (Except Status (List ParallelMove)) :=
  resolveLoop moves.get integerScratch floatScratch (moves.length + 1) (.start moves.get)

def Feeds (moves : List ParallelMove) (a b : MoveLocation) : Prop :=
  ∃ x ∈ moves, x.source = a ∧ x.destination = b ∧ a ≠ b

def Cyclic (moves : List ParallelMove) : Prop := ∃ l, Relation.TransGen (Feeds moves) l l

def TakesEffect (V : Type) (moves : List ParallelMove) (is fs : MoveLocation)
    (out : List ParallelMove) : Prop :=
  ∀ σ : MoveLocation → V, (∀ x ∈ moves, execute out σ x.destination = σ x.source) ∧
    ∀ l, (∀ x ∈ moves, l ≠ x.destination) → l ≠ is → l ≠ fs → execute out σ l = σ l

example :
    let r := fun i : Int => (⟨.register, .integer, i⟩ : MoveLocation)
    let s : MoveLocation := ⟨.scratch, .integer, 0⟩
    (resolveParallelMoves [⟨r 0, r 1⟩, ⟨r 1, r 2⟩, ⟨r 2, r 0⟩] s s) =
      some (.ok [⟨r 0, s⟩, ⟨r 2, r 0⟩, ⟨s, r 2⟩, ⟨r 0, r 1⟩]) := by
  decide

section

variable {V : Type} {n : Nat} {m : Fin n → ParallelMove}

theorem execute_append (r : List ParallelMove) (x : ParallelMove) (σ : MoveLocation → V) :
    execute (r ++ [x]) σ = x.run (execute r σ) := by
  simp [execute]

theorem execute_append_list (r rest : List ParallelMove) (σ : MoveLocation → V) :
    execute (r ++ rest) σ = execute rest (execute r σ) := by
  simp [execute]

theorem execute_frame {rest : List ParallelMove} {l : MoveLocation}
    (h : ∀ x ∈ rest, l ≠ x.destination) (σ : MoveLocation → V) : execute rest σ l = σ l := by
  induction rest generalizing σ with
  | nil => rfl
  | cons x rest ih =>
    have hx : l ≠ x.destination := h x (by simp)
    have hrest := ih (fun y hy => h y (by simp [hy])) (x.run σ)
    rw [show execute (x :: rest) σ = execute rest (x.run σ) from rfl, hrest]
    exact if_neg hx

@[simp] theorem Resolving.write_done (s : Resolving n) (x : ParallelMove) (i k : Fin n) :
    (s.write x i).done k = false ↔ s.done k = false ∧ k ≠ i := by
  by_cases h : k = i <;> simp [Resolving.write, h]

theorem sourceUsed_eq_false {done : Fin n → Bool} {d : MoveLocation} :
    sourceUsed m done d = false ↔
      ∀ i, done i = false → (m i).source = d → (m i).source = (m i).destination := by
  simp only [sourceUsed, List.any_eq_false, List.mem_finRange, forall_const, Bool.and_eq_true,
    Bool.not_eq_true', decide_eq_true_eq, not_and, not_not]
  exact ⟨fun h i hi he => h i ⟨hi, he⟩, fun h i hi => h i hi.1 hi.2⟩

def Resolving.Pending (s : Resolving n) (i : Fin n) : Prop := s.done i = false

def Resolving.pendingCount (s : Resolving n) : Nat := (List.finRange n).countP fun k => !s.done k

structure Resolving.Good (m : Fin n → ParallelMove) (s : Resolving n) : Prop where
  moving : ∀ i, s.Pending i → (m i).source ≠ (m i).destination
  left : s.left = s.pendingCount

theorem Resolving.start_good : (Resolving.start m).Good m where
  moving := by
    intro i hi
    simpa [Resolving.Pending, Resolving.start] using hi
  left := by simp [Resolving.start, Resolving.pendingCount]

theorem Resolving.stuck_of_used {s : Resolving n}
    (hused : ∀ i, s.Pending i → sourceUsed m s.done (m i).destination = true) :
    Stuck (fun i => (m i).destination) (fun i => (m i).source) s.Pending := by
  intro i hi
  have hu := hused i hi
  rw [← Bool.not_eq_false, sourceUsed_eq_false] at hu
  push Not at hu
  obtain ⟨j, hj, hs, hne⟩ := hu
  refine ⟨j, hj, ?_, hs⟩
  rintro rfl
  exact hne hs

theorem Resolving.pendingCount_write {s : Resolving n} {i : Fin n} (hi : s.Pending i)
    (x : ParallelMove) : (s.write x i).pendingCount + 1 = s.pendingCount := by
  apply countP_without (List.nodup_finRange n) (List.mem_finRange i)
  · simp [show s.done i = false from hi]
  · simp [Resolving.write]
  · intro k hk
    simp [Resolving.write, hk]

theorem Resolving.Good.write {s : Resolving n} (h : s.Good m) {i : Fin n} (hi : s.Pending i)
    (x : ParallelMove) : (s.write x i).Good m where
  moving := fun k hk => h.moving k ((s.write_done x i k).mp hk).1
  left := by
    have hc := s.pendingCount_write hi x
    have hl := h.left
    change s.left - 1 = (s.write x i).pendingCount
    omega

theorem Resolving.Good.finished {s : Resolving n} (h : s.Good m) (hl : s.left = 0) (i : Fin n) :
    ¬ s.Pending i := by
  have hc := h.left.symm.trans hl
  rw [Resolving.pendingCount, List.countP_eq_zero] at hc
  simpa [Resolving.Pending] using hc i (List.mem_finRange i)

theorem pass_induct {P : Resolving n × Bool → Prop} {s : Resolving n} (hs : P (s, false))
    (hstep : ∀ p i, P p → p.1.Pending i → sourceUsed m p.1.done (m i).destination = false →
      P (p.1.write (m i) i, true)) : P (pass m s) := by
  have hfold : ∀ (l : List (Fin n)) (p : Resolving n × Bool), P p → P (l.foldl (passStep m) p) := by
    intro l
    induction l with
    | nil => exact fun p hp => hp
    | cons i l ih =>
      intro p hp
      apply ih
      rw [passStep]
      split
      · rename_i hc
        simp only [Bool.and_eq_true, Bool.not_eq_true'] at hc
        exact hstep p i hp hc.1 hc.2
      · exact hp
  exact hfold _ _ hs

theorem pass_progress {s : Resolving n} (h : (pass m s).2 = true) :
    (pass m s).1.pendingCount < s.pendingCount := by
  have hp : (pass m s).1.pendingCount ≤ s.pendingCount ∧
      ((pass m s).2 = true → (pass m s).1.pendingCount < s.pendingCount) := by
    apply pass_induct (P := fun p => p.1.pendingCount ≤ s.pendingCount ∧
      (p.2 = true → p.1.pendingCount < s.pendingCount)) ⟨le_rfl, fun h => nomatch h⟩
    intro p i hp hi _
    have hw := Resolving.pendingCount_write hi (m i)
    have hlt : (p.1.write (m i) i).pendingCount < s.pendingCount := by omega
    exact ⟨hlt.le, fun _ => hlt⟩
  exact hp.2 h

theorem pass_idle {s : Resolving n} (h : (pass m s).2 = false) : (pass m s).1 = s ∧
    ∀ i, s.Pending i → sourceUsed m s.done (m i).destination = true := by
  have hfold : ∀ (l : List (Fin n)) (p : Resolving n × Bool),
      (l.foldl (passStep m) p).2 = false → (l.foldl (passStep m) p).1 = p.1 ∧ p.2 = false ∧
        ∀ i ∈ l, p.1.Pending i → sourceUsed m p.1.done (m i).destination = true := by
    intro l
    induction l with
    | nil => exact fun p hp => ⟨rfl, hp, by simp⟩
    | cons i l ih =>
      intro p hp
      obtain ⟨hsame, hflag, hblocked⟩ := ih _ hp
      by_cases hc : (!p.1.done i && !sourceUsed m p.1.done (m i).destination) = true
      · simp [passStep, hc] at hflag
      · have he : passStep m p i = p := by simp only [passStep, if_neg hc]
        rw [he] at hsame hflag hblocked
        refine ⟨by rw [List.foldl_cons, he]; exact hsame, hflag, ?_⟩
        intro k hk hpk
        rcases List.mem_cons.mp hk with rfl | hk
        · have hd : p.1.done k = false := hpk
          simpa [hd] using hc
        · exact hblocked k hk hpk
  obtain ⟨hsame, -, hblocked⟩ := hfold _ _ h
  exact ⟨hsame, fun i => hblocked i (List.mem_finRange i)⟩

variable {is fs : MoveLocation}

structure ScratchFree (m : Fin n → ParallelMove) (is fs : MoveLocation) : Prop where
  source : ∀ i, (m i).source ≠ is ∧ (m i).source ≠ fs
  destination : ∀ i, (m i).destination ≠ is ∧ (m i).destination ≠ fs

/-- The moves written so far are a partial run of the moves from `σ₀`. -/
def Resolving.Holds (m : Fin n → ParallelMove) (is fs : MoveLocation) (σ₀ : MoveLocation → V)
    (s : Resolving n) : Prop :=
  Scheduled (fun i => (m i).destination) (fun i => σ₀ (m i).source) (fun l => l = is ∨ l = fs) σ₀
    (fun i => (m i).source) s.Pending (execute s.r σ₀)

theorem Resolving.start_holds (σ₀ : MoveLocation → V) : (Resolving.start m).Holds m is fs σ₀ := by
  apply Scheduled.start
  intro i hi
  simpa [Resolving.Pending, Resolving.start] using hi

theorem Resolving.Holds.write {σ₀ : MoveLocation → V} {s : Resolving n} (h : s.Holds m is fs σ₀)
    (hinj : Function.Injective fun i => (m i).destination) {i : Fin n} (hi : s.Pending i)
    (hu : sourceUsed m s.done (m i).destination = false) (hmoving : s.Good m) :
    (s.write (m i) i).Holds m is fs σ₀ := by
  have hpending : (s.write (m i) i).Pending = fun j => s.Pending j ∧ j ≠ i := by
    funext j
    exact propext (s.write_done (m i) i j)
  rw [Resolving.Holds, hpending, show (s.write (m i) i).r = s.r ++ [m i] from rfl, execute_append]
  rw [sourceUsed_eq_false] at hu
  apply Scheduled.emit (fun _ => False) h hinj hi
  · exact fun j hj _ he => hmoving.moving j hj (hu j hj he)
  · exact fun _ hc => hc.elim
  · exact fun _ _ hc => hc
  · exact fun _ hc => hc
  · exact if_pos rfl
  · exact fun l hl _ => if_neg hl

theorem pass_holds {s : Resolving n} (hinj : Function.Injective fun i => (m i).destination)
    (hg : s.Good m) (h : ∀ σ₀ : MoveLocation → V, s.Holds m is fs σ₀) :
    (pass m s).1.Good m ∧ ∀ σ₀ : MoveLocation → V, (pass m s).1.Holds m is fs σ₀ := by
  apply pass_induct (P := fun p => p.1.Good m ∧ ∀ σ₀ : MoveLocation → V, p.1.Holds m is fs σ₀)
    ⟨hg, h⟩
  intro p i ht hi hu
  exact ⟨ht.1.write hi _, fun σ₀ => (ht.2 σ₀).write hinj hi hu ht.1⟩

theorem Resolving.Holds.finished {σ₀ : MoveLocation → V} {s : Resolving n}
    (h : s.Holds m is fs σ₀) (hp : ∀ i, ¬ s.Pending i) :
    (∀ i, execute s.r σ₀ (m i).destination = σ₀ (m i).source) ∧
      ∀ l, (∀ i, l ≠ (m i).destination) → l ≠ is → l ≠ fs → execute s.r σ₀ l = σ₀ l := by
  refine ⟨Scheduled.finished h hp, ?_⟩
  intro l hl hi hf
  exact h.untouched l hl fun he => he.elim hi hf

end

end TurboJS.Moves
