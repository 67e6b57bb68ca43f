import TurboJS.Foundation.ParallelMoves

namespace TurboJS.Moves

open Foundation

/-- `Loc`: a register or a spill slot, the other field being -1. -/
structure Loc where
  reg : Int
  spill : Int
  deriving DecidableEq, Repr

inductive Place where
  | reg (r : Nat)
  | slot (s : Nat)
  deriving DecidableEq, Repr

/-- `movrr`, `loads` and `stores`. -/
inductive Instr where
  | movrr (d s : Nat)
  | loads (r s : Nat)
  | stores (s r : Nat)
  deriving DecidableEq, Repr

def assign {V : Type} (σ : Place → V) (d s : Place) : Place → V :=
  fun l => if l = d then σ s else σ l

def Instr.run {V : Type} (σ : Place → V) : Instr → Place → V
  | .movrr d s => assign σ (.reg d) (.reg s)
  | .loads r s => assign σ (.reg r) (.slot s)
  | .stores s r => assign σ (.slot s) (.reg r)

def runCode {V : Type} (code : List Instr) (σ : Place → V) : Place → V := code.foldl Instr.run σ

/-- `movrr` writes no code for a register and itself. -/
def movrr (d s : Nat) : List Instr := if d = s then [] else [.movrr d s]

def readLoc (l : Loc) (scratch : Nat) : Option (List Instr) :=
  if 0 ≤ l.reg then some (movrr scratch l.reg.toNat)
  else if 0 ≤ l.spill then some [.loads scratch l.spill.toNat]
  else none

def emitMove (src dst : Loc) : Option (List Instr) :=
  if src = dst then some []
  else if 0 ≤ src.reg ∧ 0 ≤ dst.reg then some (movrr dst.reg.toNat src.reg.toNat)
  else if 0 ≤ src.reg ∧ 0 ≤ dst.spill then some [.stores dst.spill.toNat src.reg.toNat]
  else if 0 ≤ src.spill ∧ 0 ≤ dst.reg then some [.loads dst.reg.toNat src.spill.toNat]
  else if 0 ≤ src.spill ∧ 0 ≤ dst.spill then
    some [.loads 11 src.spill.toNat, .stores dst.spill.toNat 11]
  else none

structure Scheduling (n : Nat) where
  src : Fin n → Loc
  done : Fin n → Bool
  left : Nat
  count : Nat
  cycles : Nat
  code : List Instr

section

variable {n : Nat} (dst : Fin n → Loc)

def destinationIsSource (s : Scheduling n) (at_ : Fin n) : Bool :=
  (List.finRange n).any fun i => !s.done i && i ≠ at_ && dst at_ = s.src i

def Scheduling.finish (s : Scheduling n) (i : Fin n) (code : List Instr) : Scheduling n :=
  { s with
    done := fun k => if k = i then true else s.done k
    left := s.left - 1
    count := s.count + 1
    code := s.code ++ code }

/-- One move of a pass; the flag is `progressed`. -/
def edgeStep (p : Scheduling n × Bool) (i : Fin n) : Option (Scheduling n × Bool) :=
  if p.1.done i then some p
  else if !destinationIsSource dst p.1 i then do
    let code ← emitMove (p.1.src i) (dst i)
    some (p.1.finish i code, true)
  else some p

def edgePass (s : Scheduling n) : Option (Scheduling n × Bool) :=
  (List.finRange n).foldlM (edgeStep dst) (s, false)

def Scheduling.snapshot (s : Scheduling n) (i : Fin n) (tempSlot : Nat) (code : List Instr) :
    Scheduling n :=
  { s with
    src := fun j => if !s.done j && s.src j = s.src i then ⟨-1, tempSlot⟩ else s.src j
    cycles := s.cycles + 1
    code := s.code ++ code ++ ([.stores tempSlot 11] : List Instr) }

def scheduleLoop (tempSlot : Nat) : Nat → Scheduling n → Option (Option (Scheduling n))
  | 0, _ => none
  | fuel + 1, s =>
    if s.left = 0 then some (some s)
    else match edgePass dst s with
      | none => some none
      | some passed =>
        if passed.2 then scheduleLoop tempSlot fuel passed.1
        else match (List.finRange n).find? fun i => !passed.1.done i with
          | none => some none
          | some i => match readLoc (passed.1.src i) 11 with
            | none => some none
            | some code => scheduleLoop tempSlot fuel (passed.1.snapshot i tempSlot code)

end

structure EdgeMove where
  src : Loc
  dst : Loc
  deriving DecidableEq, Repr

/-- `schedule_edge_moves` on moves none of which is done, with a bound on its rounds. -/
def scheduleEdgeMoves (m : List EdgeMove) (tempSlot : Nat) :
    Option (Option (Scheduling m.length)) :=
  scheduleLoop (fun i => (m.get i).dst) tempSlot (2 * m.length + 1)
    ⟨fun i => (m.get i).src, fun _ => false, m.length, 0, 0, []⟩

/-- What `loc_for_pos` returns for a value that has a place. -/
def Loc.Valid (l : Loc) : Prop := (0 ≤ l.reg ∧ l.spill = -1) ∨ (l.reg = -1 ∧ 0 ≤ l.spill)

instance (l : Loc) : Decidable l.Valid := inferInstanceAs (Decidable (_ ∨ _))

def Loc.place (l : Loc) : Place := if 0 ≤ l.reg then .reg l.reg.toNat else .slot l.spill.toNat

example :
    (scheduleEdgeMoves [⟨⟨0, -1⟩, ⟨1, -1⟩⟩, ⟨⟨1, -1⟩, ⟨0, -1⟩⟩] 7).map
        (Option.map fun t => (t.code, t.count, t.cycles)) =
      some (some ([.movrr 11 0, .stores 7 11, .movrr 0 1, .loads 1 7], 2, 1)) := by
  decide

section

variable {V : Type}

theorem runCode_append (code rest : List Instr) (σ : Place → V) :
    runCode (code ++ rest) σ = runCode rest (runCode code σ) := by
  simp [runCode]

structure Copies (code : List Instr) (d s : Place) (σ : Place → V) : Prop where
  copied : runCode code σ d = σ s
  frame : ∀ l, l ≠ d → l ≠ .reg 11 → runCode code σ l = σ l

theorem copies_movrr (d s : Nat) (σ : Place → V) : Copies (movrr d s) (.reg d) (.reg s) σ := by
  rw [movrr]
  split
  · rename_i he
    subst he
    exact ⟨rfl, fun _ _ _ => rfl⟩
  · exact ⟨if_pos rfl, fun l hl _ => if_neg hl⟩

theorem Loc.Valid.cases {l : Loc} (h : l.Valid) :
    (∃ r : Nat, l = ⟨r, -1⟩ ∧ l.place = .reg r) ∨ ∃ s : Nat, l = ⟨-1, s⟩ ∧ l.place = .slot s := by
  obtain ⟨reg, spill⟩ := l
  rcases h with ⟨hr, hs⟩ | ⟨hr, hs⟩ <;> simp only at hr hs
  · obtain ⟨r, rfl⟩ := Int.eq_ofNat_of_zero_le hr
    exact .inl ⟨r, by rw [hs], by simp [Loc.place]⟩
  · obtain ⟨s, rfl⟩ := Int.eq_ofNat_of_zero_le hs
    exact .inr ⟨s, by rw [hr], by simp [Loc.place, hr]⟩

theorem place_injective {l l' : Loc} (h : l.Valid) (h' : l'.Valid) (he : l.place = l'.place) :
    l = l' := by
  rcases h.cases with ⟨r, rfl, hp⟩ | ⟨s, rfl, hp⟩ <;>
    rcases h'.cases with ⟨r', rfl, hp'⟩ | ⟨s', rfl, hp'⟩ <;>
    simp_all

theorem emitMove_copies {src dst : Loc} (hs : src.Valid) (hd : dst.Valid) :
    ∃ code, emitMove src dst = some code ∧
      ∀ σ : Place → V, Copies code dst.place src.place σ := by
  by_cases he : src = dst
  · subst he
    exact ⟨[], if_pos rfl, fun σ => ⟨rfl, fun _ _ _ => rfl⟩⟩
  · rw [emitMove, if_neg he]
    rcases hs.cases with ⟨r, rfl, hp⟩ | ⟨s, rfl, hp⟩ <;>
      rcases hd.cases with ⟨r', rfl, hp'⟩ | ⟨s', rfl, hp'⟩ <;> rw [hp, hp']
    · exact ⟨movrr r' r, by simp, copies_movrr r' r⟩
    · exact ⟨[.stores s' r], by simp, fun σ => ⟨if_pos rfl, fun l hl _ => if_neg hl⟩⟩
    · exact ⟨[.loads r' s], by simp, fun σ => ⟨if_pos rfl, fun l hl _ => if_neg hl⟩⟩
    · refine ⟨[.loads 11 s, .stores s' 11], by simp, fun σ => ⟨?_, fun l hl h11 => ?_⟩⟩
      · simp [runCode, Instr.run, assign]
      · simp [runCode, Instr.run, assign, hl, h11]

theorem readLoc_copies {src : Loc} (hs : src.Valid) : ∃ code, readLoc src 11 = some code ∧
    ∀ σ : Place → V, Copies code (.reg 11) src.place σ := by
  rcases hs.cases with ⟨r, rfl, hp⟩ | ⟨s, rfl, hp⟩ <;> rw [hp]
  · exact ⟨movrr 11 r, by simp [readLoc], copies_movrr 11 r⟩
  · refine ⟨[.loads 11 s], by simp [readLoc], fun σ => ⟨?_, fun l hl _ => if_neg hl⟩⟩
    simp [runCode, Instr.run, assign]

end

section

variable {V : Type} {n : Nat} {dst : Fin n → Loc} {tempSlot : Nat}

def Scheduling.Pending (s : Scheduling n) (i : Fin n) : Prop := s.done i = false

def Scheduling.pendingCount (s : Scheduling n) : Nat := (List.finRange n).countP fun k => !s.done k

theorem destinationIsSource_iff {s : Scheduling n} {i : Fin n} :
    destinationIsSource dst s i = true ↔ ∃ j, s.Pending j ∧ j ≠ i ∧ s.src j = dst i := by
  simp only [destinationIsSource, List.any_eq_true, List.mem_finRange, true_and, Bool.and_eq_true,
    Bool.not_eq_true', decide_eq_true_eq, Scheduling.Pending]
  exact ⟨fun ⟨j, ⟨hj, hne⟩, he⟩ => ⟨j, hj, hne, he.symm⟩, fun ⟨j, hj, hne, he⟩ => ⟨j, ⟨hj, hne⟩, he.symm⟩⟩

@[simp] theorem Scheduling.finish_done (s : Scheduling n) (i k : Fin n) (code : List Instr) :
    (s.finish i code).done k = false ↔ s.done k = false ∧ k ≠ i := by
  by_cases h : k = i <;> simp [Scheduling.finish, h]

theorem Scheduling.pendingCount_finish {s : Scheduling n} {i : Fin n} (hi : s.Pending i)
    (code : List Instr) : (s.finish i code).pendingCount + 1 = s.pendingCount := by
  apply countP_without (List.nodup_finRange n) (List.mem_finRange i)
  · simp [show s.done i = false from hi]
  · simp [Scheduling.finish]
  · intro k hk
    simp [Scheduling.finish, hk]

def Named (tempSlot : Nat) (l : Loc) : Prop :=
  l.Valid ∧ l.place ≠ .reg 11 ∧ l.place ≠ .slot tempSlot

def spare (tempSlot : Nat) (l : Place) : Prop := l = .reg 11 ∨ l = .slot tempSlot

structure Scheduling.Good (dst : Fin n → Loc) (tempSlot : Nat) (want : Fin n → V) (σ₀ : Place → V)
    (s : Scheduling n) : Prop where
  left : s.left = s.pendingCount
  counted : s.count + s.left = n
  source : ∀ i, (s.src i).Valid ∧ (s.src i).place ≠ .reg 11
  scheduled : Scheduled (fun i => (dst i).place) want (spare tempSlot) σ₀
    (fun i => (s.src i).place) s.Pending (runCode s.code σ₀)

variable {want : Fin n → V} {σ₀ : Place → V} {s : Scheduling n}

theorem place_dst_injective (hd : ∀ i, Named tempSlot (dst i)) (hinj : Function.Injective dst) :
    Function.Injective fun i => (dst i).place :=
  fun i j he => hinj (place_injective (hd i).1 (hd j).1 he)

theorem Scheduling.Good.finish (h : s.Good dst tempSlot want σ₀)
    (hd : ∀ i, Named tempSlot (dst i)) (hinj : Function.Injective dst) {i : Fin n}
    (hi : s.Pending i) (hu : destinationIsSource dst s i = false) {code : List Instr}
    (hcode : ∀ σ : Place → V, Copies code (dst i).place (s.src i).place σ) :
    (s.finish i code).Good dst tempSlot want σ₀ where
  left := by
    have hc := Scheduling.pendingCount_finish hi code
    have hl := h.left
    change s.left - 1 = (s.finish i code).pendingCount
    omega
  counted := by
    have hc := Scheduling.pendingCount_finish hi code
    have hl := h.left
    have hn := h.counted
    change s.count + 1 + (s.left - 1) = n
    omega
  source := h.source
  scheduled := by
    have hpending : (s.finish i code).Pending = fun j => s.Pending j ∧ j ≠ i := by
      funext j
      exact propext (s.finish_done i j code)
    rw [hpending, show (s.finish i code).code = s.code ++ code from rfl, runCode_append]
    have hcopy := hcode (runCode s.code σ₀)
    apply Scheduled.emit (fun l => l = .reg 11) h.scheduled (place_dst_injective hd hinj) hi
    · intro j hj hne he
      have hs : s.src j = dst i := place_injective (h.source j).1 (hd i).1 he
      rw [destinationIsSource_iff.mpr ⟨j, hj, hne, hs⟩] at hu
      cases hu
    · exact fun _ => .inl
    · exact fun j _ => (h.source j).2
    · exact fun j => (hd j).2.1
    · exact hcopy.copied
    · exact hcopy.frame

theorem edgeStep_good {p : Scheduling n × Bool} (h : p.1.Good dst tempSlot want σ₀)
    (hd : ∀ i, Named tempSlot (dst i)) (hinj : Function.Injective dst) (i : Fin n) :
    (edgeStep dst p i = some p ∧ (p.1.Pending i → destinationIsSource dst p.1 i = true)) ∨
    ∃ t : Scheduling n, edgeStep dst p i = some (t, true) ∧ t.Good dst tempSlot want σ₀ ∧
      t.pendingCount < p.1.pendingCount := by
  by_cases hi : p.1.done i = true
  · refine .inl ⟨if_pos hi, fun hp => ?_⟩
    rw [show p.1.done i = false from hp] at hi
    cases hi
  · by_cases hu : destinationIsSource dst p.1 i = true
    · exact .inl ⟨by simp [edgeStep, hi, hu], fun _ => hu⟩
    · have hp : p.1.Pending i := Bool.eq_false_iff.mpr hi
      obtain ⟨code, hcode, hcopies⟩ := emitMove_copies (h.source i).1 (hd i).1
      have hcount := Scheduling.pendingCount_finish hp code
      exact .inr ⟨p.1.finish i code, by simp [edgeStep, hi, hu, hcode],
        h.finish hd hinj hp (Bool.eq_false_iff.mpr hu) hcopies, by omega⟩

theorem edgePass_good (h : s.Good dst tempSlot want σ₀) (hd : ∀ i, Named tempSlot (dst i))
    (hinj : Function.Injective dst) : ∃ p, edgePass dst s = some p ∧
      p.1.Good dst tempSlot want σ₀ ∧ (p.2 = true → p.1.pendingCount < s.pendingCount) ∧
      (p.2 = false → p.1 = s ∧ ∀ i, s.Pending i → destinationIsSource dst s i = true) := by
  have hfold : ∀ (l : List (Fin n)) (p : Scheduling n × Bool), p.1.Good dst tempSlot want σ₀ →
      ∃ q, l.foldlM (edgeStep dst) p = some q ∧ q.1.Good dst tempSlot want σ₀ ∧
        q.1.pendingCount ≤ p.1.pendingCount ∧
        (q.2 = true → p.2 = true ∨ q.1.pendingCount < p.1.pendingCount) ∧
        (q.2 = false → p.2 = false ∧ q.1 = p.1 ∧
          ∀ i ∈ l, p.1.Pending i → destinationIsSource dst p.1 i = true) := by
    intro l
    induction l with
    | nil => exact fun p hp => ⟨p, rfl, hp, le_rfl, .inl, fun hq => ⟨hq, rfl, by simp⟩⟩
    | cons i l ih =>
      intro p hp
      rw [List.foldlM_cons]
      rcases edgeStep_good hp hd hinj i with ⟨hstep, hi⟩ | ⟨t, hstep, ht, hlt⟩
      · obtain ⟨q, hq, hg, hle, hprog, hidle⟩ := ih p hp
        refine ⟨q, by simp [hstep, hq], hg, hle, hprog, fun hf => ?_⟩
        obtain ⟨hflag, hsame, hblocked⟩ := hidle hf
        refine ⟨hflag, hsame, fun k hk => ?_⟩
        rcases List.mem_cons.mp hk with rfl | hk
        · exact hi
        · exact hblocked k hk
      · obtain ⟨q, hq, hg, hle, -, hidle⟩ := ih (t, true) ht
        have hlt : q.1.pendingCount < p.1.pendingCount := lt_of_le_of_lt hle hlt
        refine ⟨q, by simp [hstep, hq], hg, hlt.le, fun _ => .inr hlt, fun hf => ?_⟩
        cases (hidle hf).1
  obtain ⟨q, hq, hg, -, hprog, hidle⟩ := hfold (List.finRange n) (s, false) h
  refine ⟨q, hq, hg, fun ht => ?_, fun hf => ?_⟩
  · rcases hprog ht with hf | hlt
    · cases hf
    · exact hlt
  · obtain ⟨-, hsame, hblocked⟩ := hidle hf
    exact ⟨hsame, fun i => hblocked i (List.mem_finRange i)⟩

theorem stuck_of_blocked (hblocked : ∀ i, s.Pending i → destinationIsSource dst s i = true) :
    Stuck (fun i => (dst i).place) (fun i => (s.src i).place) s.Pending := by
  intro i hi
  obtain ⟨j, hj, hne, he⟩ := destinationIsSource_iff.mp (hblocked i hi)
  exact ⟨j, hj, hne, congrArg Loc.place he⟩

theorem Scheduling.Good.snapshot (h : s.Good dst tempSlot want σ₀)
    (hd : ∀ i, Named tempSlot (dst i)) (hinj : Function.Injective dst)
    (hstuck : Stuck (fun i => (dst i).place) (fun i => (s.src i).place) s.Pending) (i : Fin n)
    {code : List Instr} (hcode : ∀ σ : Place → V, Copies code (.reg 11) (s.src i).place σ) :
    (s.snapshot i tempSlot code).Good dst tempSlot want σ₀ where
  left := h.left
  counted := h.counted
  source := by
    intro j
    simp only [Scheduling.snapshot]
    split
    · exact ⟨.inr ⟨rfl, Int.natCast_nonneg _⟩, by simp [Loc.place]⟩
    · exact h.source j
  scheduled := by
    have hcopy := hcode (runCode s.code σ₀)
    have hunread : ∀ j, s.Pending j → (s.src j).place ≠ .slot tempSlot := by
      intro j hj he
      obtain ⟨k, -, hk⟩ := (hstuck.permutes (place_dst_injective hd hinj)).1 j hj
      exact (hd k).2.2 (hk.trans he)
    rw [show (s.snapshot i tempSlot code).code = s.code ++ code ++
      ([.stores tempSlot 11] : List Instr) from rfl,
      runCode_append, runCode_append]
    refine (Scheduled.redirect (fun l => l = .reg 11) (s.src i).place (.slot tempSlot) h.scheduled
      (.inr rfl) (fun j => (hd j).2.2) hunread (fun _ => .inl) (fun j _ => (h.source j).2)
      (fun j => (hd j).2.1) ?_ ?_).congr_source ?_
    · rw [← hcopy.copied]
      exact if_pos rfl
    · intro l hl h11
      rw [← hcopy.frame l h11 h11]
      exact if_neg hl
    · intro j hj
      have hj : s.done j = false := hj
      by_cases he : s.src j = s.src i
      · simp [Scheduling.snapshot, hj, he, Loc.place]
      · have hp : (s.src j).place ≠ (s.src i).place :=
          fun hp => he (place_injective (h.source j).1 (h.source i).1 hp)
        simp [Scheduling.snapshot, hj, he, hp]

theorem snapshot_unblocks (hd : ∀ i, Named tempSlot (dst i)) (hinj : Function.Injective dst)
    (h : s.Good dst tempSlot want σ₀)
    (hstuck : Stuck (fun i => (dst i).place) (fun i => (s.src i).place) s.Pending) {i : Fin n}
    (hi : s.Pending i) (code : List Instr) : ∃ k, (s.snapshot i tempSlot code).Pending k ∧
      destinationIsSource dst (s.snapshot i tempSlot code) k = false := by
  obtain ⟨k, hk, he⟩ := (hstuck.permutes (place_dst_injective hd hinj)).1 i hi
  have he : dst k = s.src i := place_injective (hd k).1 (h.source i).1 he
  refine ⟨k, hk, ?_⟩
  rw [← Bool.not_eq_true, destinationIsSource_iff]
  rintro ⟨j, hj, -, hs⟩
  have hj : s.done j = false := hj
  rw [he] at hs
  by_cases hsame : s.src j = s.src i
  · simp only [Scheduling.snapshot, hj, hsame, Bool.not_false, decide_true, Bool.and_self,
      if_true] at hs
    apply (hd k).2.2
    rw [he, ← hs]
    rfl
  · simp only [Scheduling.snapshot, hj, hsame, decide_false, Bool.and_false] at hs
    exact hsame hs

theorem scheduleLoop_finishes (hd : ∀ i, Named tempSlot (dst i)) (hinj : Function.Injective dst)
    {fuel : Nat} : ∀ {s : Scheduling n}, s.Good dst tempSlot want σ₀ →
      (2 * s.pendingCount < fuel ∨ 2 * s.pendingCount ≤ fuel ∧
        ∃ i, s.Pending i ∧ destinationIsSource dst s i = false) →
      ∃ t, scheduleLoop dst tempSlot fuel s = some (some t) ∧ t.Good dst tempSlot want σ₀ ∧
        t.left = 0 := by
  induction fuel with
  | zero =>
    intro s _ hfuel
    rcases hfuel with hlt | ⟨hle, i, hi, -⟩
    · omega
    · have hpos : 0 < s.pendingCount :=
        List.countP_pos_iff.mpr ⟨i, List.mem_finRange i, by rw [show s.done i = false from hi]; rfl⟩
      omega
  | succ fuel ih =>
    intro s h hfuel
    rw [scheduleLoop]
    by_cases hl : s.left = 0
    · exact ⟨s, if_pos hl, h, hl⟩
    · have hpos : s.pendingCount ≠ 0 := h.left ▸ hl
      rw [if_neg hl]
      obtain ⟨p, hp, hgood, hprog, hidle⟩ := edgePass_good h hd hinj
      rw [hp]
      cases hflag : p.2 with
      | true =>
        have hlt := hprog hflag
        simp only [hflag, if_true]
        exact ih hgood (.inl (by omega))
      | false =>
        obtain ⟨hsame, hblocked⟩ := hidle hflag
        have hstuck := stuck_of_blocked hblocked
        simp only [hflag, hsame, Bool.false_eq_true, if_false]
        cases hfind : (List.finRange n).find? fun i => !s.done i with
        | none =>
          exfalso
          apply hpos
          apply List.countP_eq_zero.mpr
          intro i hi
          exact List.find?_eq_none.mp hfind i hi
        | some i =>
          have hi : s.Pending i := by simpa [Scheduling.Pending] using List.find?_some hfind
          obtain ⟨code, hcode, hcopies⟩ := readLoc_copies (V := V) (h.source i).1
          simp only [hcode]
          have hfuel : 2 * s.pendingCount ≤ fuel := by
            rcases hfuel with hlt | ⟨-, k, hk, hfree⟩
            · omega
            · rw [hblocked k hk] at hfree
              cases hfree
          exact ih (h.snapshot hd hinj hstuck i hcopies)
            (.inr ⟨hfuel, snapshot_unblocks hd hinj h hstuck hi code⟩)

end

section

variable {m : List EdgeMove} {tempSlot : Nat}

theorem scheduleEdgeMoves_finishes {V : Type} (hd : (m.map EdgeMove.dst).Nodup)
    (hs : ∀ x ∈ m, Named tempSlot x.src) (hn : ∀ x ∈ m, Named tempSlot x.dst) (σ₀ : Place → V) :
    ∃ t, scheduleEdgeMoves m tempSlot = some (some t) ∧
      t.Good (fun i => (m.get i).dst) tempSlot (fun i => σ₀ (m.get i).src.place) σ₀ ∧
      t.left = 0 := by
  have hcount : (⟨fun i => (m.get i).src, fun _ => false, m.length, 0, 0, []⟩ :
      Scheduling m.length).pendingCount = m.length := by
    simp [Scheduling.pendingCount]
  apply scheduleLoop_finishes (fun i => hn _ (List.get_mem m i)) (injective_of_nodup_map hd)
  · constructor
    · exact hcount.symm
    · exact Nat.zero_add _
    · exact fun i => ⟨(hs _ (List.get_mem m i)).1, (hs _ (List.get_mem m i)).2.1⟩
    · apply Scheduled.start
      intro i hi
      exact absurd rfl hi
  · rw [hcount]
    exact .inl (Nat.lt_succ_self _)

/-- Edge moves to different places are scheduled, and the code has their effect at once. -/
theorem edge_moves_take_effect (hd : (m.map EdgeMove.dst).Nodup)
    (hs : ∀ x ∈ m, Named tempSlot x.src) (hn : ∀ x ∈ m, Named tempSlot x.dst) :
    ∃ t, scheduleEdgeMoves m tempSlot = some (some t) ∧ t.count = m.length ∧
      ∀ (V : Type) (σ : Place → V),
        (∀ x ∈ m, runCode t.code σ x.dst.place = σ x.src.place) ∧
        ∀ l, (∀ x ∈ m, l ≠ x.dst.place) → l ≠ .reg 11 → l ≠ .slot tempSlot →
          runCode t.code σ l = σ l := by
  obtain ⟨t, ht, hgood, hleft⟩ := scheduleEdgeMoves_finishes hd hs hn fun _ => ()
  have hcounted := hgood.counted
  refine ⟨t, ht, by omega, fun V σ => ?_⟩
  obtain ⟨t', ht', hgood', -⟩ := scheduleEdgeMoves_finishes hd hs hn σ
  rw [ht] at ht'
  cases ht'
  have hdone : ∀ i, ¬ t.Pending i := by
    intro i hi
    have hzero : t.pendingCount = 0 := by rw [← hgood.left, hleft]
    have hd : t.done i = false := hi
    simpa [hd] using List.countP_eq_zero.mp hzero i (List.mem_finRange i)
  constructor
  · intro x hx
    obtain ⟨i, rfl⟩ := List.mem_iff_get.mp hx
    exact hgood'.scheduled.finished hdone i
  · intro l hl h11 htemp
    exact hgood'.scheduled.untouched l (fun i => hl _ (List.get_mem m i)) fun h => h.elim h11 htemp

theorem swap_takes_effect :
    ∃ t, scheduleEdgeMoves [⟨⟨0, -1⟩, ⟨1, -1⟩⟩, ⟨⟨1, -1⟩, ⟨0, -1⟩⟩] 7 = some (some t) ∧
      t.count = 2 ∧ ∀ (V : Type) (σ : Place → V),
        (∀ x ∈ [(⟨⟨0, -1⟩, ⟨1, -1⟩⟩ : EdgeMove), ⟨⟨1, -1⟩, ⟨0, -1⟩⟩],
          runCode t.code σ x.dst.place = σ x.src.place) ∧
        ∀ l, (∀ x ∈ [(⟨⟨0, -1⟩, ⟨1, -1⟩⟩ : EdgeMove), ⟨⟨1, -1⟩, ⟨0, -1⟩⟩], l ≠ x.dst.place) →
          l ≠ .reg 11 → l ≠ .slot 7 → runCode t.code σ l = σ l :=
  edge_moves_take_effect (by decide) (by unfold Named; decide) (by unfold Named; decide)

end

end TurboJS.Moves
