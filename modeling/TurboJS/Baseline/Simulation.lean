import TurboJS.Baseline.Effect

namespace TurboJS.Baseline

open IR Foundation

/-- The operations leave a word in `rax` and nothing else. -/
def Computes (w : World) (f : Function) (ops : List Op) (m : Machine) (v : Word) : Prop :=
  ∃ m', execAll w f ops m = some m' ∧ Scratched m m' ∧ m'.gpr 0 = .word v

/-- Native code has left at `k`, and the deopt values hold the cells of `W`. -/
structure BailsAt (f : Function) (k status : Nat) (W : Set Nat) (fr : Frame) (m' : Machine) :
    Prop where
  status : m'.gpr 0 = .word (BitVec.ofNat 64 status)
  index : m'.deopt 0 = BitVec.ofNat 64 k
  cells : ∀ c ∈ W, m'.deopt (1 + c) = frameCell f fr c

section

variable {w : World} {f : Function} {code ops body : List Op} {W : Set Nat} {fr : Frame}
  {n off k status : Nat} {m m' : Machine} {v : Word} {i : Instruction}

theorem Agrees.bailsAt (h : Agrees f W fr n m) (hW : ∀ c ∈ W, c < f.registerCount + f.localCount)
    (hl : LeavesAt f k status m m') : BailsAt f k status W fr m' where
  status := hl.status
  index := hl.index
  cells := by
    intro c hc
    rw [hl.cells c (hW c hc), h.cells c hc]

theorem Computes.straight (hc : Computes w f ops m v) (h : Located code off ops) :
    ∃ m', Executes w f code (off, m) ((off + extent Op.size ops : Nat), m') ∧ Scratched m m' ∧
      m'.gpr 0 = .word v := by
  obtain ⟨m', he, hs, hv⟩ := hc
  exact ⟨m', h.straight he, hs, hv⟩

theorem Located.stored {d : Int} (h : Located code off [.storeFrame d 0])
    (hv : m.gpr 0 = .word v) :
    Executes w f code (off, m) ((off + 7 : Nat), m.setFrame d v) := by
  apply h.step
  simp [exec, Machine.word, hv]

theorem Located.guard {onEqual : Bool} {flags : Flags}
    (h : Located code off (skipIf onEqual (returnBailoutAt f k status))) (w : World)
    (hsmall : extent Op.size code < 2 ^ 31) (hf : m.flags = some flags)
    (h9 : m.gpr 9 = .pointer .deopt) :
    (flags.zero = onEqual → Executes w f code (off, m)
      ((off + extent Op.size (skipIf onEqual (returnBailoutAt f k status)) : Nat), m)) ∧
    (flags.zero ≠ onEqual → ∃ m', Leaves w f code (off, m) m' ∧ LeavesAt f k status m m') := by
  constructor
  · intro hz
    have hbody : extent Op.size (returnBailoutAt f k status) < 2 ^ 31 := by
      have hbound := h.bound
      simp only [skipIf, extent_cons] at hbound
      omega
    exact h.skip hf hz hbody
  · intro hz
    obtain ⟨hrun, hat⟩ := h.enter hf hz
    obtain ⟨m', hleaves, hl⟩ := hat.bailout h9
    exact ⟨m', hleaves.after hrun, hl⟩

/-- The result of `op` on the operands of a two-operand instruction. -/
def Operates (w : World) (f : Function) (op : Nat → Nat → Op) (g : Word → Word → Word) : Prop :=
  ∀ (m : Machine) (a b : Word), m.gpr 0 = .word a → m.gpr 1 = .word b →
    exec w f (op 0 1) m = some ((m.set 0 (.word (g a b))).setFlags none)

theorem operates_add : Operates w f .add (· + ·) := by
  intro m a b ha hb
  simp [exec, Machine.word, ha, hb]

theorem operates_sub : Operates w f .sub (· - ·) := by
  intro m a b ha hb
  simp [exec, Machine.word, ha, hb]

theorem operates_imul : Operates w f .imul (· * ·) := by
  intro m a b ha hb
  simp [exec, Machine.word, ha, hb]

theorem Operates.computes {op : Nat → Nat → Op} {g : Word → Word → Word} (h : Operates w f op g)
    (m : Machine) :
    Computes w f (binaryOps i op) m
      (g (m.frame (slotDisp i.left)) (m.frame (slotDisp i.right))) := by
  have hexec : execAll w f (binaryOps i op) m =
      some ((((m.set 0 (.word (m.frame (slotDisp i.left)))).set 1
        (.word (m.frame (slotDisp i.right)))).set 0
          (.word (g (m.frame (slotDisp i.left)) (m.frame (slotDisp i.right))))).setFlags none) := by
    simp only [binaryOps, execAll_cons, exec_loadSlot, Option.bind_some]
    rw [h _ (m.frame (slotDisp i.left)) (m.frame (slotDisp i.right)) (by simp) (by simp)]
    rfl
  refine ⟨_, hexec, ?_, by simp⟩
  exact (((Scratched.set m (by omega) _).trans (.set _ (by omega) _)).trans
    (.set _ (by omega) _)).trans (.setFlags _ _)

theorem Located.checked (h : Located code off (checkI32 f k)) (w : World)
    (hsmall : extent Op.size code < 2 ^ 31) (h9 : m.gpr 9 = .pointer .deopt)
    (hv : m.gpr 0 = .word v) :
    (fitsInt32 v = true → ∃ m', Executes w f code (off, m)
      ((off + extent Op.size (checkI32 f k) : Nat), m') ∧ Scratched m m' ∧ m'.gpr 0 = .word v) ∧
    (fitsInt32 v = false → ∃ m' m'', Leaves w f code (off, m) m'' ∧ Scratched m m' ∧
      LeavesAt f k 1 m' m'') := by
  have hexec : execAll w f [.movsxdRcxEax, .cmp 0 1] m =
      some ((m.set 1 (.word ((v.setWidth 32).signExtend 64))).compare v
        ((v.setWidth 32).signExtend 64)) := by
    simp [execAll, exec, Machine.word, hv]
  have hrun := h.left.straight hexec
  have hscratch : Scratched m ((m.set 1 (.word ((v.setWidth 32).signExtend 64))).compare v
      ((v.setWidth 32).signExtend 64)) :=
    (Scratched.set m (by omega) _).trans (.setFlags _ _)
  obtain ⟨hgo, hleave⟩ := h.right.guard w hsmall rfl ((hscratch.gpr 9 (by omega)).trans h9)
  rw [fitsInt32_signExtend]
  constructor
  · intro hfits
    refine ⟨_, ?_, hscratch, ?_⟩
    · have hrest := hrun.trans (hgo hfits)
      rw [Nat.add_assoc, ← extent_append] at hrest
      exact hrest
    · simpa [Machine.compare] using hv
  · intro hfits
    obtain ⟨m'', hleaves, hl⟩ := hleave (by simp [hfits])
    exact ⟨_, m'', hleaves.after hrun, hscratch, hl⟩

theorem signWord_toInt (l : Word) :
    ((if l.slt 0 then -1 else 0 : Word).toInt * 2 ^ 64 + l.toNat : Int) = l.toInt := by
  have hlt := l.isLt
  have hslt : l.slt 0 = l.msb := BitVec.slt_zero_eq_msb
  rw [hslt]
  cases hm : l.msb with
  | false =>
    have hhalf := BitVec.msb_eq_false_iff_two_mul_lt.mp hm
    have htoInt : l.toInt = l.toNat := by
      rw [BitVec.toInt_eq_toNat_cond, if_pos hhalf]
    rw [htoInt]
    simp
  | true =>
    have hhalf := BitVec.msb_eq_true_iff_two_mul_ge.mp hm
    have htoInt : l.toInt = l.toNat - 2 ^ 64 := by
      rw [BitVec.toInt_eq_toNat_cond, if_neg (Nat.not_lt.mpr hhalf)]
      rfl
    have hone : (-1 : Word).toInt = -1 := by decide
    rw [if_pos rfl, hone, htoInt]
    omega

theorem idiv_eq {l r : Word} (hr : r ≠ 0) (hover : ¬ (l = BitVec.intMin 64 ∧ r = -1)) :
    idiv (if l.slt 0 then -1 else 0) l r = some (l.sdiv r, l.srem r) := by
  have hne : l ≠ BitVec.intMin 64 ∨ r ≠ -1#64 := by
    by_cases hl : l = BitVec.intMin 64
    · exact .inr fun h => hover ⟨hl, h⟩
    · exact .inl hl
  have hsdiv := BitVec.toInt_sdiv_of_ne_or_ne l r hne
  have hquotient : (BitVec.ofInt 64 (l.toInt.tdiv r.toInt) : Word) = l.sdiv r := by
    rw [← hsdiv, BitVec.ofInt_toInt]
  have hremainder : (BitVec.ofInt 64 (l.toInt.tmod r.toInt) : Word) = l.srem r := by
    rw [← BitVec.toInt_srem, BitVec.ofInt_toInt]
  have hbound : ¬ (r = 0 ∨ l.toInt.tdiv r.toInt < -2 ^ 63 ∨ 2 ^ 63 ≤ l.toInt.tdiv r.toInt) := by
    have hlo := BitVec.le_toInt (l.sdiv r)
    have hhi := BitVec.toInt_lt (x := l.sdiv r)
    rintro (h | h | h)
    · exact hr h
    · omega
    · omega
  simp only [idiv, signWord_toInt, if_neg hbound, hquotient, hremainder]

section

variable {l r : Word} {wantRemainder : Bool}

theorem divremOperation_computes (h0 : m.gpr 0 = .word l) (h1 : m.gpr 1 = .word r) (hr : r ≠ 0)
    (hover : ¬ (l = BitVec.intMin 64 ∧ r = -1)) :
    Computes w f (divremOperation wantRemainder) m
      (if wantRemainder then l.srem r else l.sdiv r) := by
  have hidiv : execAll w f [.cqo, .idivRcx] m =
      some ((((m.set 2 (.word (if l.slt 0 then -1 else 0))).set 0 (.word (l.sdiv r))).set 2
        (.word (l.srem r))).setFlags none) := by
    have hdiv := idiv_eq hr hover
    simp only [execAll_cons, exec, Machine.word, h0, Option.bind_eq_bind, Option.bind_some,
      Machine.set_gpr, Function.update_self, Function.update_of_ne (show (0 : Nat) ≠ 2 by decide),
      Function.update_of_ne (show (1 : Nat) ≠ 2 by decide), h1, hdiv, execAll_nil]
  cases wantRemainder with
  | false =>
    refine ⟨_, hidiv, ?_, by simp⟩
    exact (((Scratched.set m (by omega) _).trans (.set _ (by omega) _)).trans
      (.set _ (by omega) _)).trans (.setFlags _ _)
  | true =>
    refine ⟨(((((m.set 2 (.word (if l.slt 0 then -1 else 0))).set 0 (.word (l.sdiv r))).set 2
      (.word (l.srem r))).setFlags none).set 0 (.word (l.srem r))), ?_, ?_, by simp⟩
    · rw [divremOperation, if_pos rfl, execAll_append, hidiv]
      simp [execAll_cons, exec]
    · exact ((((Scratched.set m (by omega) _).trans (.set _ (by omega) _)).trans
        (.set _ (by omega) _)).trans (.setFlags _ _)).trans (.set _ (by omega) _)

theorem Located.nonzero
    (h : Located code off (([.test 1] : List Op) ++
      skipIf false (returnBailoutAt f k status))) (w : World)
    (hsmall : extent Op.size code < 2 ^ 31) (h9 : m.gpr 9 = .pointer .deopt)
    (h1 : m.gpr 1 = .word r) :
    (r ≠ 0 → Executes w f code (off, m)
      ((off + extent Op.size (([.test 1] : List Op) ++
        skipIf false (returnBailoutAt f k status)) : Nat),
        m.compare r 0)) ∧
    (r = 0 → ∃ m', Leaves w f code (off, m) m' ∧ LeavesAt f k status (m.compare r 0) m') := by
  have hexec : execAll w f [.test 1] m = some (m.compare r 0) := by
    simp [execAll_cons, exec, h1]
  have hrun := h.left.straight hexec
  have h9' : (m.compare r 0).gpr 9 = .pointer .deopt := h9
  obtain ⟨hgo, hleave⟩ := h.right.guard w hsmall rfl h9'
  constructor
  · intro hr
    have hrest := hrun.trans (hgo (by simpa using hr))
    rw [Nat.add_assoc, ← extent_append] at hrest
    exact hrest
  · intro hr
    obtain ⟨m', hleaves, hl⟩ := hleave (by simp [hr])
    exact ⟨m', hleaves.after hrun, hl⟩

theorem Located.compared {reg : Nat} {a x : Word}
    (h : Located code off (([.movImm64 2 x, .cmp reg 2] : List Op) ++ skipIf false body))
    (w : World) (f : Function) (hsmall : extent Op.size code < 2 ^ 31) (hreg : reg ≠ 2)
    (ha : m.gpr reg = .word a) :
    (a ≠ x → Executes w f code (off, m)
      ((off + extent Op.size (([.movImm64 2 x, .cmp reg 2] : List Op) ++ skipIf false body) : Nat),
        (m.set 2 (.word x)).compare a x)) ∧
    (a = x → ∃ off', off' + extent Op.size body =
        off + extent Op.size (([.movImm64 2 x, .cmp reg 2] : List Op) ++ skipIf false body) ∧
      Located code off' body ∧
      Executes w f code (off, m) (off', (m.set 2 (.word x)).compare a x)) := by
  have hexec : execAll w f [.movImm64 2 x, .cmp reg 2] m =
      some ((m.set 2 (.word x)).compare a x) := by
    simp [execAll_cons, exec, Machine.word, Function.update_of_ne hreg, ha]
  have hrun := h.left.straight hexec
  have hflags : ((m.set 2 (.word x)).compare a x).flags = some ⟨a == x, a.slt x⟩ := rfl
  constructor
  · intro hne
    have hbody : extent Op.size body < 2 ^ 31 := by
      have hbound := h.right.bound
      simp only [skipIf, extent_cons] at hbound
      omega
    have hrest := hrun.trans (h.right.skip hflags (by simpa using hne) hbody)
    rw [Nat.add_assoc, ← extent_append] at hrest
    exact hrest
  · intro heq
    obtain ⟨henter, hat⟩ := h.right.enter hflags (by simp [heq])
    refine ⟨_, ?_, hat, hrun.trans henter⟩
    simp only [extent_append, skipIf, extent_cons, Op.size]
    omega

theorem Located.divrem (h : Located code off (emitDivremChecked f k wantRemainder)) (w : World)
    (hsmall : extent Op.size code < 2 ^ 31) (h9 : m.gpr 9 = .pointer .deopt)
    (h0 : m.gpr 0 = .word l) (h1 : m.gpr 1 = .word r) :
    (r = 0 → ∃ m₁ m', Leaves w f code (off, m) m' ∧ Scratched m m₁ ∧ LeavesAt f k 2 m₁ m') ∧
    (wantRemainder = false → l = int32Min → r = -1 →
      ∃ m₁ m', Leaves w f code (off, m) m' ∧ Scratched m m₁ ∧ LeavesAt f k 3 m₁ m') ∧
    (r ≠ 0 → ¬ (l = BitVec.intMin 64 ∧ r = -1) →
      ¬ (wantRemainder = false ∧ l = int32Min ∧ r = -1) →
      ∃ m', Executes w f code (off, m)
          ((off + extent Op.size (emitDivremChecked f k wantRemainder) : Nat), m') ∧
        Scratched m m' ∧ m'.gpr 0 = .word (if wantRemainder then l.srem r else l.sdiv r)) := by
  unfold emitDivremChecked at h ⊢
  simp only at h ⊢
  generalize hA : ([.test 1] : List Op) ++ skipIf false (returnBailoutAt f k 2) = A at h ⊢
  generalize hB : ([.movImm64 2 int32Min, .cmp 0 2] : List Op) ++
    skipIf false (([.movImm64 2 (-1), .cmp 1 2] : List Op) ++
    skipIf false (divremSpecial f k wantRemainder (divremOperation wantRemainder))) = B at h ⊢
  have hatA : Located code off A := h.left.left
  have hatB : Located code (off + extent Op.size A) B := h.left.right
  have hatC := h.right
  rw [extent_append, ← Nat.add_assoc] at hatC
  subst hA hB
  obtain ⟨hgo, hleave⟩ := hatA.nonzero w hsmall h9 h1
  have hs₁ : Scratched m (m.compare r 0) := .setFlags m _
  have h0₁ : (m.compare r 0).gpr 0 = .word l := h0
  obtain ⟨hother, hmin⟩ := hatB.compared w f hsmall (by omega) h0₁
  have hs₂ : Scratched m (((m.compare r 0).set 2 (.word int32Min)).compare l int32Min) :=
    (hs₁.trans (.set _ (by omega) _)).trans (.setFlags _ _)
  have h1₂ : (((m.compare r 0).set 2 (.word int32Min)).compare l int32Min).gpr 1 = .word r := by
    simpa [Machine.compare] using h1
  have h0₂ : (((m.compare r 0).set 2 (.word int32Min)).compare l int32Min).gpr 0 = .word l := by
    simpa [Machine.compare] using h0
  generalize hm₂ : ((m.compare r 0).set 2 (.word int32Min)).compare l int32Min = m₂ at *
  -- What the division proper does from the place behind the special case.
  have hoperation : ∀ m₃, Scratched m m₃ → m₃.gpr 0 = .word l → m₃.gpr 1 = .word r →
      Executes w f code (off, m) ((off + extent Op.size (([.test 1] : List Op) ++
        skipIf false (returnBailoutAt f k 2)) +
        extent Op.size (([.movImm64 2 int32Min, .cmp 0 2] : List Op) ++
          skipIf false (([.movImm64 2 (-1), .cmp 1 2] : List Op) ++ skipIf false
            (divremSpecial f k wantRemainder (divremOperation wantRemainder)))) : Nat), m₃) →
      r ≠ 0 → ¬ (l = BitVec.intMin 64 ∧ r = -1) →
      ∃ m', Executes w f code (off, m) ((off + extent Op.size (([.test 1] : List Op) ++
          skipIf false (returnBailoutAt f k 2) ++ (([.movImm64 2 int32Min, .cmp 0 2] : List Op) ++
            skipIf false (([.movImm64 2 (-1), .cmp 1 2] : List Op) ++ skipIf false
              (divremSpecial f k wantRemainder (divremOperation wantRemainder)))) ++
                divremOperation wantRemainder) : Nat), m') ∧
        Scratched m m' ∧ m'.gpr 0 = .word (if wantRemainder then l.srem r else l.sdiv r) := by
    intro m₃ hs₃ h0₃ h1₃ hrun hr hover
    obtain ⟨m', hrest, hs', hv⟩ := (divremOperation_computes h0₃ h1₃ hr hover).straight hatC
    refine ⟨m', ?_, hs₃.trans hs', hv⟩
    have hall := hrun.trans hrest
    rw [extent_append _ (_ ++ _) (divremOperation wantRemainder), extent_append _ (_ ++ skipIf _ _),
      ← Nat.add_assoc, ← Nat.add_assoc]
    exact hall
  refine ⟨?_, ?_, ?_⟩
  · intro hr
    obtain ⟨m', hleaves, hl⟩ := hleave hr
    exact ⟨_, m', hleaves, hs₁, hl⟩
  · intro hrem hl hr
    have hr' : r ≠ 0 := by
      rw [hr]
      decide
    obtain ⟨off', -, hat', hrun'⟩ := hmin hl
    obtain ⟨-, hneg⟩ := hat'.compared w f hsmall (by omega) h1₂
    obtain ⟨off'', -, hat'', hrun''⟩ := hneg hr
    rw [divremSpecial, hrem, if_neg (by simp)] at hat''
    have hs₃ : Scratched m ((m₂.set 2 (.word (-1))).compare r (-1)) :=
      (hs₂.trans (.set _ (by omega) _)).trans (.setFlags _ _)
    obtain ⟨m', hleaves, hl'⟩ := hat''.bailout ((hs₃.gpr 9 (by omega)).trans h9)
    exact ⟨_, m', hleaves.after (((hgo hr').trans hrun').trans hrun''), hs₃, hl'⟩
  · intro hr hover hdiv
    by_cases hl : l = int32Min
    · obtain ⟨off', hoff', hat', hrun'⟩ := hmin hl
      obtain ⟨hpos, hneg⟩ := hat'.compared w f hsmall (by omega) h1₂
      have hs₃ : Scratched m ((m₂.set 2 (.word (-1))).compare r (-1)) :=
        (hs₂.trans (.set _ (by omega) _)).trans (.setFlags _ _)
      by_cases hr1 : r = -1
      · -- The remainder of INT32_MIN by -1 is set to zero.
        cases wantRemainder with
        | false => exact absurd ⟨rfl, hl, hr1⟩ hdiv
        | true =>
          obtain ⟨off'', hoff'', hat'', hrun''⟩ := hneg hr1
          rw [divremSpecial, if_pos rfl] at hat''
          have hxor : exec w f .xorEax ((m₂.set 2 (.word (-1))).compare r (-1)) =
              some ((((m₂.set 2 (.word (-1))).compare r (-1)).set 0 (.word 0)).setFlags none) := rfl
          have hjump := hat''.tail.jump w f
            ((((m₂.set 2 (.word (-1))).compare r (-1)).set 0 (.word 0)).setFlags none)
          have hwrap : wrap32 (extent Op.size (divremOperation true)) =
              extent Op.size (divremOperation true) := by
            apply wrap32_of_small <;> decide
          have hs₄ : Scratched m
              ((((m₂.set 2 (.word (-1))).compare r (-1)).set 0 (.word 0)).setFlags none) :=
            (hs₃.trans (.set _ (by omega) _)).trans (.setFlags _ _)
          refine ⟨_, ?_, hs₄, ?_⟩
          · have hall := ((((hgo hr).trans hrun').trans hrun'').trans (hat''.step hxor)).trans hjump
            have hend : ((off'' + Op.xorEax.size : Nat) : Int) + 5 +
                wrap32 (extent Op.size (divremOperation true)) =
                ((off'' + extent Op.size (divremSpecial f k true (divremOperation true)) +
                  extent Op.size (divremOperation true) : Nat) : Int) := by
              rw [divremSpecial, if_pos rfl, hwrap]
              simp only [extent_cons, extent_nil, Op.size]
              push_cast
              omega
            rw [hend, hoff'', hoff'] at hall
            rw [extent_append _ (_ ++ _) (divremOperation true), extent_append _ (_ ++ skipIf _ _),
              ← Nat.add_assoc, ← Nat.add_assoc]
            exact hall
          · rw [hl, hr1]
            rfl
      · apply hoperation _ hs₃ _ _ _ hr hover
        · simpa [Machine.compare] using h0₂
        · simpa [Machine.compare] using h1₂
        · have hall := ((hgo hr).trans hrun').trans (hpos hr1)
          rw [hoff'] at hall
          exact hall
    · exact hoperation m₂ hs₂ h0₂ h1₂ ((hgo hr).trans (hother hl)) hr hover

end

end

end TurboJS.Baseline
