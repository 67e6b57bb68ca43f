import TurboJS.Baseline.Implements
import TurboJS.StackMaps.Sound
import TurboJS.IR.Access

namespace TurboJS.Baseline

open IR Foundation StackMaps

/-! Resuming in the interpreter depends on the live slots only. -/

def slotValue (fr : Frame) : Slot → Word
  | .reg r => fr.registers r
  | .loc l => fr.locals l

def SameOn (A : Slot → Prop) (fr fr' : Frame) : Prop := ∀ x, A x → slotValue fr x = slotValue fr' x

inductive EffectSame (A : Slot → Prop) : Effect → Effect → Prop where
  | next {fr fr' : Frame} (h : SameOn A fr fr') : EffectSame A (.next fr) (.next fr')
  | goto {pc : Nat} {fr fr' : Frame} (h : SameOn A fr fr') :
      EffectSame A (.goto pc fr) (.goto pc fr')
  | done (v : Word) : EffectSame A (.done v) (.done v)
  | bail (reason : BailoutReason) : EffectSame A (.bail reason) (.bail reason)
  | fail (status : Status) : EffectSame A (.fail status) (.fail status)

section

variable {env : Env} {f : Function} {i : Instruction} {A B : Slot → Prop} {fr fr' : Frame}
  {k steps : Nat}

theorem SameOn.mono (hsub : ∀ x, B x → A x) (h : SameOn A fr fr') : SameOn B fr fr' :=
  fun x hx => h x (hsub x hx)

theorem SameOn.setRegister (h : SameOn A fr fr') (d : Nat) (v : Word) :
    SameOn (fun x => A x ∨ x = .reg d) (fr.setRegister d v) (fr'.setRegister d v) := by
  intro x hx
  by_cases hd : x = .reg d
  · subst hd
    simp [slotValue]
  · have hsame := h x (hx.resolve_right hd)
    cases x with
    | reg r =>
      have hr : r ≠ d := fun he => hd (by rw [he])
      simpa [slotValue, hr] using hsame
    | loc l => simpa [slotValue] using hsame

theorem SameOn.setLocal (h : SameOn A fr fr') (d : Nat) (v : Word) :
    SameOn (fun x => A x ∨ x = .loc d) (fr.setLocal d v) (fr'.setLocal d v) := by
  intro x hx
  by_cases hd : x = .loc d
  · subst hd
    simp [slotValue]
  · have hsame := h x (hx.resolve_right hd)
    cases x with
    | reg r => simpa [slotValue] using hsame
    | loc l =>
      have hl : l ≠ d := fun he => hd (by rw [he])
      simpa [slotValue, hl] using hsame

def Behind (i : Instruction) (A : Slot → Prop) (x : Slot) : Prop := A x ∨ slotWrite i = some x

theorem EffectSame.wrote (h : SameOn A fr fr') (hw : slotWrite i = some (.reg i.destination))
    {v v' : Word} (hv : v = v') :
    EffectSame (Behind i A) (.next (fr.setRegister i.destination v))
      (.next (fr'.setRegister i.destination v')) := by
  subst hv
  refine .next ((h.setRegister i.destination v).mono ?_)
  rintro x (hx | hx)
  · exact .inl hx
  · rw [hw, Option.some.injEq] at hx
    exact .inr hx.symm

theorem EffectSame.checked (h : SameOn A fr fr') (hw : slotWrite i = some (.reg i.destination))
    {v v' : Word} (hv : v = v') :
    EffectSame (Behind i A) (checkedI32 v fr i.destination) (checkedI32 v' fr' i.destination) := by
  subst hv
  unfold checkedI32
  split
  · exact .wrote h hw rfl
  · exact .bail _

theorem EffectSame.kept (h : SameOn A fr fr') (hw : slotWrite i = none) :
    SameOn (Behind i A) fr fr' := by
  refine h.mono ?_
  rintro x (hx | hx)
  · exact hx
  · rw [hw] at hx
    cases hx

theorem EffectSame.called (h : SameOn A fr fr') (hw : slotWrite i = some (.reg i.destination))
    (kind : EntryKind) (hargs : ∀ site, i.site = some site →
      site.arguments.map fr.registers = site.arguments.map fr'.registers) :
    EffectSame (Behind i A) (callNative env f i kind fr) (callNative env f i kind fr') := by
  unfold callNative
  cases hs : i.site with
  | none => exact .bail _
  | some site =>
    simp only [hargs site hs]
    split
    · exact .bail _
    · cases clutchCallSiteInvoke env kind site (site.arguments.map fr'.registers) with
      | none => exact .bail _
      | some v => exact .wrote h hw rfl

/-- An instruction does the same on frames that hold the same in what it reads. -/
theorem effect_same (h : SameOn A fr fr') (hreads : ∀ x ∈ slotReads i, A x) :
    EffectSame (Behind i A) (effect env f i fr) (effect env f i fr') := by
  have hread : ∀ x ∈ slotReads i, slotValue fr x = slotValue fr' x := fun x hx => h x (hreads x hx)
  cases hop : i.opcode
  case callNativeI64 | callNativeF64 =>
    have hargs : ∀ site, i.site = some site →
        site.arguments.map fr.registers = site.arguments.map fr'.registers := by
      intro site hs
      apply List.map_congr_left
      intro r hr
      exact hread (.reg r) (by
        simp only [slotReads, hop, hs]
        exact List.mem_append_right _ (List.mem_map.mpr ⟨r, hr, rfl⟩))
    simp only [effect, hop]
    exact .called h (by simp [slotWrite, marksDestination, hop]) _ hargs
  case addI64 | subI64 | mulI64 | addF64 | subF64 | mulF64 | divF64 | lessThanF64 | lessEqualF64 |
      equalF64 | lessThanI64 =>
    have hl : fr.registers i.left = fr'.registers i.left :=
      hread (.reg i.left) (by simp [slotReads, hop])
    have hr : fr.registers i.right = fr'.registers i.right :=
      hread (.reg i.right) (by simp [slotReads, hop])
    simp only [effect, hop]
    exact .wrote h (by simp [slotWrite, marksDestination, hop]) (by rw [hl, hr])
  case addI32Checked | subI32Checked | mulI32Checked =>
    have hl : fr.registers i.left = fr'.registers i.left :=
      hread (.reg i.left) (by simp [slotReads, hop])
    have hr : fr.registers i.right = fr'.registers i.right :=
      hread (.reg i.right) (by simp [slotReads, hop])
    simp only [effect, hop]
    exact .checked h (by simp [slotWrite, marksDestination, hop]) (by rw [hl, hr])
  case divI32Checked | remI32Checked =>
    have hl : fr.registers i.left = fr'.registers i.left :=
      hread (.reg i.left) (by simp [slotReads, hop])
    have hr : fr.registers i.right = fr'.registers i.right :=
      hread (.reg i.right) (by simp [slotReads, hop])
    simp only [effect, hop, hl, hr]
    repeat' split
    all_goals first
      | exact .bail _
      | exact .wrote h (by simp [slotWrite, marksDestination, hop]) rfl
  case i64ToF64 | f64ToI64Trunc =>
    have hl : fr.registers i.left = fr'.registers i.left :=
      hread (.reg i.left) (by simp [slotReads, hop])
    simp only [effect, hop]
    exact .wrote h (by simp [slotWrite, marksDestination, hop]) (by rw [hl])
  case constantI64 | constantF64 =>
    simp only [effect, hop]
    exact .wrote h (by simp [slotWrite, marksDestination, hop]) rfl
  case localGet =>
    have hl : fr.locals i.immediate.toNat = fr'.locals i.immediate.toNat :=
      hread (.loc i.immediate.toNat) (by simp [slotReads, hop])
    simp only [effect, hop]
    exact .wrote h (by simp [slotWrite, marksDestination, hop]) hl
  case localSet =>
    have hl : fr.registers i.left = fr'.registers i.left :=
      hread (.reg i.left) (by simp [slotReads, hop])
    simp only [effect, hop, hl]
    refine .next ((h.setLocal i.immediate.toNat (fr'.registers i.left)).mono ?_)
    rintro x (hx | hx)
    · exact .inl hx
    · simp only [slotWrite, marksDestination, hop, Bool.false_eq_true, if_false, if_true,
        Option.some.injEq] at hx
      exact .inr hx.symm
  case branchTrue | branchFalse =>
    have hl : fr.registers i.left = fr'.registers i.left :=
      hread (.reg i.left) (by simp [slotReads, hop])
    have hkept : SameOn (Behind i A) fr fr' :=
      EffectSame.kept h (by simp [slotWrite, marksDestination, hop])
    simp only [effect, hop, hl]
    split
    · exact .goto hkept
    · exact .next hkept
  case returnI64 | returnF64 =>
    have hl : fr.registers i.left = fr'.registers i.left :=
      hread (.reg i.left) (by simp [slotReads, hop])
    simp only [effect, hop, hl]
    exact .done _
  case nop =>
    simp only [effect, hop]
    exact .next (EffectSame.kept h (by simp [slotWrite, marksDestination, hop]))
  case jump =>
    simp only [effect, hop]
    exact .goto (EffectSame.kept h (by simp [slotWrite, marksDestination, hop]))
  case runtimeHelper =>
    simp only [effect, hop]
    exact .bail _
  all_goals
    simp only [effect, hop]
    exact .fail _

theorem successors_flowsTo {k' : Nat} (h : k' ∈ successors k i) : k' ∈ flowsTo k i := by
  unfold successors at h
  unfold flowsTo
  cases hop : i.opcode <;> simp_all

theorem effect_flowsTo (env : Env) (f : Function) (i : Instruction) (fr : Frame) (k : Nat) :
    match effect env f i fr with
    | .next _ => k + 1 ∈ flowsTo k i
    | .goto t _ => t ∈ flowsTo k i
    | _ => True := by
  by_cases hop : i.opcode = .argument
  · simp [effect, hop]
  · have hflows := refEffect_flows env f [] k i fr
    rw [refEffect_of_ne hop] at hflows
    cases he : effect env f i fr with
    | next fr' =>
      rw [he] at hflows
      exact successors_flowsTo hflows
    | goto t fr' =>
      rw [he] at hflows
      exact successors_flowsTo hflows.1
    | done v => trivial
    | bail reason => trivial
    | fail status => trivial

theorem executeFrom_same (h : SameOn (Live f k) fr fr') :
    executeFrom env f steps fr k = executeFrom env f steps fr' k := by
  induction steps generalizing k fr fr' with
  | zero =>
    unfold executeFrom
    cases f.instructions[k]? <;> rfl
  | succ steps ih =>
    unfold executeFrom
    cases hi : f.instructions[k]? with
    | none => rfl
    | some i =>
      simp only
      split
      · rfl
      · have hreads : ∀ x ∈ slotReads i, Live f k x := fun x hx => .read hi hx
        have hsame : EffectSame (Behind i (Live f k)) (effect env f i fr) (effect env f i fr') :=
          effect_same h hreads
        have hflows := effect_flowsTo env f i fr k
        have hnext : ∀ k', k' ∈ flowsTo k i → ∀ x, Live f k' x → Behind i (Live f k) x := by
          intro k' hk' x hx
          by_cases hw : slotWrite i = some x
          · exact .inr hw
          · exact .inl (.pass hi hk' hx hw)
        generalize effect env f i fr = e at hsame hflows
        generalize effect env f i fr' = e' at hsame
        cases hsame with
        | next hframes => exact ih (hframes.mono (hnext _ hflows))
        | goto hframes => exact ih (hframes.mono (hnext _ hflows))
        | done v => rfl
        | bail reason => rfl
        | fail status => rfl

end

end TurboJS.Baseline
