import TurboJS.Baseline.StackContents

namespace TurboJS.Baseline

open IR Foundation

/-! Native code against the interpreter without its step limit. -/

inductive PathTo (f : Function) : Nat → Set Nat → Prop where
  | entry : PathTo f 0 ∅
  | step {k k' : Nat} {W : Set Nat} {i : Instruction} (h : PathTo f k W)
      (hi : f.instructions[k]? = some i) (hs : k' ∈ successors k i) :
      PathTo f k' (writtenAfter f i W)

def WrittenBeforeRead (f : Function) : Prop :=
  ∀ k W i, PathTo f k W → f.instructions[k]? = some i → ∀ c ∈ cellReads f i, c ∈ W

def ReferenceEnds (w : World) (f : Function) (x : Ending) : Prop :=
  f.argumentCount ≤ w.arguments.length ∧ ∃ n, Ends w.env f w.arguments n .zero 0 x

def NativeResult.ending : NativeResult → Option Ending
  | .invalidArgument => none
  | .ok v => some (.returned v)
  | .bailout reason index _ _ => some (.bailed index reason)

def NativeEnds (w : World) (f : Function) (code : List Op) (m : Machine) (x : Ending) : Prop :=
  ∃ r, Invokes w f code m r ∧ r.ending = some x

/-- A bailout that native code may take where the interpreter goes on: a runtime helper, a
native call that failed, or a backward branch with a safepoint requested. -/
def Excused (w : World) (f : Function) : Ending → Prop
  | .returned _ => False
  | .bailed k reason => ∃ i, f.instructions[k]? = some i ∧
      (reason = .runtimeHelper ∧ (i.opcode = .runtimeHelper ∨ isCallNative i = true) ∨
        reason = .safepointRequested ∧ pollsAt k i = true ∧ ∃ n, w.requested n = true)

/-- Native code returns what the interpreter returns, and bails out where it does or where it
is excused. -/
structure Implements (w : World) (f : Function) (code : List Op) (m : Machine) : Prop where
  returned : ∀ v, NativeEnds w f code m (.returned v) → ReferenceEnds w f (.returned v)
  reached : ∀ x, ReferenceEnds w f x →
    NativeEnds w f code m x ∨ ∃ y, NativeEnds w f code m y ∧ Excused w f y
  bailed : ∀ k reason, NativeEnds w f code m (.bailed k reason) →
    ReferenceEnds w f (.bailed k reason) ∨ Excused w f (.bailed k reason)

def callKind (i : Instruction) : EntryKind :=
  if i.opcode = .callNativeF64 then .float64 else .int32

/-- The checks of the interpreter's call: the kind of the opcode, a live handle and enough
arguments. -/
def interpreterAdmits (env : Env) (i : Instruction) (site : ClutchCallSite) : Bool :=
  match site.target with
  | none => false
  | some handle =>
    site.expectedKind == callKind i && handle.isLive site.expectedGeneration (callKind i) &&
      decide (handle.argumentCount ≤ site.argumentCount) &&
      match handle.function with
      | some id => decide (env.arity id ≤ site.argumentCount)
      | none => false

/-- What native code does not check at an instruction: that it is inside the code and the
interpreter's locals, that the division has a result, and that the interpreter admits a call
which the native guards let through. -/
structure Comparable (w : World) (f : Function) (s : NativeState) : Prop where
  inside : s.pc < f.instructions.length
  locals : ∀ i, f.instructions[s.pc]? = some i → localsInBounds i = true
  divides : ∀ i, f.instructions[s.pc]? = some i → divisionFaults i s.frame = false
  admits : ∀ i site, f.instructions[s.pc]? = some i → isCallNative i = true →
    i.site = some site → receiverRefused w f site s.frame = false →
    (publishedEntry site).isSome = true → interpreterAdmits w.env i site = true

section

variable {w : World} {f : Function} {code : List Op} {s s' : NativeState} {m : Machine}
  {i : Instruction} {k n : Nat} {fr : Frame} {x : Ending}

theorem nativeNext_moves (h : nativeNext w f s = some s') :
    ∃ i, f.instructions[s.pc]? = some i ∧ s'.pc ∈ successors s.pc i ∧
      s'.written = writtenAfter f i s.written := by
  obtain ⟨i, hi, hcases⟩ := nativeNext_cases h
  have hflows := nativeEffect_flows w f s.pc i s.polls s.frame
  rcases hcases with ⟨fr, he, rfl⟩ | ⟨t, fr, he, rfl⟩
  · rw [he] at hflows
    exact ⟨i, hi, hflows, rfl⟩
  · rw [he] at hflows
    exact ⟨i, hi, hflows.1, rfl⟩

theorem Follows.path (h : Follows w f .initial s) : PathTo f s.pc s.written := by
  refine Runs.keeps (P := fun s => PathTo f s.pc s.written) ?_ h .entry
  intro s s' hpath hs
  obtain ⟨i, hi, hnext, hwritten⟩ := nativeNext_moves hs
  rw [hwritten]
  exact .step hpath hi hnext

theorem clutchCallSiteInvoke_admitted {site : ClutchCallSite} {id : Nat} {arguments : List Word}
    (hcount : site.argumentCount ≤ clutchMaxArguments)
    (hlength : arguments.length = site.argumentCount)
    (hadmits : interpreterAdmits w.env i site = true) (hpub : publishedEntry site = some id) :
    w.env.arity id ≤ site.argumentCount ∧
      clutchCallSiteInvoke w.env (callKind i) site arguments =
        w.env.native id (arguments.take (w.env.arity id)) := by
  unfold interpreterAdmits at hadmits
  cases ht : site.target with
  | none => simp [publishedEntry, ht] at hpub
  | some handle =>
    have hfun : handle.function = some id := by
      simp only [publishedEntry, ht] at hpub
      split at hpub
      · cases hpub
      · exact hpub
    simp only [ht, hfun, Bool.and_eq_true, decide_eq_true_eq, beq_iff_eq] at hadmits
    obtain ⟨⟨⟨hkind, hlive⟩, hargs⟩, harity⟩ := hadmits
    refine ⟨harity, ?_⟩
    have hfew : ¬ arguments.length < handle.argumentCount := by omega
    have hfew' : ¬ arguments.length < w.env.arity id := by omega
    have hmany : ¬ clutchMaxArguments < site.argumentCount := by omega
    simp [clutchCallSiteInvoke, ht, hkind, hlive, hfun, hmany, hfew, hfew']

theorem nativeCall_admitted {site : ClutchCallSite} (hcheck : checkInstruction f i = none)
    (hcall : isCallNative i = true) (hsite : i.site = some site)
    (hadmits : receiverRefused w f site fr = false → (publishedEntry site).isSome = true →
      interpreterAdmits w.env i site = true) :
    nativeCall w f i fr = .bail .runtimeHelper ∨
      nativeCall w f i fr = refEffect w.env f w.arguments i fr := by
  cases hr : receiverRefused w f site fr with
  | true =>
    left
    simp [nativeCall, hsite, hr]
  | false =>
    cases hpub : publishedEntry site with
    | none =>
      left
      simp [nativeCall, hsite, hr, hpub]
    | some id =>
      have hop : i.opcode = .callNativeI64 ∨ i.opcode = .callNativeF64 := by
        simpa [isCallNative] using hcall
      have hbounds : site.argumentCount ≤ clutchMaxArguments ∧
          ∀ c ∈ site.arguments, c < f.registerCount := by
        rcases hop with hop | hop
        all_goals
          simp [checkInstruction, hop, hsite, validRegister, check_passed] at hcheck
          exact ⟨hcheck.1.2, hcheck.2⟩
      obtain ⟨hcount, hargs⟩ := hbounds
      have hlength : (site.arguments.map fr.registers).length = site.argumentCount := by
        simp [ClutchCallSite.arguments, Nat.min_eq_left hcount]
      obtain ⟨harity, hinvoke⟩ := clutchCallSiteInvoke_admitted hcount hlength
        (hadmits hr (by simp [hpub])) hpub
      right
      have hreference : refEffect w.env f w.arguments i fr =
          callNative w.env f i (callKind i) fr := by
        rcases hop with hop | hop <;> simp [refEffect, effect, callKind, hop]
      have hvalid : site.arguments.all (validRegister f) = true := by
        simpa [validRegister] using hargs
      rw [hreference]
      simp only [nativeCall, hsite, hr, hpub, callNative, hinvoke, hvalid, Bool.false_eq_true,
        if_false, if_neg (Nat.not_lt.mpr harity), Bool.not_true, Bool.or_false, decide_eq_true_eq,
        if_neg (Nat.not_lt.mpr hcount)] <;>
      cases w.env.native id ((site.arguments.map fr.registers).take (w.env.arity id)) <;> rfl

theorem refEffect_compiled {disp : Int} (hemit : emitInstruction f k i disp ≠ none)
    (status : Status) : refEffect w.env f w.arguments i fr ≠ .fail status := by
  unfold refEffect effect checkedI32 callNative
  unfold emitInstruction at hemit
  cases hop : i.opcode <;> simp only [hop] at hemit ⊢
  all_goals (repeat' split) <;> simp_all

theorem Comparable.compares (hcode : baselineCode f = some code) (h : Comparable w f s)
    (hi : f.instructions[s.pc]? = some i) :
    (nativeEffect w f s.pc i s.polls s.frame = refEffect w.env f w.arguments i s.frame ∧
      ∀ status, refEffect w.env f w.arguments i s.frame ≠ .fail status) ∨
    ∃ reason, nativeEffect w f s.pc i s.polls s.frame = .bail reason ∧
      Excused w f (.bailed s.pc reason) := by
  obtain ⟨ops, hemit, -, -⟩ := baselineCode_placed hcode hi
  have hcheck := baselineCode_checks hcode hi
  have hok : ∀ status, refEffect w.env f w.arguments i s.frame ≠ .fail status :=
    refEffect_compiled (by rw [hemit]; simp)
  cases hreq : (pollsAt s.pc i && w.requested s.polls) with
  | true =>
    have hboth := Bool.and_eq_true_iff.mp hreq
    right
    refine ⟨.safepointRequested, ?_, i, hi, .inr ⟨rfl, hboth.1, s.polls, hboth.2⟩⟩
    simp [nativeEffect, hreq]
  | false =>
    cases hcall : isCallNative i with
    | false =>
      left
      refine ⟨?_, hok⟩
      simp [nativeEffect, hreq, hcall, h.divides i hi]
    | true =>
      have heff : nativeEffect w f s.pc i s.polls s.frame = nativeCall w f i s.frame := by
        simp [nativeEffect, hreq, hcall]
      cases hsite : i.site with
      | none =>
        have hop : i.opcode = .callNativeI64 ∨ i.opcode = .callNativeF64 := by
          simpa [isCallNative] using hcall
        rcases hop with hop | hop <;> simp [checkInstruction, hop, hsite] at hcheck
      | some site =>
        rcases nativeCall_admitted hcheck hcall hsite (h.admits i site hi hcall hsite) with
          hbail | hsame
        · right
          exact ⟨.runtimeHelper, heff.trans hbail, i, hi, .inl ⟨rfl, .inr hcall⟩⟩
        · left
          exact ⟨heff.trans hsame, hok⟩

theorem Comparable.defined (hcode : baselineCode f = some code) (hwritten : WrittenBeforeRead f)
    (hreached : Follows w f .initial s) (h : Comparable w f s) : Defined w f s := by
  obtain ⟨i, hi⟩ : ∃ i, f.instructions[s.pc]? = some i := ⟨_, List.getElem?_eq_getElem h.inside⟩
  refine ⟨_, hi, hwritten _ _ _ hreached.path hi, ?_⟩
  intro status
  rcases h.compares hcode hi with ⟨hsame, hok⟩ | ⟨reason, hbail, -⟩
  · rw [hsame]
    exact hok status
  · rw [hbail]
    simp

def endingOf (s : NativeState) : NativeEnding → Ending
  | .returned v => .returned v
  | .bailed reason => .bailed s.pc reason

theorem Exits.ending (hcode : baselineCode f = some code) (hsmall : extent Op.size code < 2 ^ 31)
    {e : NativeEnding} (hend : nativeEnd w f s = some e) (h : Exits f s e m) :
    ∃ r, nativeResult f m = some r ∧ r.ending = some (endingOf s e) := by
  cases e with
  | returned v =>
    obtain ⟨hstatus, hresult⟩ := h
    refine ⟨.ok v, ?_, rfl⟩
    simp [nativeResult, Machine.word, hstatus, hresult]
  | bailed reason => exact ⟨_, h.bailout hcode hsmall hend, rfl⟩

theorem nativeEnds_iff (hcode : baselineCode f = some code) (hsmall : extent Op.size code < 2 ^ 31)
    (hdef : ∀ s, Follows w f .initial s → Defined w f s) (hm : Enters m) :
    NativeEnds w f code m x ↔ f.argumentCount ≤ w.arguments.length ∧
      ∃ s e, Follows w f .initial s ∧ nativeEnd w f s = some e ∧ x = endingOf s e := by
  obtain ⟨p, hentry, hstands⟩ := hm.stands (w := w) hcode
  constructor
  · rintro ⟨r, hr, hx⟩
    cases hr with
    | rejected => cases hx
    | ran hargs hleaves hresult =>
      obtain ⟨s, e, hs, hend, hexit⟩ := hstands.ends hcode hsmall hdef (hleaves.behind hentry)
      obtain ⟨r', hr', hx'⟩ := hexit.ending hcode hsmall hend
      rw [hresult] at hr'
      cases hr'
      exact ⟨hargs, s, e, hs, hend, Option.some.inj (hx.symm.trans hx')⟩
  · rintro ⟨hargs, s, e, hs, hend, rfl⟩
    obtain ⟨m', hleaves, hexit⟩ := hstands.leaves hcode hsmall hdef hs hend
    obtain ⟨r, hr, hx⟩ := hexit.ending hcode hsmall hend
    exact ⟨r, .ran hargs (hleaves.after hentry) hr, hx⟩

theorem reference_of_follows (hcode : baselineCode f = some code)
    (hrun : ∀ t, Follows w f s t → Comparable w f t) (h : Follows w f s s')
    {e : NativeEnding} (hend : nativeEnd w f s' = some e) :
    (∃ n, Ends w.env f w.arguments n s.frame s.pc (endingOf s' e)) ∨
      Excused w f (endingOf s' e) := by
  induction h with
  | refl s =>
    obtain ⟨i, hi, heff⟩ := nativeEnd_effect hend
    have hcomparable := hrun s (.refl s)
    rcases hcomparable.compares hcode hi with ⟨hsame, -⟩ | ⟨reason, hbail, hexcused⟩
    · rw [hsame] at heff
      cases e with
      | returned v => exact .inl ⟨0, .done hi (hcomparable.locals i hi) heff⟩
      | bailed reason => exact .inl ⟨0, .bail hi (hcomparable.locals i hi) heff⟩
    · rw [hbail] at heff
      cases e with
      | returned v => cases heff
      | bailed reason' =>
        cases heff
        exact .inr hexcused
  | head _ hs rest ih =>
    have hcomparable := hrun _ (.refl _)
    obtain ⟨i, hi, hcases⟩ := nativeNext_cases hs
    rcases ih (fun t ht => hrun t (.head trivial hs ht)) hend with ⟨n, hn⟩ | hexcused
    · left
      rcases hcomparable.compares hcode hi with ⟨hsame, -⟩ | ⟨reason, hbail, -⟩
      · rcases hcases with ⟨fr, he, rfl⟩ | ⟨t, fr, he, rfl⟩
        · exact ⟨n + 1, .next hi (hcomparable.locals i hi) (hsame.symm.trans he) hn⟩
        · exact ⟨n + 1, .goto hi (hcomparable.locals i hi) (hsame.symm.trans he) hn⟩
      · rcases hcases with ⟨fr, he, -⟩ | ⟨t, fr, he, -⟩
        · rw [hbail] at he
          cases he
        · rw [hbail] at he
          cases he
    · exact .inr hexcused

theorem follows_of_reference (hcode : baselineCode f = some code)
    (hrun : ∀ t, Follows w f s t → Comparable w f t)
    (h : Ends w.env f w.arguments n s.frame s.pc x) :
    ∃ s' e, Follows w f s s' ∧ nativeEnd w f s' = some e ∧
      (x = endingOf s' e ∨ Excused w f (endingOf s' e)) := by
  induction n using Nat.strongRecOn generalizing s with
  | ind n ih =>
    have hcomparable := hrun s (.refl s)
    obtain ⟨i, hi⟩ : ∃ i, f.instructions[s.pc]? = some i :=
      ⟨_, List.getElem?_eq_getElem hcomparable.inside⟩
    have heffect : effectAt w f s = some (i, nativeEffect w f s.pc i s.polls s.frame) := by
      simp [effectAt, hi]
    have hgoesOn : ∀ t m, nativeNext w f s = some t → m < n →
        Ends w.env f w.arguments m t.frame t.pc x →
        ∃ s' e, Follows w f s s' ∧ nativeEnd w f s' = some e ∧
          (x = endingOf s' e ∨ Excused w f (endingOf s' e)) := by
      intro t m ht hlt hm
      obtain ⟨s', e, hs', hend, hx⟩ :=
        ih m hlt (fun u hu => hrun u (.head trivial ht hu)) hm
      exact ⟨s', e, .head trivial ht hs', hend, hx⟩
    rcases hcomparable.compares hcode hi with ⟨hsame, hok⟩ | ⟨reason, hbail, hexcused⟩
    · have hhead := h.head hi
      rw [hsame] at heffect
      cases he : refEffect w.env f w.arguments i s.frame with
      | next fr =>
        rw [he] at hhead heffect
        obtain ⟨m, rfl, hm⟩ := hhead
        exact hgoesOn ⟨s.pc + 1, pollsAfter s.pc i s.polls, fr, writtenAfter f i s.written⟩ m
          (by simp [nativeNext, heffect]) (Nat.lt_succ_self m) hm
      | goto t fr =>
        rw [he] at hhead heffect
        obtain ⟨m, rfl, hm⟩ := hhead
        exact hgoesOn ⟨t, pollsAfter s.pc i s.polls, fr, writtenAfter f i s.written⟩ m
          (by simp [nativeNext, heffect]) (Nat.lt_succ_self m) hm
      | done v =>
        rw [he] at hhead heffect
        exact ⟨s, .returned v, .refl s, by simp [nativeEnd, heffect], .inl hhead⟩
      | bail reason =>
        rw [he] at hhead heffect
        exact ⟨s, .bailed reason, .refl s, by simp [nativeEnd, heffect], .inl hhead⟩
      | fail status => exact absurd he (hok status)
    · rw [hbail] at heffect
      exact ⟨s, .bailed reason, .refl s, by simp [nativeEnd, heffect], .inr hexcused⟩

/-- Baseline code implements the IR in every run all of whose states are comparable. -/
theorem baseline_implements_ir (w : World) (f : Function) (code : List Op) (m : Machine)
    (hcode : baselineCode f = some code) (hm : Enters m) (hwritten : WrittenBeforeRead f)
    (hsmall : extent Op.size code < 2 ^ 31)
    (hrun : ∀ s, Follows w f .initial s → Comparable w f s) : Implements w f code m := by
  have hdef : ∀ s, Follows w f .initial s → Defined w f s :=
    fun s hs => (hrun s hs).defined hcode hwritten hs
  have hends : ∀ x, NativeEnds w f code m x → ReferenceEnds w f x ∨ Excused w f x := by
    intro x hx
    obtain ⟨hargs, s, e, hs, hend, rfl⟩ := (nativeEnds_iff hcode hsmall hdef hm).mp hx
    rcases reference_of_follows hcode hrun hs hend with hreference | hexcused
    · exact .inl ⟨hargs, hreference⟩
    · exact .inr hexcused
  refine ⟨?_, ?_, ?_⟩
  · intro v hv
    rcases hends _ hv with hreference | hexcused
    · exact hreference
    · exact hexcused.elim
  · rintro x ⟨hargs, n, hn⟩
    obtain ⟨s, e, hs, hend, hx⟩ := follows_of_reference (s := .initial) hcode hrun hn
    have hnative := (nativeEnds_iff hcode hsmall hdef hm).mpr ⟨hargs, s, e, hs, hend, rfl⟩
    rcases hx with rfl | hexcused
    · exact .inl hnative
    · exact .inr ⟨_, hnative, hexcused⟩
  · intro k reason hbailed
    exact hends _ hbailed

end

theorem writtenBeforeRead_pair {f : Function} {first second : Instruction}
    (hf : f.instructions = [first, second]) (hreads : cellReads f first = [])
    (hnext : successors 0 first = [1]) (hwrite : cellWrite f first = some 0)
    (hsecond : cellReads f second = [0]) (hlast : successors 1 second = []) :
    WrittenBeforeRead f := by
  have hpaths : ∀ k W, PathTo f k W → k = 0 ∨ k = 1 ∧ 0 ∈ W := by
    intro k W h
    induction h with
    | entry => exact .inl rfl
    | step _ hi hs ih =>
      rcases ih with rfl | ⟨rfl, -⟩
      · rw [hf] at hi
        cases hi
        rw [hnext] at hs
        right
        simp only [writtenAfter, hwrite]
        exact ⟨List.mem_singleton.mp hs, Set.mem_insert 0 _⟩
      · rw [hf] at hi
        cases hi
        rw [hlast] at hs
        cases hs
  intro k W i hpath hi c hc
  rcases hpaths k W hpath with rfl | ⟨rfl, hW⟩
  · rw [hf] at hi
    cases hi
    rw [hreads] at hc
    cases hc
  · rw [hf] at hi
    cases hi
    rw [hsecond] at hc
    rw [List.mem_singleton.mp hc]
    exact hW

theorem stored_constant_implemented :
    ∃ code, baselineCode storedConstant = some code ∧
      Implements (stillWorld []) storedConstant code (freshMachine 5) := by
  obtain ⟨code, hcode⟩ : ∃ code, baselineCode storedConstant = some code :=
    Option.isSome_iff_exists.mp (by decide)
  have hwritten : WrittenBeforeRead storedConstant :=
    writtenBeforeRead_pair rfl rfl rfl rfl rfl rfl
  refine ⟨code, hcode, baseline_implements_ir _ _ code _ hcode (freshMachine_enters 5) hwritten
    (baselineCode_small hcode (by decide)) ?_⟩
  intro s hs
  rcases follows_pair storedConstant_next storedConstant_end hs with rfl | rfl
  all_goals
    refine ⟨by decide, ?_, ?_, ?_⟩
    · rintro i ⟨⟩
      rfl
    · rintro i ⟨⟩
      simp [divisionFaults]
    · rintro i site ⟨⟩ hcall
      simp [isCallNative] at hcall

def floatSite : ClutchCallSite where
  target := some ⟨some 0, 1, 0, .float64⟩
  expectedGeneration := 1
  argumentCount := 0
  expectedKind := .float64
  hasReceiverShapeGuard := false
  receiverShapeIdentity := 0
  receiverShapeOffset := 0
  receiverRegister := noRegister
  argumentRegisters := Vector.replicate clutchMaxArguments noRegister

def mismatchedCall : Function where
  instructions := [{ opcode := .callNativeI64, destination := 0, site := some floatSite },
    { opcode := .returnI64, left := 0 }]
  registerCount := 1
  argumentCount := 0
  localCount := 0

def fiveWorld : World :=
  { stillWorld [] with env := { (stillWorld []).env with native := fun _ _ => some 5 } }

/-- The guards of native code compare the site's kind with the handle's and not with the
opcode's: it calls a float entry for an integer call, where the interpreter bails out. -/
theorem mismatched_call_returns :
    (irVerify mismatchedCall).status = .ok ∧ WrittenBeforeRead mismatchedCall ∧
      ∃ code, baselineCode mismatchedCall = some code ∧ extent Op.size code < 2 ^ 31 ∧
        NativeEnds fiveWorld mismatchedCall code (freshMachine 0) (.returned 5) ∧
        ReferenceEnds fiveWorld mismatchedCall (.bailed 0 .runtimeHelper) ∧
        ¬ Implements fiveWorld mismatchedCall code (freshMachine 0) := by
  have hnext : nativeNext fiveWorld mismatchedCall .initial =
      some ⟨1, 0, Frame.zero.setRegister 0 5, {0}⟩ := by
    simp [nativeNext, effectAt, nativeEffect, pollsAt, isCallNative, nativeCall, receiverRefused,
      publishedEntry, floatSite, mismatchedCall, NativeState.initial, pollsAfter, writtenAfter,
      cellWrite, fiveWorld, stillWorld]
  have hend : nativeEnd fiveWorld mismatchedCall ⟨1, 0, Frame.zero.setRegister 0 5, {0}⟩ =
      some (.returned 5) := by
    simp [nativeEnd, effectAt, nativeEffect, pollsAt, isCallNative, divisionFaults, refEffect,
      effect, mismatchedCall]
  have hbails : refEffect fiveWorld.env mismatchedCall fiveWorld.arguments
      { opcode := .callNativeI64, destination := 0, site := some floatSite } .zero =
      .bail .runtimeHelper := by
    simp [refEffect, effect, callNative, clutchCallSiteInvoke, floatSite]
  obtain ⟨code, hcode⟩ : ∃ code, baselineCode mismatchedCall = some code :=
    Option.isSome_iff_exists.mp (by decide)
  have hsmall := baselineCode_small hcode (by decide)
  have hdef : ∀ s, Follows fiveWorld mismatchedCall .initial s →
      Defined fiveWorld mismatchedCall s := by
    intro s hs
    rcases follows_pair hnext hend hs with rfl | rfl
    · refine ⟨_, rfl, ?_, ?_⟩
      · simp [cellReads, floatSite, ClutchCallSite.arguments]
      · intro status hfail
        simp [nativeNext, effectAt, mismatchedCall, NativeState.initial] at hnext hfail
        simp [hfail] at hnext
    · refine ⟨_, rfl, by simp [cellReads], ?_⟩
      simp [nativeEffect, pollsAt, isCallNative, divisionFaults, refEffect, effect]
  have hfive : NativeEnds fiveWorld mismatchedCall code (freshMachine 0) (.returned 5) :=
    (nativeEnds_iff hcode hsmall hdef (freshMachine_enters 0)).mpr
      ⟨Nat.zero_le _, _, _, .one trivial hnext, hend, rfl⟩
  refine ⟨by decide, writtenBeforeRead_pair rfl rfl rfl rfl rfl rfl, code, hcode, hsmall, hfive,
    ⟨Nat.zero_le _, 0, .bail rfl rfl hbails⟩, ?_⟩
  intro himplements
  obtain ⟨-, n, hn⟩ := himplements.returned 5 hfive
  have hhead := hn.head (i := { opcode := .callNativeI64, destination := 0, site := some floatSite })
    rfl
  rw [hbails] at hhead
  cases hhead

end TurboJS.Baseline
