import TurboJS.IR.Tagged

namespace TurboJS.IR

/-! The pass that turns calls through constant callable references into native calls. -/

inductive Known where
  | none
  | numeric
  | callable (reference : Word)
  deriving DecidableEq, Repr

structure SpecializeState where
  registers : Nat → Known
  locals : Nat → Known
  output : List Instruction

namespace SpecializeState

def start : SpecializeState := ⟨fun _ => .none, fun _ => .none, []⟩

def setRegister (s : SpecializeState) (r : Nat) (k : Known) : SpecializeState :=
  { s with registers := Function.update s.registers r k }

def setLocal (s : SpecializeState) (l : Nat) (k : Known) : SpecializeState :=
  { s with locals := Function.update s.locals l k }

def emit (s : SpecializeState) (i : Instruction) : SpecializeState :=
  { s with output := s.output ++ [i] }

end SpecializeState

/-- The call site that the pass fills in for a call through `reference`. -/
def callSite (reference : CallableReference) (arguments : List Nat) : ClutchCallSite where
  target := reference.target
  expectedGeneration := reference.expectedGeneration
  argumentCount := arguments.length
  expectedKind := reference.expectedKind
  hasReceiverShapeGuard := false
  receiverShapeIdentity := 0
  receiverShapeOffset := 0
  receiverRegister := noRegister
  argumentRegisters := Vector.ofFn fun a => arguments.getD a noRegister

/-- The case of the two calls. The site is allocated at `place`. -/
def specializeCall (mem : CallableMemory) (f : Function) (place : Word) (s : SpecializeState)
    (i : Instruction) : Option SpecializeState :=
  match s.registers i.left with
  | .callable p =>
    match mem p with
    | none => none
    | some reference =>
      if clutchMaxArguments < i.immediate.toNat ∨ reference.argumentCount ≠ i.immediate.toNat ∨
          !reference.isLive then none
      else
        let sources := (argumentRegisters i).map (· % 2 ^ 16)
        if sources.all fun r => r < f.registerCount && s.registers r == .numeric then
          let opcode := if i.opcode = .valueCallI64 then .callNativeI64 else .callNativeF64
          some ((s.setRegister i.destination .numeric).emit
            { i with
              opcode, immediate := place, left := 0, right := 0
              site := some (callSite reference sources) })
        else none
  | _ => none

/-- One round of the loop of `TurboJS_IRSpecializeCallableReferences`; `none` if the function
remains dynamic. The array of locals has 64 entries, past which there is no result. -/
def specializeStep (mem : CallableMemory) (f : Function) (place : Word) (s : SpecializeState)
    (i : Instruction) : Option SpecializeState :=
  match i.opcode with
  | .valueCallableConstant => some (s.setRegister i.destination (.callable i.immediate))
  | .valueConstantI32 =>
    some ((s.setRegister i.destination .numeric).emit { i with opcode := .constantI64 })
  | .valueArgument =>
    some ((s.setRegister i.destination .numeric).emit { i with opcode := .argument })
  | .valueMove =>
    if s.registers i.left = .numeric then none
    else some (s.setRegister i.destination (s.registers i.left))
  | .valueLocalSet =>
    if f.localCount ≤ i.immediate.toNat ∨ maxRegisters ≤ i.immediate.toNat then none
    else
      let s' := s.setLocal i.immediate.toNat (s.registers i.left)
      if s.registers i.left = .numeric then some (s'.emit { i with opcode := .localSet })
      else some s'
  | .valueLocalGet =>
    if f.localCount ≤ i.immediate.toNat ∨ maxRegisters ≤ i.immediate.toNat then none
    else
      let s' := s.setRegister i.destination (s.locals i.immediate.toNat)
      if s.locals i.immediate.toNat = .numeric then some (s'.emit { i with opcode := .localGet })
      else some s'
  | .valueCallI64 | .valueCallF64 => specializeCall mem f place s i
  | .valueReturn =>
    if s.registers i.left = .numeric then some (s.emit { i with opcode := .returnI64 }) else none
  | .returnI64 | .returnF64 | .argument | .constantI64 | .constantF64 | .addI64 | .subI64 | .mulI64
  | .callNativeI64 | .callNativeF64 =>
    let s' := s.emit i
    if i.destination < f.registerCount then some (s'.setRegister i.destination .numeric)
    else some s'
  | _ => none

/-- The loop over the instructions; the site of the instruction at `index` is allocated at
`places index`. -/
def specializeFrom (mem : CallableMemory) (places : Nat → Word) (f : Function) :
    List Instruction → Nat → SpecializeState → Option SpecializeState
  | [], _, s => some s
  | i :: rest, index, s =>
    match specializeStep mem f (places index) s i with
    | none => none
    | some s' => specializeFrom mem places f rest (index + 1) s'

/-- `TurboJS_IRSpecializeCallableReferences`, when the allocations succeed. -/
def specialize (mem : CallableMemory) (places : Nat → Word) (f : Function) : Option Function :=
  if maxRegisters < f.registerCount then none
  else
    match specializeFrom mem places f f.instructions 0 .start with
    | none => none
    | some s =>
      let g := { f with instructions := s.output }
      if (irVerify g).status ≠ .ok then none else some g

inductive Origin where
  | constant (immediate : Word)
  | other
  deriving DecidableEq, Repr

/-- The state of a tagged execution, with the origins of the numbers. `emitted` is set by the first
instruction that leaves more than an argument load in the specialized code. -/
structure OriginState where
  frame : TaggedFrame
  registers : Nat → Origin
  locals : Nat → Origin
  emitted : Bool

def OriginState.start : OriginState := ⟨.undefined, fun _ => .other, fun _ => .other, false⟩

/-- The state behind an instruction that leaves `fr`. -/
def OriginState.next (k : OriginState) (i : Instruction) (fr : TaggedFrame) : OriginState :=
  let set (o : Origin) (emitted : Bool) : OriginState :=
    { k with frame := fr, registers := Function.update k.registers i.destination o, emitted }
  match i.opcode with
  | .valueConstantI32 => set (.constant i.immediate) true
  | .valueMove => set (k.registers i.left) k.emitted
  | .valueLocalGet =>
    set (k.locals i.immediate.toNat)
      (k.emitted || (k.frame.locals i.immediate.toNat).number.isSome)
  | .valueLocalSet =>
    { k with
      frame := fr
      locals := Function.update k.locals i.immediate.toNat (k.registers i.left)
      emitted := k.emitted || (k.frame.registers i.left).number.isSome }
  | .valueCallI64 | .valueCallF64 => set .other true
  | _ => set .other k.emitted

def wordOf (o : Origin) (v : BoxedValue) : Word :=
  match o with
  | .constant immediate => immediate
  | .other => v.number.getD 0

def integerKept : Origin → Bool
  | .constant immediate => fitsInt32 immediate
  | .other => true

def doubleKept (env : Env) (o : Origin) : BoxedValue → Bool
  | .int32 n | .int64 n => env.i64ToF64 n == wordOf o (.int64 n)
  | _ => true

def keepsWords (env : Env) (i : Instruction) (k : OriginState) : Bool :=
  match i.opcode with
  | .valueArgument => !k.emitted
  | .valueCallI64 => (argumentRegisters i).all fun r => integerKept (k.registers r)
  | .valueCallF64 =>
    (argumentRegisters i).all fun r => doubleKept env (k.registers r) (k.frame.registers r)
  | .valueReturn => integerKept (k.registers i.left)
  | _ => true

def taggedVisits (env : Env) (mem : CallableMemory) (f : Function) (arguments : List BoxedValue) :
    Nat → OriginState → Nat → List (Instruction × OriginState)
  | steps, k, pc =>
    match f.instructions[pc]?, steps with
    | none, _ => []
    | some _, 0 => []
    | some i, steps + 1 =>
      (i, k) ::
        match taggedEffect env mem f arguments i k.frame with
        | .next fr | .called _ fr => taggedVisits env mem f arguments steps (k.next i fr) (pc + 1)
        | .goto pc' => taggedVisits env mem f arguments steps k pc'
        | _ => []

def KeepsWords (env : Env) (mem : CallableMemory) (f : Function) (arguments : List BoxedValue) :
    Prop :=
  ∀ v ∈ taggedVisits env mem f arguments (stepLimit f) .start 0, keepsWords env v.1 v.2 = true

inductive Holds : Known → Origin → BoxedValue → Word → Prop
  | none (o : Origin) (w : Word) : Holds .none o .undefined w
  | callable (o : Origin) (p w : Word) : Holds (.callable p) o (.callableReference p) w
  | constant (immediate : Word) :
    Holds .numeric (.constant immediate) (.int32 ((immediate.setWidth 32).signExtend 64)) immediate
  | number (v : BoxedValue) (w : Word) (h : v.number = some w) : Holds .numeric .other v w

structure Related (s : SpecializeState) (k : OriginState) (fr : Frame) : Prop where
  registers : ∀ r, Holds (s.registers r) (k.registers r) (k.frame.registers r) (fr.registers r)
  locals : ∀ l, Holds (s.locals l) (k.locals l) (k.frame.locals l) (fr.locals l)

section

variable {env : Env} {mem : CallableMemory} {f g : Function} {s : SpecializeState}
  {k : OriginState} {fr : Frame} {i : Instruction} {o : Origin} {v : BoxedValue} {w n : Word}

theorem Holds.numeric_iff {known : Known} (h : Holds known o v w) :
    known = .numeric ↔ v.number.isSome := by
  cases h with
  | none => simp [BoxedValue.number]
  | callable => simp [BoxedValue.number]
  | constant => simp [BoxedValue.number]
  | number v w hv => simp [hv]

theorem Holds.word (h : Holds .numeric o v w) : w = wordOf o v := by
  cases h with
  | constant => rfl
  | number v w hv => rw [wordOf, hv, Option.getD_some]

theorem Holds.number_kept (h : Holds .numeric o v w) (hn : v.number = some n) :
    w = n ↔ integerKept o = true := by
  cases h with
  | constant immediate =>
    cases hn
    rw [integerKept, fitsInt32_signExtend, beq_iff_eq]
  | number v w hv =>
    rw [hv] at hn
    cases hn
    simp [integerKept]

theorem Holds.integer_kept (h : Holds .numeric o v w) (hn : integerArgument v = some n) :
    w = n ↔ integerKept o = true := by
  refine h.number_kept ?_
  cases v with
  | int32 m => exact hn
  | int64 m => exact hn
  | boolean m => cases h with | number _ _ hv => cases hv
  | undefined => cases hn
  | float64 m => cases hn
  | heapReference m => cases hn
  | callableReference m => cases hn

theorem Holds.double_kept (h : Holds .numeric o v w) (hn : doubleArgument env v = some n) :
    w = n ↔ doubleKept env o v = true := by
  have hword := h.word
  cases v with
  | float64 b =>
    cases h with
    | number _ _ hv =>
      cases hv
      cases hn
      simp [doubleKept]
  | int32 m =>
    cases hn
    rw [doubleKept, beq_iff_eq, hword]
    cases o <;> exact eq_comm
  | int64 m =>
    cases hn
    rw [doubleKept, beq_iff_eq, hword]
    exact eq_comm
  | boolean m => cases hn
  | undefined => cases hn
  | heapReference m => cases hn
  | callableReference m => cases hn

theorem Related.setRegister (h : Related s k fr) {known : Known} {k' : OriginState} (r : Nat)
    (hheld : Holds known o v w) (hframe : k'.frame = k.frame.setRegister r v)
    (hregisters : k'.registers = Function.update k.registers r o) (hlocals : k'.locals = k.locals) :
    Related (s.setRegister r known) k' (fr.setRegister r w) := by
  constructor
  · intro r'
    rw [hframe, hregisters]
    by_cases hr : r' = r
    · subst hr
      simpa [SpecializeState.setRegister] using hheld
    · simpa [SpecializeState.setRegister, Function.update_of_ne hr] using h.registers r'
  · intro l
    rw [hframe, hlocals]
    exact h.locals l

theorem Related.setLocal (h : Related s k fr) {known : Known} {k' : OriginState} (l : Nat)
    (hheld : Holds known o v w) (hframe : k'.frame = k.frame.setLocal l v)
    (hlocals : k'.locals = Function.update k.locals l o) (hregisters : k'.registers = k.registers) :
    Related (s.setLocal l known) k' (fr.setLocal l w) := by
  constructor
  · intro r
    rw [hframe, hregisters]
    exact h.registers r
  · intro l'
    rw [hframe, hlocals]
    by_cases hl : l' = l
    · subst hl
      simpa [SpecializeState.setLocal] using hheld
    · simpa [SpecializeState.setLocal, Function.update_of_ne hl] using h.locals l'

theorem Related.emit (h : Related s k fr) (j : Instruction) : Related (s.emit j) k fr :=
  ⟨h.registers, h.locals⟩

theorem Frame.setRegister_same (fr : Frame) (r : Nat) :
    fr.setRegister r (fr.registers r) = fr := by
  rw [Frame.setRegister, Function.update_eq_self]

theorem Frame.setLocal_same (fr : Frame) (l : Nat) : fr.setLocal l (fr.locals l) = fr := by
  rw [Frame.setLocal, Function.update_eq_self]

theorem Related.forget (h : Related s k fr) {known : Known} {k' : OriginState} (r : Nat)
    (hheld : Holds known o v (fr.registers r)) (hframe : k'.frame = k.frame.setRegister r v)
    (hregisters : k'.registers = Function.update k.registers r o) (hlocals : k'.locals = k.locals) :
    Related (s.setRegister r known) k' fr := by
  have := h.setRegister r hheld hframe hregisters hlocals
  rwa [Frame.setRegister_same] at this

theorem Related.forgetLocal (h : Related s k fr) {known : Known} {k' : OriginState} (l : Nat)
    (hheld : Holds known o v (fr.locals l)) (hframe : k'.frame = k.frame.setLocal l v)
    (hlocals : k'.locals = Function.update k.locals l o) (hregisters : k'.registers = k.registers) :
    Related (s.setLocal l known) k' fr := by
  have := h.setLocal l hheld hframe hlocals hregisters
  rwa [Frame.setLocal_same] at this

theorem Holds.any {known : Known} (h : Holds known o v w) (hknown : known ≠ .numeric) (n : Word) :
    Holds known o v n := by
  cases h with
  | none => exact .none _ _
  | callable => exact .callable _ _ _
  | constant => exact absurd rfl hknown
  | number => exact absurd rfl hknown

inductive Simulated (env : Env) (mem : CallableMemory) (f g : Function)
    (boxed : List BoxedValue) (arguments : List Word) (i : Instruction) (s : SpecializeState)
    (k : OriginState) (fr : Frame) (s' : SpecializeState) : Prop
  | silent (tfr : TaggedFrame) (heffect : taggedEffect env mem f boxed i k.frame = .next tfr)
      (hout : s'.output = s.output) (hrel : Related s' (k.next i tfr) fr)
      (hemitted : (k.next i tfr).emitted = k.emitted) (hkept : keepsWords env i k = true)
  | loads (tfr : TaggedFrame) (j : Instruction)
      (heffect : taggedEffect env mem f boxed i k.frame = .next tfr)
      (hout : s'.output = s.output ++ [j]) (hop : j.opcode = .argument)
      (hrel : Related s' (k.next i tfr)
        (fr.setRegister j.destination (arguments.getD j.immediate.toNat 0)))
      (hemitted : (k.next i tfr).emitted = k.emitted) (hkept : keepsWords env i k = !k.emitted)
  | emits (tfr : TaggedFrame) (j : Instruction) (fr' : Frame)
      (heffect : taggedEffect env mem f boxed i k.frame = .next tfr)
      (hout : s'.output = s.output ++ [j]) (hop : j.opcode ≠ .argument)
      (hbounds : localsInBounds j = true) (hnative : effect env g j fr = .next fr')
      (hcall : nativeCall j fr = []) (hrel : Related s' (k.next i tfr) fr')
      (hemitted : (k.next i tfr).emitted = true) (hkept : keepsWords env i k = true)
  | calls (tfr : TaggedFrame) (j : Instruction) (call call' : NativeCall)
      (heffect : taggedEffect env mem f boxed i k.frame = .called call tfr)
      (hout : s'.output = s.output ++ [j]) (hop : j.opcode ≠ .argument)
      (hbounds : localsInBounds j = true) (hcall : nativeCall j fr = [call'])
      (hkept : call' = call ↔ keepsWords env i k = true)
      (hnative : call' = call →
        ∃ fr', effect env g j fr = .next fr' ∧ Related s' (k.next i tfr) fr')
      (hemitted : (k.next i tfr).emitted = true)
  | returns (u : BoxedValue) (w : Word) (j : Instruction)
      (heffect : taggedEffect env mem f boxed i k.frame = .done u)
      (hout : s'.output = s.output ++ [j]) (hop : j.opcode ≠ .argument)
      (hbounds : localsInBounds j = true) (hnative : effect env g j fr = .done w)
      (hcall : nativeCall j fr = [])
      (hkept : ∀ n, u.number = some n → (w = n ↔ keepsWords env i k = true))

theorem mapM_words {rs : List Nat} {argument : Nat → Option Word} {word : Nat → Word}
    {kept : Nat → Bool} {words : List Word}
    (hword : ∀ r ∈ rs, ∀ n, argument r = some n → (word r = n ↔ kept r = true))
    (h : rs.mapM argument = some words) : rs.map word = words ↔ rs.all kept = true := by
  induction rs generalizing words with
  | nil =>
    rw [List.mapM_nil, Option.pure_def, Option.some.injEq] at h
    simp [← h]
  | cons r rs ih =>
    rw [List.mapM_cons] at h
    simp only [Option.bind_eq_bind, Option.bind_eq_some_iff, Option.pure_def,
      Option.some.injEq] at h
    obtain ⟨n, hn, rest, hrest, rfl⟩ := h
    have hhead := hword r List.mem_cons_self n hn
    have htail := ih (fun r' hr' => hword r' (List.mem_cons_of_mem r hr')) hrest
    rw [List.map_cons, List.cons.injEq, hhead, htail, List.all_cons, Bool.and_eq_true]

theorem callSite_arguments (reference : CallableReference) {sources : List Nat}
    (h : sources.length ≤ clutchMaxArguments) :
    (callSite reference sources).arguments = sources := by
  have h4 : sources.length ≤ 4 := h
  match sources, h4 with
  | [], _ => rfl
  | [_], _ => rfl
  | [_, _], _ => rfl
  | [_, _, _], _ => rfl
  | [_, _, _, _], _ => rfl

theorem callableReferenceInvoke_ok {kind : EntryKind} {reference : CallableReference}
    {words : List Word} {call : NativeCall}
    (h : callableReferenceInvoke env kind reference words = .ok (n, call)) :
    ∃ target, reference.target = some target ∧ reference.expectedKind = kind ∧
      call = ⟨kind, target, words⟩ ∧
      nativeEntryInvoke env kind target reference.expectedGeneration words = .ok n := by
  unfold callableReferenceInvoke at h
  split at h
  · cases h
  rename_i hkind
  split at h
  · cases h
  cases htarget : reference.target with
  | none =>
    rw [htarget] at h
    cases h
  | some target =>
    rw [htarget] at h
    simp only at h
    cases hinvoke : nativeEntryInvoke env kind target reference.expectedGeneration words with
    | error st =>
      rw [hinvoke] at h
      cases h
    | ok n' =>
      rw [hinvoke] at h
      cases h
      exact ⟨target, rfl, not_not.mp hkind, rfl, hinvoke⟩

theorem clutchCallSiteInvoke_callSite {kind : EntryKind} {reference : CallableReference}
    {target : NativeEntryHandle} {words : List Word} {sources : List Nat}
    (htarget : reference.target = some target) (hkind : reference.expectedKind = kind)
    (hle : sources.length ≤ clutchMaxArguments)
    (h : nativeEntryInvoke env kind target reference.expectedGeneration words = .ok n) :
    clutchCallSiteInvoke env kind (callSite reference sources) words = some n := by
  unfold nativeEntryInvoke at h
  split at h
  · cases h
  rename_i hlive
  split at h
  · cases h
  rename_i hcount
  cases hfunction : target.function with
  | none =>
    rw [hfunction] at h
    cases h
  | some id =>
    rw [hfunction] at h
    simp only at h
    split at h
    · cases h
    rename_i harity
    cases hnative : env.native id (words.take (env.arity id)) with
    | none =>
      rw [hnative] at h
      cases h
    | some n' =>
      rw [hnative] at h
      cases h
      have hlive' : target.isLive reference.expectedGeneration kind = true := by simpa using hlive
      simp [clutchCallSiteInvoke, callSite, htarget, hkind, Nat.not_lt.mpr hle, hlive', hcount,
        hfunction, harity, hnative]

def specializedCall (reference : CallableReference) (place : Word) (i : Instruction) :
    Instruction :=
  { i with
    opcode := if i.opcode = .valueCallI64 then .callNativeI64 else .callNativeF64
    immediate := place, left := 0, right := 0
    site := some (callSite reference (argumentRegisters i)) }

theorem argumentRegisters_lt {i : Instruction} {r : Nat} (h : r ∈ argumentRegisters i) :
    r < i.right + i.immediate.toNat := by
  obtain ⟨a, ha, rfl⟩ := List.mem_map.mp h
  have := List.mem_range.mp ha
  omega

theorem specializeCall_some {place : Word} {s' : SpecializeState}
    (hregisters : f.registerCount ≤ maxRegisters)
    (hroom : i.right + i.immediate.toNat ≤ f.registerCount)
    (h : specializeCall mem f place s i = some s') :
    ∃ p reference, s.registers i.left = .callable p ∧ mem p = some reference ∧
      i.immediate.toNat ≤ clutchMaxArguments ∧
      (∀ r ∈ argumentRegisters i, s.registers r = .numeric) ∧
      s' = (s.setRegister i.destination .numeric).emit (specializedCall reference place i) := by
  unfold specializeCall at h
  cases hleft : s.registers i.left with
  | none =>
    rw [hleft] at h
    cases h
  | numeric =>
    rw [hleft] at h
    cases h
  | callable p =>
    rw [hleft] at h
    simp only at h
    cases hp : mem p with
    | none =>
      rw [hp] at h
      cases h
    | some reference =>
      have hsources : (argumentRegisters i).map (· % 2 ^ 16) = argumentRegisters i := by
        refine List.map_congr_left (g := id) (fun r hr => ?_) |>.trans (List.map_id _)
        have := argumentRegisters_lt hr
        simp only [maxRegisters] at hregisters
        exact Nat.mod_eq_of_lt (by omega)
      rw [hp] at h
      simp only [hsources] at h
      split at h
      · cases h
      rename_i hargs
      split at h
      · rename_i hall
        cases h
        refine ⟨p, reference, rfl, hp, by omega, fun r hr => ?_, rfl⟩
        have := List.all_eq_true.mp hall r hr
        simp only [Bool.and_eq_true, beq_iff_eq] at this
        exact this.2
      · cases h

theorem nativeCall_specialized {reference : CallableReference} {target : NativeEntryHandle}
    {place : Word} (htarget : reference.target = some target)
    (hle : (argumentRegisters i).length ≤ clutchMaxArguments) (fr : Frame) :
    nativeCall (specializedCall reference place i) fr =
      [⟨reference.expectedKind, target, (argumentRegisters i).map fr.registers⟩] := by
  have hsite : (specializedCall reference place i).site =
      some (callSite reference (argumentRegisters i)) := rfl
  have hop : (specializedCall reference place i).opcode = .callNativeI64 ∨
      (specializedCall reference place i).opcode = .callNativeF64 := by
    unfold specializedCall
    simp only
    split
    · exact .inl rfl
    · exact .inr rfl
  have htarget' : (callSite reference (argumentRegisters i)).target = some target := htarget
  rcases hop with hop | hop
  · rw [nativeCall, hsite, hop]
    simp only [htarget', callSite_arguments reference hle]
    rfl
  · rw [nativeCall, hsite, hop]
    simp only [htarget', callSite_arguments reference hle]
    rfl

theorem effect_specialized {kind : EntryKind} {reference : CallableReference}
    {target : NativeEntryHandle} {place : Word} {words : List Word}
    (hop : i.opcode = .valueCallI64 ∧ kind = .int32 ∨ i.opcode = .valueCallF64 ∧ kind = .float64)
    (hcount : g.registerCount = f.registerCount)
    (hroom : i.right + i.immediate.toNat ≤ f.registerCount)
    (hle : (argumentRegisters i).length ≤ clutchMaxArguments)
    (htarget : reference.target = some target) (hkind : reference.expectedKind = kind)
    (hwords : (argumentRegisters i).map fr.registers = words)
    (hinvoke : nativeEntryInvoke env kind target reference.expectedGeneration words = .ok n) :
    effect env g (specializedCall reference place i) fr =
      .next (fr.setRegister i.destination n) := by
  have hcall : callNative env g (specializedCall reference place i) kind fr =
      .next (fr.setRegister i.destination n) := by
    have hvalid : (argumentRegisters i).all (validRegister g) = true := by
      refine List.all_eq_true.mpr fun r hr => ?_
      have := argumentRegisters_lt hr
      rw [validRegister, hcount]
      exact decide_eq_true (by omega)
    have hargs := callSite_arguments reference hle
    have hsiteCount : (callSite reference (argumentRegisters i)).argumentCount =
        (argumentRegisters i).length := rfl
    have hsite : (specializedCall reference place i).site =
        some (callSite reference (argumentRegisters i)) := rfl
    rw [callNative, hsite]
    simp only [hargs, hsiteCount, hvalid, Nat.not_lt.mpr hle, hwords, decide_false, Bool.not_true,
      Bool.or_false, Bool.false_eq_true, if_false,
      clutchCallSiteInvoke_callSite htarget hkind hle hinvoke]
    rfl
  rcases hop with ⟨hop, rfl⟩ | ⟨hop, rfl⟩
  · have hnative : (specializedCall reference place i).opcode = .callNativeI64 := by
      simp [specializedCall, hop]
    rw [effect, hnative]
    exact hcall
  · have hnative : (specializedCall reference place i).opcode = .callNativeF64 := by
      simp [specializedCall, hop]
    rw [effect, hnative]
    exact hcall

theorem taggedCall_called {kind : EntryKind} {argument : BoxedValue → Option Word}
    {result : Word → BoxedValue} {tfr : TaggedFrame} {p : Word} {reference : CallableReference}
    (hleft : tfr.registers i.left = .callableReference p) (hp : mem p = some reference)
    (hfail : ∀ st, taggedCall env mem f i kind argument result tfr ≠ .fail st) :
    ∃ words n call, (argumentRegisters i).mapM (fun r => argument (tfr.registers r)) = some words ∧
      callableReferenceInvoke env kind reference words = .ok (n, call) ∧
      taggedCall env mem f i kind argument result tfr =
        .called call (tfr.setRegister i.destination (result n)) := by
  unfold taggedCall at hfail ⊢
  simp only [hleft, hp] at hfail ⊢
  split at hfail
  · exact absurd rfl (hfail _)
  rename_i hargs
  rw [if_neg hargs]
  cases hwords : (argumentRegisters i).mapM fun r => argument (tfr.registers r) with
  | none =>
    simp only [hwords] at hfail
    exact absurd rfl (hfail _)
  | some words =>
    simp only [hwords] at hfail ⊢
    cases hinvoke : callableReferenceInvoke env kind reference words with
    | error st =>
      simp only [hinvoke] at hfail
      exact absurd rfl (hfail _)
    | ok r => exact ⟨words, r.1, r.2, rfl, hinvoke, rfl⟩

theorem simulated_call {kind : EntryKind} {argument : BoxedValue → Option Word}
    {result : Word → BoxedValue} {kept : Nat → Bool} {place : Word} {s' : SpecializeState}
    {boxed : List BoxedValue} (arguments : List Word)
    (hop : i.opcode = .valueCallI64 ∧ kind = .int32 ∨ i.opcode = .valueCallF64 ∧ kind = .float64)
    (heffect : taggedEffect env mem f boxed i k.frame =
      taggedCall env mem f i kind argument result k.frame)
    (hkeeps : keepsWords env i k = (argumentRegisters i).all kept)
    (hkept : ∀ r, s.registers r = .numeric → ∀ n, argument (k.frame.registers r) = some n →
      (fr.registers r = n ↔ kept r = true))
    (hresult : ∀ n, (result n).number = some n) (hrel : Related s k fr)
    (hregisters : f.registerCount ≤ maxRegisters) (hcount : g.registerCount = f.registerCount)
    (hroom : i.right + i.immediate.toNat ≤ f.registerCount)
    (hstep : specializeCall mem f place s i = some s')
    (hfail : ∀ st, taggedEffect env mem f boxed i k.frame ≠ .fail st) :
    Simulated env mem f g boxed arguments i s k fr s' := by
  obtain ⟨p, reference, hleft, hp, himm, hnumeric, rfl⟩ :=
    specializeCall_some hregisters hroom hstep
  have hlen : (argumentRegisters i).length ≤ clutchMaxArguments := by
    rwa [argumentRegisters, List.length_map, List.length_range]
  have hcallable : k.frame.registers i.left = .callableReference p := by
    have hheld := hrel.registers i.left
    rw [hleft] at hheld
    generalize k.frame.registers i.left = u at hheld
    cases hheld
    rfl
  rw [heffect] at hfail
  obtain ⟨words, n, call, hwords, hinvoke, hcalled⟩ := taggedCall_called hcallable hp hfail
  obtain ⟨target, htarget, hkind, rfl, hentry⟩ := callableReferenceInvoke_ok hinvoke
  have hsame : (argumentRegisters i).map fr.registers = words ↔
      keepsWords env i k = true := by
    rw [hkeeps]
    exact mapM_words (fun r hr => hkept r (hnumeric r hr)) hwords
  have hnext : ∀ tfr, k.next i tfr = { k with
      frame := tfr, registers := Function.update k.registers i.destination .other,
      emitted := true } := by
    intro tfr
    unfold OriginState.next
    rcases hop with ⟨hop, -⟩ | ⟨hop, -⟩ <;> rw [hop]
  have hnop : (specializedCall reference place i).opcode ≠ .argument ∧
      localsInBounds (specializedCall reference place i) = true := by
    unfold specializedCall localsInBounds
    rcases hop with ⟨hop, -⟩ | ⟨hop, -⟩ <;> simp [hop]
  refine .calls _ (specializedCall reference place i) _ _ (heffect.trans hcalled) rfl hnop.1
    hnop.2 (nativeCall_specialized htarget hlen fr) ?_ ?_ ?_
  · rw [← hsame, hkind, NativeCall.mk.injEq]
    exact ⟨fun h => h.2.2, fun h => ⟨rfl, rfl, h⟩⟩
  · intro hcall
    rw [hkind, NativeCall.mk.injEq] at hcall
    refine ⟨_, effect_specialized hop hcount hroom hlen htarget hkind hcall.2.2 hentry, ?_⟩
    rw [hnext]
    refine (hrel.setRegister i.destination (.number _ _ (hresult n)) ?_ ?_ ?_).emit _ <;> rfl
  · rw [hnext]

theorem taggedEffect_native (env : Env) (mem : CallableMemory) (f : Function)
    (boxed : List BoxedValue) (tfr : TaggedFrame)
    (h : i.opcode ∈ [Opcode.returnI64, .returnF64, .argument, .constantI64, .constantF64, .addI64,
      .subI64, .mulI64, .callNativeI64, .callNativeF64]) :
    taggedEffect env mem f boxed i tfr = .fail .unsupported := by
  unfold taggedEffect
  simp only [List.mem_cons, List.not_mem_nil, or_false] at h
  rcases h with h | h | h | h | h | h | h | h | h | h <;> rw [h]

theorem checkInstruction_call (hop : i.opcode = .valueCallI64 ∨ i.opcode = .valueCallF64)
    (h : checkInstruction f i = none) : i.right + i.immediate.toNat ≤ f.registerCount := by
  have hroom : f.registerCount < i.right + i.immediate.toNat → False := by
    intro hlt
    unfold checkInstruction at h
    rcases hop with hop | hop
    · rw [hop] at h
      simp [hlt] at h
    · rw [hop] at h
      simp [hlt] at h
  exact Nat.not_lt.mp hroom

theorem checkInstruction_valueArgument (hop : i.opcode = .valueArgument)
    (h : checkInstruction f i = none) : i.immediate.toNat < f.argumentCount := by
  by_contra hge
  unfold checkInstruction at h
  rw [hop] at h
  simp only [validIndex, hge, decide_false, Bool.and_false, Bool.not_false, if_true] at h
  split at h <;> cases h

/-- One instruction of a function that the pass rewrites. -/
theorem simulated {place : Word} {s' : SpecializeState} {boxed : List BoxedValue}
    {arguments : List Word} (hrel : Related s k fr) (hregisters : f.registerCount ≤ maxRegisters)
    (hcount : g.registerCount = f.registerCount) (hcheck : checkInstruction f i = none)
    (hargs : ∀ a, a < f.argumentCount → boxed.getD a .undefined = .int32 (arguments.getD a 0))
    (hstep : specializeStep mem f place s i = some s')
    (hfail : ∀ st, taggedEffect env mem f boxed i k.frame ≠ .fail st) :
    Simulated env mem f g boxed arguments i s k fr s' := by
  have hnative := taggedEffect_native (i := i) env mem f boxed k.frame
  cases hop : i.opcode with
  | valueCallableConstant =>
    simp only [specializeStep, hop, Option.some.injEq] at hstep
    subst hstep
    refine .silent (k.frame.setRegister i.destination (.callableReference i.immediate)) ?_ rfl ?_
      ?_ ?_
    · simp only [taggedEffect, hop]
    · refine hrel.forget i.destination (.callable .other i.immediate _) ?_ ?_ ?_ <;>
        simp only [OriginState.next, hop]
    · simp only [OriginState.next, hop]
    · simp only [keepsWords, hop]
  | valueConstantI32 =>
    simp only [specializeStep, hop, Option.some.injEq] at hstep
    subst hstep
    refine .emits (k.frame.setRegister i.destination
      (.int32 ((i.immediate.setWidth 32).signExtend 64))) { i with opcode := .constantI64 }
      (fr.setRegister i.destination i.immediate) ?_ rfl (by simp) (by simp [localsInBounds]) rfl rfl
      ?_ ?_ ?_
    · simp only [taggedEffect, hop]
    · refine (hrel.setRegister i.destination (.constant i.immediate) ?_ ?_ ?_).emit _ <;>
        simp only [OriginState.next, hop]
    · simp only [OriginState.next, hop]
    · simp only [keepsWords, hop]
  | valueArgument =>
    simp only [specializeStep, hop, Option.some.injEq] at hstep
    subst hstep
    have hindex := checkInstruction_valueArgument hop hcheck
    refine .loads (k.frame.setRegister i.destination (.int32 (arguments.getD i.immediate.toNat 0)))
      { i with opcode := .argument } ?_ rfl rfl ?_ ?_ ?_
    · simp only [taggedEffect, hop, hargs _ hindex]
    · refine (hrel.setRegister i.destination (.number (.int32 _) _ rfl) ?_ ?_ ?_).emit _ <;>
        simp only [OriginState.next, hop]
    · simp only [OriginState.next, hop]
    · simp only [keepsWords, hop]
  | valueMove =>
    simp only [specializeStep, hop] at hstep
    split at hstep
    · cases hstep
    rename_i hknown
    cases hstep
    refine .silent (k.frame.setRegister i.destination (k.frame.registers i.left)) ?_ rfl ?_ ?_ ?_
    · simp only [taggedEffect, hop]
    · refine hrel.forget i.destination ((hrel.registers i.left).any hknown _) ?_ ?_ ?_ <;>
        simp only [OriginState.next, hop]
    · simp only [OriginState.next, hop]
    · simp only [keepsWords, hop]
  | valueLocalSet =>
    simp only [specializeStep, hop] at hstep
    split at hstep
    · cases hstep
    rename_i hindex
    have hheld := hrel.registers i.left
    split at hstep
    · rename_i hknown
      cases hstep
      have hnumber := hheld.numeric_iff.mp hknown
      refine .emits (k.frame.setLocal i.immediate.toNat (k.frame.registers i.left))
        { i with opcode := .localSet } (fr.setLocal i.immediate.toNat (fr.registers i.left))
        ?_ rfl (by simp) ?_ rfl rfl ?_ ?_ ?_
      · simp only [taggedEffect, hop]
      · simp [localsInBounds]
        omega
      · refine (hrel.setLocal i.immediate.toNat hheld ?_ ?_ ?_).emit _ <;>
          simp only [OriginState.next, hop]
      · simp only [OriginState.next, hop, hnumber, Bool.or_true]
      · simp only [keepsWords, hop]
    · rename_i hknown
      cases hstep
      have hnumber := mt hheld.numeric_iff.mpr hknown
      rw [Bool.not_eq_true] at hnumber
      refine .silent (k.frame.setLocal i.immediate.toNat (k.frame.registers i.left)) ?_ rfl ?_ ?_ ?_
      · simp only [taggedEffect, hop]
      · refine hrel.forgetLocal i.immediate.toNat (hheld.any hknown _) ?_ ?_ ?_ <;>
          simp only [OriginState.next, hop]
      · simp only [OriginState.next, hop, hnumber, Bool.or_false]
      · simp only [keepsWords, hop]
  | valueLocalGet =>
    simp only [specializeStep, hop] at hstep
    split at hstep
    · cases hstep
    rename_i hindex
    have hheld := hrel.locals i.immediate.toNat
    split at hstep
    · rename_i hknown
      cases hstep
      have hnumber := hheld.numeric_iff.mp hknown
      refine .emits (k.frame.setRegister i.destination (k.frame.locals i.immediate.toNat))
        { i with opcode := .localGet }
        (fr.setRegister i.destination (fr.locals i.immediate.toNat)) ?_ rfl (by simp) ?_ rfl rfl
        ?_ ?_ ?_
      · simp only [taggedEffect, hop]
      · simp [localsInBounds]
        omega
      · refine (hrel.setRegister i.destination hheld ?_ ?_ ?_).emit _ <;>
          simp only [OriginState.next, hop]
      · simp only [OriginState.next, hop, hnumber, Bool.or_true]
      · simp only [keepsWords, hop]
    · rename_i hknown
      cases hstep
      have hnumber := mt hheld.numeric_iff.mpr hknown
      rw [Bool.not_eq_true] at hnumber
      refine .silent (k.frame.setRegister i.destination (k.frame.locals i.immediate.toNat)) ?_ rfl
        ?_ ?_ ?_
      · simp only [taggedEffect, hop]
      · refine hrel.forget i.destination (hheld.any hknown _) ?_ ?_ ?_ <;>
          simp only [OriginState.next, hop]
      · simp only [OriginState.next, hop, hnumber, Bool.or_false]
      · simp only [keepsWords, hop]
  | valueCallI64 =>
    simp only [specializeStep, hop] at hstep
    have heffect : taggedEffect env mem f boxed i k.frame =
        taggedCall env mem f i .int32 integerArgument .int64 k.frame := by
      simp only [taggedEffect, hop]
    have hkeeps : keepsWords env i k = (argumentRegisters i).all fun r =>
        integerKept (k.registers r) := by
      simp only [keepsWords, hop]
    refine simulated_call arguments (.inl ⟨hop, rfl⟩) heffect hkeeps (fun r hr n hn => ?_)
      (fun _ => rfl) hrel hregisters hcount (checkInstruction_call (.inl hop) hcheck) hstep hfail
    have hheld := hrel.registers r
    rw [hr] at hheld
    exact hheld.integer_kept hn
  | valueCallF64 =>
    simp only [specializeStep, hop] at hstep
    have heffect : taggedEffect env mem f boxed i k.frame =
        taggedCall env mem f i .float64 (doubleArgument env) .float64 k.frame := by
      simp only [taggedEffect, hop]
    have hkeeps : keepsWords env i k = (argumentRegisters i).all fun r =>
        doubleKept env (k.registers r) (k.frame.registers r) := by
      simp only [keepsWords, hop]
    refine simulated_call arguments (.inr ⟨hop, rfl⟩) heffect hkeeps (fun r hr n hn => ?_)
      (fun _ => rfl) hrel hregisters hcount (checkInstruction_call (.inr hop) hcheck) hstep hfail
    have hheld := hrel.registers r
    rw [hr] at hheld
    exact hheld.double_kept hn
  | valueReturn =>
    simp only [specializeStep, hop] at hstep
    split at hstep
    · rename_i hknown
      cases hstep
      have hheld := hrel.registers i.left
      rw [hknown] at hheld
      refine .returns (k.frame.registers i.left) (fr.registers i.left)
        { i with opcode := .returnI64 } ?_ rfl (by simp) (by simp [localsInBounds]) rfl rfl ?_
      · simp only [taggedEffect, hop]
      · intro n hn
        simp only [keepsWords, hop]
        exact hheld.number_kept hn
    · cases hstep
  | returnI64 => exact absurd (hnative (by simp [hop])) (hfail _)
  | returnF64 => exact absurd (hnative (by simp [hop])) (hfail _)
  | argument => exact absurd (hnative (by simp [hop])) (hfail _)
  | constantI64 => exact absurd (hnative (by simp [hop])) (hfail _)
  | constantF64 => exact absurd (hnative (by simp [hop])) (hfail _)
  | addI64 => exact absurd (hnative (by simp [hop])) (hfail _)
  | subI64 => exact absurd (hnative (by simp [hop])) (hfail _)
  | mulI64 => exact absurd (hnative (by simp [hop])) (hfail _)
  | callNativeI64 => exact absurd (hnative (by simp [hop])) (hfail _)
  | callNativeF64 => exact absurd (hnative (by simp [hop])) (hfail _)
  | _ =>
    simp only [specializeStep, hop] at hstep
    cases hstep

/-- The rest of `TurboJS_IRExecute` from `pc` on, while it loads arguments or behind them: how it
ends, and the calls that it makes. -/
def resumed (env : Env) (g : Function) (arguments : List Word) (steps : Nat) (fr : Frame)
    (pc : Nat) (loading : Bool) : Outcome × List NativeCall :=
  if loading then
    let (fr, pc) := loadArguments arguments (g.instructions.drop pc) fr pc
    (executeFrom env g (stepLimit g) fr pc, callsFrom env g (stepLimit g) fr pc)
  else (executeFrom env g steps fr pc, callsFrom env g steps fr pc)

section

variable {arguments : List Word} {j : Instruction} {steps pc : Nat} {fr' : Frame}

theorem drop_eq_cons (hj : g.instructions[pc]? = some j) :
    g.instructions.drop pc = j :: g.instructions.drop (pc + 1) := by
  obtain ⟨hlt, rfl⟩ := List.getElem?_eq_some_iff.mp hj
  exact List.drop_eq_getElem_cons hlt

theorem resumed_argument (hj : g.instructions[pc]? = some j) (hop : j.opcode = .argument) :
    resumed env g arguments steps fr pc true = resumed env g arguments steps
      (fr.setRegister j.destination (arguments.getD j.immediate.toNat 0)) (pc + 1) true := by
  simp only [resumed, if_true]
  rw [drop_eq_cons hj, loadArguments, if_pos hop]

theorem resumed_late (hj : g.instructions[pc]? = some j) (hop : j.opcode = .argument)
    (w : Word) : (resumed env g arguments steps fr pc false).1 ≠ .ok w := by
  simp only [resumed, Bool.false_eq_true, if_false]
  unfold executeFrom
  rw [hj]
  cases steps with
  | zero => simp
  | succ steps => simp [localsInBounds, hop, effect]

theorem resumed_enter (env : Env) (arguments : List Word) (fr : Frame) (loading : Bool)
    (hj : g.instructions[pc]? = some j) (hop : j.opcode ≠ .argument)
    (hsteps : g.instructions.length ≤ pc + steps) :
    ∃ left, g.instructions.length ≤ pc + 1 + left ∧
      resumed env g arguments steps fr pc loading =
        resumed env g arguments (left + 1) fr pc false := by
  have hpc := (List.getElem?_eq_some_iff.mp hj).1
  cases loading with
  | false =>
    obtain ⟨left, rfl⟩ := Nat.exists_eq_add_of_lt (show 0 < steps by omega)
    refine ⟨left, by omega, ?_⟩
    rw [Nat.zero_add]
  | true =>
    have hlimit : 0 < stepLimit g := by
      unfold stepLimit
      omega
    obtain ⟨left, hleft⟩ := Nat.exists_eq_add_of_lt hlimit
    rw [Nat.zero_add] at hleft
    refine ⟨left, by unfold stepLimit at hleft; omega, ?_⟩
    simp only [resumed, if_true, Bool.false_eq_true, if_false]
    rw [drop_eq_cons hj, loadArguments, if_neg hop, hleft]

theorem resumed_calls (env : Env) (arguments : List Word) (steps : Nat) (fr : Frame)
    (hj : g.instructions[pc]? = some j) (hbounds : localsInBounds j = true) :
    ∃ more, (resumed env g arguments (steps + 1) fr pc false).2 = nativeCall j fr ++ more := by
  simp only [resumed, Bool.false_eq_true, if_false]
  unfold callsFrom
  rw [hj]
  simp only [hbounds, Bool.not_true, Bool.false_eq_true, if_false]
  exact ⟨_, rfl⟩

theorem resumed_next (hj : g.instructions[pc]? = some j) (hbounds : localsInBounds j = true)
    (hnative : effect env g j fr = .next fr') :
    resumed env g arguments (steps + 1) fr pc false =
      ((resumed env g arguments steps fr' (pc + 1) false).1,
        nativeCall j fr ++ (resumed env g arguments steps fr' (pc + 1) false).2) := by
  simp only [resumed, Bool.false_eq_true, if_false]
  conv_lhs => unfold executeFrom callsFrom
  simp only [hj, hbounds, hnative, Bool.not_true, Bool.false_eq_true, if_false]

theorem resumed_done (hj : g.instructions[pc]? = some j) (hbounds : localsInBounds j = true)
    (hnative : effect env g j fr = .done w) :
    resumed env g arguments (steps + 1) fr pc false = (.ok w, nativeCall j fr) := by
  simp only [resumed, Bool.false_eq_true, if_false]
  conv_lhs => unfold executeFrom callsFrom
  simp only [hj, hbounds, hnative, Bool.not_true, Bool.false_eq_true, if_false, List.append_nil]

theorem SpecializeState.emit_prefix {t : SpecializeState} (ht : t.output = s.output)
    (j : Instruction) : s.output <+: (t.emit j).output :=
  ⟨[j], by rw [SpecializeState.emit, ht]⟩

theorem specializeCall_prefix {place : Word} {s' : SpecializeState}
    (h : specializeCall mem f place s i = some s') : s.output <+: s'.output := by
  unfold specializeCall at h
  simp only at h
  split at h
  · split at h
    · cases h
    · split at h
      · cases h
      · rw [Option.ite_none_right_eq_some] at h
        rw [← Option.some.inj h.2]
        exact SpecializeState.emit_prefix rfl _
  · cases h

theorem specializeStep_grows {place : Word} {s' : SpecializeState}
    (h : specializeStep mem f place s i = some s') : s.output <+: s'.output := by
  unfold specializeStep at h
  repeat' split at h
  all_goals first
    | exact specializeCall_prefix h
    | (cases h; done)
    | (cases h; exact List.prefix_refl _)
    | (cases h; exact SpecializeState.emit_prefix rfl _)

theorem specializeFrom_prefix {places : Nat → Word} {is : List Instruction} {index : Nat}
    {s' : SpecializeState} (h : specializeFrom mem places f is index s = some s') :
    s.output <+: s'.output := by
  induction is generalizing index s with
  | nil =>
    cases h
    exact List.prefix_refl _
  | cons i is ih =>
    rw [specializeFrom] at h
    cases hstep : specializeStep mem f (places index) s i with
    | none =>
      rw [hstep] at h
      cases h
    | some s₁ =>
      rw [hstep] at h
      exact (specializeStep_grows hstep).trans (ih h)

@[simp] theorem OriginState.next_frame (k : OriginState) (i : Instruction) (tfr : TaggedFrame) :
    (k.next i tfr).frame = tfr := by
  unfold OriginState.next
  cases i.opcode <;> rfl

theorem lockstep {places : Nat → Word} {boxed : List BoxedValue} {is : List Instruction}
    {tsteps : Nat} {calls : List NativeCall} {s' : SpecializeState}
    (hregisters : f.registerCount ≤ maxRegisters) (hcount : g.registerCount = f.registerCount)
    (hcheck : ∀ i ∈ f.instructions, checkInstruction f i = none)
    (hargs : ∀ a, a < f.argumentCount → boxed.getD a .undefined = .int32 (arguments.getD a 0))
    (hdrop : f.instructions.drop pc = is)
    (hspec : specializeFrom mem places f is pc s = some s') (hout : s'.output = g.instructions)
    (hrel : Related s k fr) (hsteps : g.instructions.length ≤ s.output.length + steps)
    (htagged : taggedFrom env mem f boxed tsteps k.frame pc = .ok (v, calls))
    (hv : v.number = some n) :
    resumed env g arguments steps fr s.output.length (!k.emitted) = (.ok n, calls) ↔
      ∀ u ∈ taggedVisits env mem f boxed tsteps k pc, keepsWords env u.1 u.2 = true := by
  induction is generalizing pc s k fr steps tsteps calls with
  | nil =>
    have hnone : f.instructions[pc]? = none := by rw [← List.head?_drop, hdrop]; rfl
    unfold taggedFrom at htagged
    rw [hnone] at htagged
    cases tsteps <;> cases htagged
  | cons i is ih =>
    have hi : f.instructions[pc]? = some i := by rw [← List.head?_drop, hdrop]; rfl
    have hdrop' : f.instructions.drop (pc + 1) = is := by rw [← List.tail_drop, hdrop]; rfl
    have hchecked := hcheck i (List.mem_of_getElem? hi)
    rw [specializeFrom] at hspec
    cases hstep : specializeStep mem f (places pc) s i with
    | none =>
      rw [hstep] at hspec
      cases hspec
    | some s₁ =>
    rw [hstep] at hspec
    simp only at hspec
    have hmore := specializeFrom_prefix hspec
    rw [hout] at hmore
    -- an emitted instruction stands where the output ends
    have hplace : ∀ j, s₁.output = s.output ++ [j] →
        g.instructions[s.output.length]? = some j ∧ s₁.output.length = s.output.length + 1 := by
      intro j hj
      obtain ⟨more, hmore⟩ := hmore
      rw [← hmore, hj]
      simp
    cases tsteps with
    | zero =>
      unfold taggedFrom at htagged
      rw [hi] at htagged
      cases htagged
    | succ tsteps =>
    unfold taggedFrom at htagged
    unfold taggedVisits
    simp only [hi] at htagged ⊢
    have hfail : ∀ st, taggedEffect env mem f boxed i k.frame ≠ .fail st := by
      intro st heq
      rw [heq] at htagged
      cases htagged
    have hsim : Simulated env mem f g boxed arguments i s k fr s₁ :=
      simulated hrel hregisters hcount hchecked hargs hstep hfail
    rw [List.forall_mem_cons]
    cases hsim with
    | silent tfr heffect hsame hrel' hemitted hkept =>
      rw [heffect] at htagged
      simp only [heffect] at htagged ⊢
      rw [← hsame, ← hemitted, and_iff_right hkept]
      exact ih hdrop' hspec hrel' (by rw [hsame]; exact hsteps)
        (by rw [OriginState.next_frame]; exact htagged)
    | loads tfr j heffect hemit hop hrel' hemitted hkept =>
      obtain ⟨hj, hlen⟩ := hplace j hemit
      simp only [heffect] at htagged ⊢
      rw [hkept]
      cases hloading : k.emitted with
      | true =>
        refine iff_of_false (fun heq => ?_) (by simp)
        exact resumed_late hj hop n (congrArg Prod.fst heq)
      | false =>
        have hrest : resumed env g arguments steps _ s₁.output.length _ = (.ok n, calls) ↔ _ :=
          ih hdrop' hspec hrel' (by omega) (by rw [OriginState.next_frame]; exact htagged)
        rw [hemitted, hloading, hlen] at hrest
        rw [Bool.not_false, resumed_argument hj hop, ← Bool.not_false, hrest]
        simp
    | emits tfr j fr' heffect hemit hop hbounds hnative hcall hrel' hemitted hkept =>
      obtain ⟨hj, hlen⟩ := hplace j hemit
      obtain ⟨left, hleft, henter⟩ := resumed_enter env arguments fr (!k.emitted) hj hop hsteps
      simp only [heffect] at htagged ⊢
      have hrest : resumed env g arguments left fr' s₁.output.length _ = (.ok n, calls) ↔ _ :=
        ih hdrop' hspec hrel' (by omega) (by rw [OriginState.next_frame]; exact htagged)
      rw [hemitted, hlen] at hrest
      rw [henter, resumed_next hj hbounds hnative, hcall, List.nil_append, and_iff_right hkept]
      exact hrest
    | calls tfr j call call' heffect hemit hop hbounds hcall hkept hnative hemitted =>
      obtain ⟨hj, hlen⟩ := hplace j hemit
      obtain ⟨left, hleft, henter⟩ := resumed_enter env arguments fr (!k.emitted) hj hop hsteps
      simp only [heffect] at htagged ⊢
      cases htail : taggedFrom env mem f boxed tsteps tfr (pc + 1) with
      | error st =>
        rw [htail] at htagged
        cases htagged
      | ok r =>
        obtain ⟨v', calls'⟩ := r
        rw [htail] at htagged
        cases htagged
        rw [henter]
        by_cases hsame : call' = call
        · obtain ⟨fr', heff, hrel'⟩ := hnative hsame
          have hrest : resumed env g arguments left fr' s₁.output.length _ =
              (.ok n, calls') ↔ _ :=
            ih hdrop' hspec hrel' (by omega) (by rw [OriginState.next_frame]; exact htail)
          rw [hemitted, hlen] at hrest
          rw [resumed_next hj hbounds heff, hcall, and_iff_right (hkept.mp hsame), hsame, ← hrest]
          simp [Prod.ext_iff]
        · refine iff_of_false (fun heq => ?_) (fun hall => hsame (hkept.mpr hall.1))
          obtain ⟨more, hall⟩ := resumed_calls env arguments left fr hj hbounds
          rw [heq, hcall] at hall
          exact hsame (List.cons.inj hall).1.symm
    | returns u w j heffect hemit hop hbounds hnative hcall hkept =>
      obtain ⟨hj, hlen⟩ := hplace j hemit
      obtain ⟨left, hleft, henter⟩ := resumed_enter env arguments fr (!k.emitted) hj hop hsteps
      simp only [heffect] at htagged ⊢
      cases htagged
      rw [henter, resumed_done hj hbounds hnative, hcall, ← hkept n hv]
      simp

end

end

def boxedArguments (arguments : List (BitVec 32)) : List BoxedValue :=
  arguments.map fun a => .int32 (a.signExtend 64)

def wideArguments (arguments : List (BitVec 32)) : List Word :=
  arguments.map fun a => a.signExtend 64

theorem boxedArguments_getD (arguments : List (BitVec 32)) {a : Nat}
    (h : a < arguments.length) : (boxedArguments arguments).getD a .undefined =
      .int32 ((wideArguments arguments).getD a 0) := by
  simp [boxedArguments, wideArguments, List.getD_eq_getElem?_getD, List.getElem?_eq_getElem h]

theorem resumed_start {env : Env} {g : Function} {arguments : List Word} (steps : Nat)
    (hverify : (irVerify g).status = .ok) (hcount : g.argumentCount ≤ arguments.length) :
    resumed env g arguments steps .zero 0 true =
      (irExecute env g arguments, executeCalls env g arguments) := by
  unfold irExecute executeCalls
  rw [if_neg (Nat.not_lt.mpr hcount), if_neg (not_not.mpr hverify)]
  simp only [resumed, if_true, List.drop_zero]

theorem related_start : Related .start .start .zero :=
  ⟨fun _ => .none _ _, fun _ => .none _ _⟩

/-- Wherever the tagged execution of a function returns a number, the specialized code returns the
same number with the same calls, exactly if the tagged execution keeps the words: it loads no
argument behind an instruction that leaves code, no constant beyond int32 is returned or passed as
an integer, and no integer is passed as a double unless its conversion leaves its bits alone. -/
theorem specialize_agrees_iff (env : Env) (mem : CallableMemory) (places : Nat → Word)
    {f g : Function} (h : specialize mem places f = some g) (arguments : List (BitVec 32)) :
    (∀ v n calls, executeTagged env mem f (boxedArguments arguments) = .ok (v, calls) →
        v.number = some n → irExecute env g (wideArguments arguments) = .ok n ∧
          executeCalls env g (wideArguments arguments) = calls) ↔
      ((∃ v n calls, executeTagged env mem f (boxedArguments arguments) = .ok (v, calls) ∧
        v.number = some n) → KeepsWords env mem f (boxedArguments arguments)) := by
  unfold specialize at h
  split at h
  · cases h
  rename_i hregisters
  cases hspec : specializeFrom mem places f f.instructions 0 .start with
  | none =>
    rw [hspec] at h
    cases h
  | some s =>
  rw [hspec] at h
  simp only at h
  split at h
  · cases h
  rename_i hverify
  cases h
  have hagree : ∀ v n calls, executeTagged env mem f (boxedArguments arguments) = .ok (v, calls) →
      v.number = some n →
      (irExecute env { f with instructions := s.output } (wideArguments arguments) = .ok n ∧
        executeCalls env { f with instructions := s.output } (wideArguments arguments) = calls ↔
          KeepsWords env mem f (boxedArguments arguments)) := by
    intro v n calls htagged hv
    unfold executeTagged at htagged
    split at htagged
    · cases htagged
    rename_i hlength
    split at htagged
    · cases htagged
    rename_i hverified
    obtain ⟨-, hcheck, -⟩ := irVerify_ok.mp (not_not.mp hverified)
    rw [not_not, boxedArguments, List.length_map] at hlength
    have hlock := lockstep (g := { f with instructions := s.output }) (Nat.not_lt.mp hregisters) rfl
      hcheck (fun a ha => boxedArguments_getD arguments (by omega)) List.drop_zero hspec rfl
      related_start (Nat.le_add_left _ _) htagged hv
    have hle : f.argumentCount ≤ (wideArguments arguments).length := by
      rw [wideArguments, List.length_map]
      exact Nat.le_of_eq hlength.symm
    have hstart : resumed env { f with instructions := s.output } _ s.output.length .zero 0 true =
        _ :=
      resumed_start s.output.length (not_not.mp hverify) hle
    rw [← Prod.mk.injEq, ← hstart]
    exact hlock
  constructor
  · rintro hall ⟨v, n, calls, htagged, hv⟩
    exact (hagree v n calls htagged hv).mp (hall v n calls htagged hv)
  · intro hkept v n calls htagged hv
    exact (hagree v n calls htagged hv).mpr (hkept ⟨v, n, calls, htagged, hv⟩)

def identityEnv : Env where
  addF64 _ _ := 0
  subF64 _ _ := 0
  mulF64 _ _ := 0
  divF64 _ _ := 0
  lessThanF64 _ _ := false
  lessEqualF64 _ _ := false
  equalF64 x y := x == y
  i64ToF64 n := if n = 3 then 0x4008000000000000 else 0
  f64ToI64 _ := 0
  arity _ := 1
  native _ arguments := arguments.head?

def referenceAt4096 (kind : EntryKind) : CallableMemory := fun p =>
  if p = 4096 then some ⟨1, some ⟨some 0, 1, 1, kind⟩, 1, 1, kind⟩ else none

def constantWrapper (call : Opcode) (constant : Word) : Function where
  instructions :=
    [{ opcode := .valueCallableConstant, destination := 0, immediate := 4096 },
      { opcode := .valueConstantI32, destination := 1, immediate := constant },
      { opcode := call, destination := 2, left := 0, right := 1, immediate := 1 },
      { opcode := .valueReturn, left := 2 }]
  registerCount := 3
  argumentCount := 0
  localCount := 0

/-- A wrapper of an integer entry returns what the tagged execution returns. -/
theorem integer_wrapper_agrees :
    ∃ g, specialize (referenceAt4096 .int32) (fun _ => 8192) (constantWrapper .valueCallI64 3) =
      some g ∧
      executeTagged identityEnv (referenceAt4096 .int32) (constantWrapper .valueCallI64 3) [] =
        .ok (.int64 3, [⟨.int32, ⟨some 0, 1, 1, .int32⟩, [3]⟩]) ∧
      irExecute identityEnv g [] = .ok 3 := by
  obtain ⟨g, h⟩ : ∃ g, specialize (referenceAt4096 .int32) (fun _ => 8192)
      (constantWrapper .valueCallI64 3) = some g := ⟨_, rfl⟩
  have htagged : executeTagged identityEnv (referenceAt4096 .int32)
      (constantWrapper .valueCallI64 3) [] =
        .ok (.int64 3, [⟨.int32, ⟨some 0, 1, 1, .int32⟩, [3]⟩]) := by decide +kernel
  refine ⟨g, h, htagged, ?_⟩
  refine ((specialize_agrees_iff identityEnv _ _ h []).mpr (fun _ => ?_) _ _ _ htagged rfl).1
  unfold KeepsWords
  decide +kernel

/-- A wrapper of a Float64 entry passes the bits of the integer 3 where the tagged execution passes
the double 3. -/
theorem double_wrapper_disagrees :
    ∃ f g, specialize (referenceAt4096 .float64) (fun _ => 8192) f = some g ∧
      executeTagged identityEnv (referenceAt4096 .float64) f [] =
        .ok (.float64 0x4008000000000000,
          [⟨.float64, ⟨some 0, 1, 1, .float64⟩, [0x4008000000000000]⟩]) ∧
      irExecute identityEnv g [] = .ok 3 ∧
      executeCalls identityEnv g [] = [⟨.float64, ⟨some 0, 1, 1, .float64⟩, [3]⟩] := by
  refine ⟨constantWrapper .valueCallF64 3, _, rfl, ?_, ?_, ?_⟩
  · decide +kernel
  · decide +kernel
  · decide +kernel

end TurboJS.IR
