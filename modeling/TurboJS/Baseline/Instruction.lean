import TurboJS.Baseline.Call

namespace TurboJS.Baseline

open IR Foundation

section

variable {w : World} {f : Function} {code : List Op} {W : Set Nat} {fr : Frame}
  {n off k : Nat} {m m' : Machine} {site : ClutchCallSite}

theorem Agrees.frameCells {fr' : Frame} (h : Agrees f W fr n m) (hgpr : ∀ r, 8 ≤ r → m'.gpr r = m.gpr r)
    (hpolls : m'.polls = m.polls) (hcells : ∀ c ∈ W, m'.frame (slotDisp c) = frameCell f fr' c) :
    Agrees f W fr' n m' where
  cells := hcells
  safepoint := (hgpr 8 (by omega)).trans h.safepoint
  deopt := (hgpr 9 (by omega)).trans h.deopt
  result := (hgpr 10 (by omega)).trans h.result
  arguments := (hgpr 11 (by omega)).trans h.arguments
  polls := hpolls.trans h.polls

theorem calleeArguments_eq {id : Nat} {sources : List Nat} (hp : Passes f sources 0 m m')
    (harity : w.env.arity id ≤ sources.length) :
    calleeArguments w m' id (callArgDisp f 0) =
      (sources.map fun c => m.frame (slotDisp c)).take (w.env.arity id) := by
  apply List.ext_getElem
  · simp [calleeArguments, harity]
  · intro t ht ht'
    have hlt : t < w.env.arity id := by simpa [calleeArguments] using ht
    have hdisp : callArgDisp f 0 + 8 * (t : Int) = callArgDisp f (0 + t) := by
      simp only [callArgDisp]
      omega
    have hpassed := hp.passed t (by omega)
    simp only [calleeArguments, List.getElem_map, List.getElem_range, List.getElem_take]
    rw [hdisp, hpassed]

def siteReads (site : ClutchCallSite) : List Nat :=
  (if site.hasReceiverShapeGuard then [site.receiverRegister] else []) ++ site.arguments

theorem receiverRefused_iff : receiverRefused w f site fr = false ↔
    (site.hasReceiverShapeGuard = true →
      frameCell f fr site.receiverRegister ≠ 0 ∧
        w.heap (frameCell f fr site.receiverRegister) site.receiverShapeOffset =
          site.receiverShapeIdentity) := by
  cases hg : site.hasReceiverShapeGuard <;> simp [receiverRefused, hg]

theorem Located.callGuards
    (h : Located code off (emitReceiverGuard f k site ++ emitPublicationGuards f k)) (w : World)
    (hsmall : extent Op.size code < 2 ^ 31) (hag : Agrees f W fr n m)
    (hsite : siteAt f k = some site) (hreads : ∀ c ∈ siteReads site, c ∈ W) :
    Guards w f code k off
      (off + extent Op.size (emitReceiverGuard f k site ++ emitPublicationGuards f k)) m
      (receiverRefused w f site fr = false ∧ (publishedEntry site).isSome = true)
      (fun m' => ∃ id, publishedEntry site = some id ∧ m'.gpr 0 = .pointer (.native id)) := by
  have hreceiver : site.hasReceiverShapeGuard = true →
      m.frame (slotDisp site.receiverRegister) = frameCell f fr site.receiverRegister := by
    intro hg
    exact hag.cells _ (hreads _ (by simp [siteReads, hg]))
  have hfirst : Guards w f code k off (off + extent Op.size (emitReceiverGuard f k site)) m
      (receiverRefused w f site fr = false) (fun _ => True) :=
    (h.left.receiver w hsmall hag.deopt hreceiver).of_iff receiverRefused_iff.symm
      (fun _ _ _ => trivial)
  have hboth := hfirst.andThen fun m₁ _ hs₁ _ =>
    h.right.published w hsmall ((hs₁.gpr 9 (by omega)).trans hag.deopt) hsite
  rw [Nat.add_assoc, ← extent_append] at hboth
  exact hboth

/-- What the code of a call whose guards have passed does. -/
theorem Located.calls {id destination : Nat}
    (h : Located code off (site.arguments.zipIdx.flatMap (passArgument f) ++
      (callSetup f destination ++ .callReg 0 :: callRestore) ++
        skipIf true (returnBailoutAt f k 5)))
    (w : World) (hsmall : extent Op.size code < 2 ^ 31) (hag : Agrees f W fr n m)
    (hW : ∀ c ∈ W, c < f.registerCount + f.localCount) (hd : destination < f.registerCount)
    (hcount : site.arguments.length ≤ clutchMaxArguments)
    (hargs : ∀ c ∈ site.arguments, c < f.registerCount) (hreads : ∀ c ∈ site.arguments, c ∈ W)
    (harity : w.env.arity id ≤ site.arguments.length) (h0 : m.gpr 0 = .pointer (.native id)) :
    match w.env.native id ((site.arguments.map fr.registers).take (w.env.arity id)) with
    | none => ∃ m', Leaves w f code (off, m) m' ∧ BailsAt f k 5 W fr m'
    | some v => ∃ m', Executes w f code (off, m)
        ((off + extent Op.size (site.arguments.zipIdx.flatMap (passArgument f) ++
          (callSetup f destination ++ .callReg 0 :: callRestore) ++
            skipIf true (returnBailoutAt f k 5)) : Nat), m') ∧
        Agrees f (insert destination W) (fr.setRegister destination v) n m' := by
  have hcells : ∀ c ∈ site.arguments, c < f.registerCount + f.localCount := by
    intro c hc
    have hlt := hargs c hc
    omega
  obtain ⟨m₁, hpass, hp⟩ := execAll_passArguments w (j := 0) (by omega) hcells m
  have h0₁ : m₁.gpr 0 = .pointer (.native id) := (hp.gpr 0 (by omega)).trans h0
  have hag₁ : Agrees f W fr n m₁ := by
    refine hag.frameCells (fun r hr => hp.gpr r (by omega)) hp.polls ?_
    intro c hc
    rw [hp.cells c (hW c hc), hag.cells c hc]
  obtain ⟨m₂, flags, hcall, hflags, hgpr, hpolls, hresult⟩ :=
    execAll_call w (f := f) destination h0₁
  have harguments : calleeArguments w m₁ id (callArgDisp f 0) =
      (site.arguments.map fr.registers).take (w.env.arity id) := by
    rw [calleeArguments_eq hp harity]
    congr 1
    apply List.map_congr_left
    intro c hc
    exact hag.register (hargs c hc) (hreads c hc)
  rw [harguments] at hresult
  have hrun : Executes w f code (off, m)
      ((off + extent Op.size (site.arguments.zipIdx.flatMap (passArgument f) ++
        (callSetup f destination ++ .callReg 0 :: callRestore)) : Nat), m₂) := by
    apply h.left.straight
    rw [execAll_append, hpass, Option.bind_some, hcall]
  have h9 : m₂.gpr 9 = .pointer .deopt := (hgpr 9 (by omega)).trans hag₁.deopt
  obtain ⟨hgo, hleave⟩ := h.right.guard w hsmall hflags h9
  cases hnative : w.env.native id ((site.arguments.map fr.registers).take (w.env.arity id)) with
  | none =>
    rw [hnative] at hresult
    obtain ⟨hzero, hframe⟩ := hresult
    obtain ⟨m', hleaves, hl⟩ := hleave (by simp [hzero])
    have hag₂ : Agrees f W fr n m₂ := by
      refine hag₁.frameCells hgpr hpolls ?_
      intro c hc
      rw [hframe, hag₁.cells c hc]
    exact ⟨m', hleaves.after hrun, hag₂.bailsAt hW hl⟩
  | some v =>
    rw [hnative] at hresult
    obtain ⟨hzero, hframe⟩ := hresult
    refine ⟨m₂, ?_, ?_⟩
    · have hall := hrun.trans (hgo hzero)
      rw [Nat.add_assoc, ← extent_append] at hall
      exact hall
    · have hstored := hag₁.storeRegister hd v
      apply hstored.frameCells hgpr hpolls
      intro c hc
      rw [hframe]
      exact hstored.cells c hc

/-- The code of a native call does what `nativeCall` says. -/
theorem Located.callNative {i : Instruction}
    (h : Located code off (emitCallNative f k i.destination site)) (w : World)
    (hsmall : extent Op.size code < 2 ^ 31) (hag : Agrees f W fr n m)
    (hW : ∀ c ∈ W, c < f.registerCount + f.localCount) (hsite : siteAt f k = some site)
    (hi : i.site = some site) (hd : i.destination < f.registerCount)
    (hcount : site.argumentCount ≤ clutchMaxArguments)
    (hargs : ∀ c ∈ site.arguments, c < f.registerCount)
    (hreads : ∀ c ∈ siteReads site, c ∈ W) :
    match nativeCall w f i fr with
    | .next fr' => ∃ m', Executes w f code (off, m)
        ((off + extent Op.size (emitCallNative f k i.destination site) : Nat), m') ∧
        Agrees f (insert i.destination W) fr' n m'
    | .bail reason => ∃ m', Leaves w f code (off, m) m' ∧ BailsAt f k (statusCode reason) W fr m'
    | .fail _ => True
    | _ => False := by
  have hshape : emitCallNative f k i.destination site =
      (emitReceiverGuard f k site ++ emitPublicationGuards f k) ++
        (site.arguments.zipIdx.flatMap (passArgument f) ++
          (callSetup f i.destination ++ .callReg 0 :: callRestore) ++
            skipIf true (returnBailoutAt f k 5)) := by
    simp [emitCallNative, callSetup, callRestore]
  have hlength : site.arguments.length = site.argumentCount := by
    simp [ClutchCallSite.arguments, Nat.min_eq_left hcount]
  rw [hshape] at h ⊢
  obtain ⟨hgo, hleave⟩ := h.left.callGuards w hsmall hag hsite hreads
  have hrefused : ¬ (receiverRefused w f site fr = false ∧ (publishedEntry site).isSome = true) →
      ∃ m', Leaves w f code (off, m) m' ∧ BailsAt f k 5 W fr m' := by
    intro hnot
    obtain ⟨m₁, m', hleaves, hs, hl⟩ := hleave hnot
    exact ⟨m', hleaves, (hag.scratched hs).bailsAt hW hl⟩
  cases hr : receiverRefused w f site fr with
  | true =>
    have heff : nativeCall w f i fr = .bail .runtimeHelper := by
      simp [nativeCall, hi, hr]
    rw [heff]
    exact hrefused (by simp [hr])
  | false =>
    cases hpub : publishedEntry site with
    | none =>
      have heff : nativeCall w f i fr = .bail .runtimeHelper := by
        simp [nativeCall, hi, hr, hpub]
      rw [heff]
      exact hrefused (by simp [hpub])
    | some id =>
      obtain ⟨m₁, hrun, hs, id', hid, h0⟩ := hgo ⟨hr, by simp [hpub]⟩
      rw [hpub] at hid
      cases hid
      by_cases harity : site.argumentCount < w.env.arity id
      · have heff : nativeCall w f i fr = .fail .invalidArgument := by
          simp [nativeCall, hi, hr, hpub, harity]
        rw [heff]
        trivial
      · have hcalls := h.right.calls w hsmall (hag.scratched hs) hW hd
          (by omega) hargs (fun c hc => hreads c (List.mem_append_right _ hc)) (by omega) h0
        cases hnative : w.env.native id
            ((site.arguments.map fr.registers).take (w.env.arity id)) with
        | none =>
          have heff : nativeCall w f i fr = .bail .runtimeHelper := by
            simp [nativeCall, hi, hr, hpub, harity, hnative]
          rw [hnative] at hcalls
          rw [heff]
          obtain ⟨m', hleaves, hb⟩ := hcalls
          exact ⟨m', hleaves.after hrun, hb⟩
        | some v =>
          have heff : nativeCall w f i fr = .next (fr.setRegister i.destination v) := by
            simp [nativeCall, hi, hr, hpub, harity, hnative]
          rw [hnative] at hcalls
          rw [heff]
          obtain ⟨m', hexec, ha⟩ := hcalls
          refine ⟨m', ?_, ha⟩
          have hall := hrun.trans hexec
          rw [Nat.add_assoc, ← extent_append] at hall
          exact hall

end

def writtenAfter (f : Function) (i : Instruction) (W : Set Nat) : Set Nat :=
  match cellWrite f i with
  | some c => insert c W
  | none => W

def pollsAfter (k : Nat) (i : Instruction) (n : Nat) : Nat := if pollsAt k i then n + 1 else n

def Simulates (w : World) (f : Function) (code : List Op) (k off next : Nat) (i : Instruction)
    (W : Set Nat) (fr : Frame) (n : Nat) (m : Machine) : Effect → Prop
  | .next fr' => ∃ m', Executes w f code (off, m) (next, m') ∧
      Agrees f (writtenAfter f i W) fr' (pollsAfter k i n) m'
  | .goto t fr' => ∃ m', Executes w f code (off, m) (offsetOf f t, m') ∧
      Agrees f (writtenAfter f i W) fr' (pollsAfter k i n) m'
  | .done v => ∃ m', Leaves w f code (off, m) m' ∧ m'.gpr 0 = .word 0 ∧ m'.result = v
  | .bail reason => ∃ m', Leaves w f code (off, m) m' ∧ BailsAt f k (statusCode reason) W fr m'
  | .fail _ => True

section

variable {w : World} {f : Function} {code body : List Op} {W : Set Nat} {fr : Frame}
  {n off next k : Nat} {m m' : Machine} {i : Instruction} {v : Word}

theorem nativeEffect_plain (hp : pollsAt k i = false) (hc : isCallNative i = false)
    (hd : divisionFaults i fr = false) :
    nativeEffect w f k i n fr = refEffect w.env f w.arguments i fr := by
  simp [nativeEffect, hp, hc, hd]

theorem simulates_store {off₁ : Nat} (hrun : Executes w f code (off, m) (off₁, m'))
    (hat : Located code off₁ [storeSlot i.destination 0]) (hnext : next = off₁ + 7)
    (hag : Agrees f W fr n m') (hv : m'.gpr 0 = .word v) (hd : i.destination < f.registerCount)
    (hw : cellWrite f i = some i.destination) (hp : pollsAt k i = false) :
    Simulates w f code k off next i W fr n m (.next (fr.setRegister i.destination v)) := by
  have hstore := Located.stored (w := w) (f := f) hat hv
  refine ⟨m'.setFrame (slotDisp i.destination) v, ?_, ?_⟩
  · rw [hnext]
    exact hrun.trans hstore
  · simp only [writtenAfter, hw, pollsAfter, hp]
    exact hag.storeRegister hd v

theorem simulates_value (hat : Located code off (body ++ [storeSlot i.destination 0]))
    (hnext : next = off + extent Op.size (body ++ [storeSlot i.destination 0]))
    (hag : Agrees f W fr n m) (hd : i.destination < f.registerCount)
    (hw : cellWrite f i = some i.destination) (hp : pollsAt k i = false)
    (hc : Computes w f body m v) :
    Simulates w f code k off next i W fr n m (.next (fr.setRegister i.destination v)) := by
  obtain ⟨m₁, hrun, hs, hv⟩ := hc.straight hat.left
  rw [extent_append, ← Nat.add_assoc] at hnext
  exact simulates_store hrun hat.right hnext (hag.scratched hs) hv hd hw hp

theorem simulates_checked
    (hat : Located code off (body ++ checkI32 f k ++ [storeSlot i.destination 0]))
    (hnext : next = off + extent Op.size (body ++ checkI32 f k ++ [storeSlot i.destination 0]))
    (hsmall : extent Op.size code < 2 ^ 31) (hag : Agrees f W fr n m)
    (hW : ∀ c ∈ W, c < f.registerCount + f.localCount) (hd : i.destination < f.registerCount)
    (hw : cellWrite f i = some i.destination) (hp : pollsAt k i = false)
    (hc : Computes w f body m v) :
    Simulates w f code k off next i W fr n m (checkedI32 v fr i.destination) := by
  obtain ⟨m₁, hrun, hs, hv⟩ := hc.straight hat.left.left
  have hag₁ := hag.scratched hs
  obtain ⟨hgo, hleave⟩ := hat.left.right.checked w hsmall hag₁.deopt hv
  unfold checkedI32
  cases hfits : fitsInt32 v with
  | true =>
    obtain ⟨m₂, hrun₂, hs₂, hv₂⟩ := hgo hfits
    have hatStore := hat.right
    rw [extent_append, ← Nat.add_assoc] at hatStore
    rw [extent_append, extent_append, ← Nat.add_assoc, ← Nat.add_assoc] at hnext
    exact simulates_store (hrun.trans hrun₂) hatStore hnext (hag₁.scratched hs₂) hv₂ hd hw hp
  | false =>
    obtain ⟨m₂, m', hleaves, hs₂, hl⟩ := hleave hfits
    exact ⟨m', hleaves.after hrun, (hag₁.scratched hs₂).bailsAt hW hl⟩

theorem simulates_divrem {wantRemainder : Bool}
    (hat : Located code off ([loadSlot 0 i.left, loadSlot 1 i.right] ++
      emitDivremChecked f k wantRemainder ++ [storeSlot i.destination 0]))
    (hnext : next = off + extent Op.size ([loadSlot 0 i.left, loadSlot 1 i.right] ++
      emitDivremChecked f k wantRemainder ++ [storeSlot i.destination 0]))
    (hsmall : extent Op.size code < 2 ^ 31) (hag : Agrees f W fr n m)
    (hW : ∀ c ∈ W, c < f.registerCount + f.localCount) (hd : i.destination < f.registerCount)
    (hw : cellWrite f i = some i.destination) (hp : pollsAt k i = false)
    (hl : m.frame (slotDisp i.left) = fr.registers i.left)
    (hr : m.frame (slotDisp i.right) = fr.registers i.right)
    (hover : ¬ (fr.registers i.left = BitVec.intMin 64 ∧ fr.registers i.right = -1)) :
    Simulates w f code k off next i W fr n m
      (if fr.registers i.right = 0 then .bail .divisionByZero
        else if wantRemainder = false ∧ fr.registers i.left = int32Min ∧ fr.registers i.right = -1 then
          .bail .divisionOverflow
        else .next (fr.setRegister i.destination (if wantRemainder then
          (fr.registers i.left).srem (fr.registers i.right)
          else (fr.registers i.left).sdiv (fr.registers i.right)))) := by
  have hloads : execAll w f [loadSlot 0 i.left, loadSlot 1 i.right] m =
      some ((m.set 0 (.word (fr.registers i.left))).set 1 (.word (fr.registers i.right))) := by
    simp [execAll_cons, loadSlot, exec, hl, hr]
  have hrun := hat.left.left.straight hloads
  have hs : Scratched m
      ((m.set 0 (.word (fr.registers i.left))).set 1 (.word (fr.registers i.right))) :=
    (Scratched.set m (by omega) _).trans (.set _ (by omega) _)
  have hag₁ := hag.scratched hs
  obtain ⟨hzero, hmin, hgo⟩ := hat.left.right.divrem w hsmall hag₁.deopt
    (l := fr.registers i.left) (r := fr.registers i.right) (by simp) (by simp)
  split
  · rename_i hz
    obtain ⟨m₁, m', hleaves, hs₁, hl'⟩ := hzero hz
    exact ⟨m', hleaves.after hrun, (hag₁.scratched hs₁).bailsAt hW hl'⟩
  · rename_i hz
    split
    · rename_i hspecial
      obtain ⟨m₁, m', hleaves, hs₁, hl'⟩ := hmin hspecial.1 hspecial.2.1 hspecial.2.2
      exact ⟨m', hleaves.after hrun, (hag₁.scratched hs₁).bailsAt hW hl'⟩
    · rename_i hspecial
      obtain ⟨m₂, hrun₂, hs₂, hv⟩ := hgo hz hover hspecial
      have hatStore := hat.right
      rw [extent_append, ← Nat.add_assoc] at hatStore
      rw [extent_append, extent_append, ← Nat.add_assoc, ← Nat.add_assoc] at hnext
      exact simulates_store (hrun.trans hrun₂) hatStore hnext (hag₁.scratched hs₂) hv hd hw hp

theorem Located.poll (h : Located code off (backwardPoll f k i.target)) (w : World)
    (hsmall : extent Op.size code < 2 ^ 31) (hag : Agrees f W fr n m)
    (hW : ∀ c ∈ W, c < f.registerCount + f.localCount) :
    (¬ (i.target ≤ k ∧ w.requested n = true) → ∃ m', Executes w f code (off, m)
        ((off + extent Op.size (backwardPoll f k i.target) : Nat), m') ∧
      Agrees f W fr (if i.target ≤ k then n + 1 else n) m') ∧
    (i.target ≤ k ∧ w.requested n = true →
      ∃ m', Leaves w f code (off, m) m' ∧ BailsAt f k 4 W fr m') := by
  unfold backwardPoll at h ⊢
  by_cases hback : i.target ≤ k
  · simp only [hback, if_true, true_and] at h ⊢
    generalize hm : ({ m.setFlags (some ⟨!w.requested n, false⟩) with polls := n + 1 } : Machine) =
      m₁
    have hcmp : exec w f .cmpSafepoint m = some m₁ := by
      rw [← hm]
      simp [exec, hag.safepoint, hag.polls]
    have hrun := h.step hcmp
    have hag₁ : Agrees f W fr (n + 1) m₁ := by
      subst hm
      exact ⟨hag.cells, hag.safepoint, hag.deopt, hag.result, hag.arguments, rfl⟩
    have hflags : m₁.flags = some ⟨!w.requested n, false⟩ := by
      subst hm
      rfl
    obtain ⟨hgo, hleave⟩ := h.tail.guard w hsmall hflags hag₁.deopt
    constructor
    · intro hnot
      refine ⟨m₁, ?_, hag₁⟩
      have hall := hrun.trans (hgo (by simpa using hnot))
      rw [Nat.add_assoc, ← extent_cons] at hall
      exact hall
    · intro hreq
      obtain ⟨m', hleaves, hl⟩ := hleave (by simp [hreq])
      exact ⟨m', hleaves.after hrun, hag₁.bailsAt hW hl⟩
  · simp only [hback, if_false, false_and, not_false_eq_true, forall_const, false_implies,
      and_true]
    exact ⟨m, .refl _, hag⟩

theorem simulates_jump {disp : Int}
    (hat : Located code off (backwardPoll f k i.target ++ ([.jmp disp] : List Op)))
    (hnext : next = off + extent Op.size (backwardPoll f k i.target ++ ([.jmp disp] : List Op)))
    (hsmall : extent Op.size code < 2 ^ 31) (hag : Agrees f W fr n m)
    (hW : ∀ c ∈ W, c < f.registerCount + f.localCount) (hop : i.opcode = .jump)
    (hdisp : (next : Int) + disp = offsetOf f i.target) :
    Simulates w f code k off next i W fr n m
      (if i.target ≤ k ∧ w.requested n = true then .bail .safepointRequested
        else .goto i.target fr) := by
  obtain ⟨hgo, hleave⟩ := hat.left.poll w hsmall hag hW
  have hw : writtenAfter f i W = W := by simp [writtenAfter, cellWrite, hop]
  have hp : pollsAfter k i n = if i.target ≤ k then n + 1 else n := by
    simp [pollsAfter, pollsAt, hop]
  split
  · rename_i hbail
    exact hleave hbail
  · rename_i hbail
    obtain ⟨m', hrun, hag'⟩ := hgo hbail
    have hjump := hat.right.jump w f m'
    have hend : ((off + extent Op.size (backwardPoll f k i.target) : Nat) : Int) + 5 + disp =
        offsetOf f i.target := by
      rw [hnext, extent_append, extent_cons, extent_nil, Op.size] at hdisp
      push_cast at hdisp ⊢
      omega
    rw [hend] at hjump
    refine ⟨m', hrun.trans hjump, ?_⟩
    rw [hw, hp]
    exact hag'

theorem simulates_branch {onZero : Bool} {disp : Int}
    (hat : Located code off (backwardPoll f k i.target ++
      [loadSlot 0 i.left, .test 0, .jcc onZero disp]))
    (hnext : next = off + extent Op.size (backwardPoll f k i.target ++
      [loadSlot 0 i.left, .test 0, .jcc onZero disp]))
    (hsmall : extent Op.size code < 2 ^ 31) (hag : Agrees f W fr n m)
    (hW : ∀ c ∈ W, c < f.registerCount + f.localCount)
    (hop : i.opcode = .branchTrue ∨ i.opcode = .branchFalse) (hl : i.left < f.registerCount)
    (hread : i.left ∈ W) (hdisp : (next : Int) + disp = offsetOf f i.target) :
    Simulates w f code k off next i W fr n m
      (if i.target ≤ k ∧ w.requested n = true then .bail .safepointRequested
        else if (fr.registers i.left == 0) = onZero then .goto i.target fr else .next fr) := by
  obtain ⟨hgo, hleave⟩ := hat.left.poll w hsmall hag hW
  have hw : writtenAfter f i W = W := by
    rcases hop with hop | hop <;> simp [writtenAfter, cellWrite, hop]
  have hp : pollsAfter k i n = if i.target ≤ k then n + 1 else n := by
    rcases hop with hop | hop <;> simp [pollsAfter, pollsAt, hop]
  split
  · rename_i hbail
    exact hleave hbail
  · rename_i hbail
    obtain ⟨m₁, hrun, hag₁⟩ := hgo hbail
    have hcell := hag₁.register hl hread
    have hexec : execAll w f [loadSlot 0 i.left, .test 0] m₁ =
        some ((m₁.set 0 (.word (fr.registers i.left))).compare (fr.registers i.left) 0) := by
      simp [execAll_cons, loadSlot, exec, hcell]
    have hsplit : [loadSlot 0 i.left, .test 0, .jcc onZero disp] =
        [loadSlot 0 i.left, .test 0] ++ ([.jcc onZero disp] : List Op) := rfl
    have hright := hat.right
    rw [hsplit] at hright
    have hbranch := hright.right.branch w f (m := (m₁.set 0 (.word (fr.registers i.left))).compare
      (fr.registers i.left) 0) rfl
    have hall := (hrun.trans (hright.left.straight hexec)).trans hbranch
    have hs : Scratched m₁
        ((m₁.set 0 (.word (fr.registers i.left))).compare (fr.registers i.left) 0) :=
      (Scratched.set m₁ (by omega) _).trans (.setFlags _ _)
    have hag₂ := hag₁.scratched hs
    rw [← hp, ← hw] at hag₂
    have hplace : ((off + extent Op.size (backwardPoll f k i.target) +
        extent Op.size [loadSlot 0 i.left, .test 0] : Nat) : Int) + 6 = next := by
      rw [hnext, hsplit, extent_append, extent_append, extent_cons Op.size (.jcc onZero disp),
        extent_nil, Op.size]
      push_cast
      omega
    rw [hplace] at hall
    split
    · rename_i hz
      rw [if_pos hz, hdisp] at hall
      exact ⟨_, hall, hag₂⟩
    · rename_i hz
      rw [if_neg hz, Int.add_zero] at hall
      exact ⟨_, hall, hag₂⟩

theorem simulates_return
    (hat : Located code off [loadSlot 0 i.left, .storeAt 10 0, .xorEax, .leaveRet])
    (hag : Agrees f W fr n m) (hl : i.left < f.registerCount) (hread : i.left ∈ W) :
    Simulates w f code k off next i W fr n m (.done (fr.registers i.left)) := by
  have hcell := hag.register hl hread
  have hsplit : [loadSlot 0 i.left, .storeAt 10 0, .xorEax, .leaveRet] =
      [loadSlot 0 i.left, .storeAt 10 0, .xorEax] ++ ([.leaveRet] : List Op) := rfl
  rw [hsplit] at hat
  have hexec : execAll w f [loadSlot 0 i.left, .storeAt 10 0, .xorEax] m =
      some ((({ m.set 0 (.word (fr.registers i.left)) with
        result := fr.registers i.left } : Machine).set 0 (.word 0)).setFlags none) := by
    simp [execAll_cons, loadSlot, exec, Machine.word, hcell, hag.result]
  exact ⟨_, ⟨_, hat.left.straight hexec, hat.right.fetch⟩, by simp, rfl⟩

end

end TurboJS.Baseline
