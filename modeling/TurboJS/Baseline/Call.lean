import TurboJS.Baseline.Simulation

namespace TurboJS.Baseline

open IR Foundation

/-- Code that goes on with scratch registers changed, or leaves at `k` as a failed call. -/
def Guards (w : World) (f : Function) (code : List Op) (k off next : Nat) (m : Machine)
    (passes : Prop) (after : Machine → Prop) : Prop :=
  (passes → ∃ m', Executes w f code (off, m) ((next : Nat), m') ∧ Scratched m m' ∧ after m') ∧
    (¬ passes → ∃ m₁ m', Leaves w f code (off, m) m' ∧ Scratched m m₁ ∧ LeavesAt f k 5 m₁ m')

section

variable {w : World} {f : Function} {code ops : List Op} {off k : Nat} {m m' : Machine}
  {passes : Prop}

theorem Located.guards {onEqual : Bool} {flags : Flags}
    (h : Located code off (ops ++ skipIf onEqual (returnBailoutAt f k 5))) (passes : Prop)
    (hsmall : extent Op.size code < 2 ^ 31) (h9 : m.gpr 9 = .pointer .deopt)
    (he : execAll w f ops m = some m') (hs : Scratched m m') (hf : m'.flags = some flags)
    (hz : flags.zero = onEqual ↔ passes) :
    Guards w f code k off (off + extent Op.size (ops ++ skipIf onEqual (returnBailoutAt f k 5))) m
      passes (· = m') := by
  have hrun := h.left.straight he
  obtain ⟨hgo, hleave⟩ := h.right.guard w hsmall hf ((hs.gpr 9 (by omega)).trans h9)
  constructor
  · intro hpass
    refine ⟨m', ?_, hs, rfl⟩
    have hall := hrun.trans (hgo (hz.mpr hpass))
    rw [Nat.add_assoc, ← extent_append] at hall
    exact hall
  · intro hfail
    obtain ⟨m'', hleaves, hl⟩ := hleave (fun he => hfail (hz.mp he))
    exact ⟨m', m'', hleaves.after hrun, hs, hl⟩

theorem Guards.andThen {next last : Nat} {passes' : Prop} {after after' : Machine → Prop}
    (h : Guards w f code k off next m passes after)
    (h' : ∀ m', passes → Scratched m m' → after m' →
      Guards w f code k next last m' passes' after') :
    Guards w f code k off last m (passes ∧ passes') after' := by
  constructor
  · intro hboth
    obtain ⟨m₁, hrun, hs, ha⟩ := h.1 hboth.1
    obtain ⟨m₂, hrun', hs', ha'⟩ := (h' m₁ hboth.1 hs ha).1 hboth.2
    exact ⟨m₂, hrun.trans hrun', hs.trans hs', ha'⟩
  · intro hnot
    by_cases hp : passes
    · obtain ⟨m₁, hrun, hs, ha⟩ := h.1 hp
      obtain ⟨m₂, m₃, hleaves, hs', hl⟩ := (h' m₁ hp hs ha).2 (fun hp' => hnot ⟨hp, hp'⟩)
      exact ⟨m₂, m₃, hleaves.after hrun, hs.trans hs', hl⟩
    · exact h.2 hp

theorem Guards.of_iff {next : Nat} {passes' : Prop} {after after' : Machine → Prop}
    (h : Guards w f code k off next m passes after) (hiff : passes ↔ passes')
    (hafter : ∀ m', passes → after m' → after' m') :
    Guards w f code k off next m passes' after' := by
  constructor
  · intro hp
    obtain ⟨m', hrun, hs, ha⟩ := h.1 (hiff.mpr hp)
    exact ⟨m', hrun, hs, hafter m' (hiff.mpr hp) ha⟩
  · intro hp
    exact h.2 (fun h' => hp (hiff.mp h'))

variable {site : ClutchCallSite}

theorem Located.receiverObject {slot : Nat} {receiver : Word}
    (h : Located code off ([loadSlot 2 slot, .test 2] ++ skipIf false (returnBailoutAt f k 5)))
    (w : World) (hsmall : extent Op.size code < 2 ^ 31) (h9 : m.gpr 9 = .pointer .deopt)
    (hr : m.frame (slotDisp slot) = receiver) :
    Guards w f code k off (off + extent Op.size ([loadSlot 2 slot, .test 2] ++
        skipIf false (returnBailoutAt f k 5))) m
      (receiver ≠ 0) (· = (m.set 2 (.word receiver)).compare receiver 0) := by
  have hexec : execAll w f [loadSlot 2 slot, .test 2] m =
      some ((m.set 2 (.word receiver)).compare receiver 0) := by
    simp [execAll_cons, loadSlot, exec, hr]
  have hs : Scratched m ((m.set 2 (.word receiver)).compare receiver 0) :=
    (Scratched.set m (by omega) _).trans (.setFlags _ _)
  exact h.guards _ hsmall h9 hexec hs rfl (by simp)

theorem Located.receiverShape {offset : Nat} {shape receiver : Word}
    (h : Located code off (([.loadBase 6 2 (.objectWord offset), .movImm64 7 shape,
      .cmp 6 7] : List Op) ++
      skipIf true (returnBailoutAt f k 5)))
    (w : World) (hsmall : extent Op.size code < 2 ^ 31) (h9 : m.gpr 9 = .pointer .deopt)
    (h2 : m.gpr 2 = .word receiver) :
    Guards w f code k off (off + extent Op.size
        (([.loadBase 6 2 (.objectWord offset), .movImm64 7 shape, .cmp 6 7] : List Op) ++
          skipIf true (returnBailoutAt f k 5))) m
      (w.heap receiver offset = shape) (fun _ => True) := by
  have hexec : execAll w f [.loadBase 6 2 (.objectWord offset), .movImm64 7 shape, .cmp 6 7] m =
      some (((m.set 6 (.word (w.heap receiver offset))).set 7 (.word shape)).compare
        (w.heap receiver offset) shape) := by
    simp [execAll_cons, exec, Machine.word, loadField, h2]
  have hs : Scratched m (((m.set 6 (.word (w.heap receiver offset))).set 7 (.word shape)).compare
      (w.heap receiver offset) shape) :=
    ((Scratched.set m (by omega) _).trans (.set _ (by omega) _)).trans (.setFlags _ _)
  have hguards := h.guards (w.heap receiver offset = shape) hsmall h9 hexec hs rfl (by simp)
  exact hguards.of_iff Iff.rfl (fun _ _ _ => trivial)

theorem Located.receiver (h : Located code off (emitReceiverGuard f k site)) (w : World)
    (hsmall : extent Op.size code < 2 ^ 31) (h9 : m.gpr 9 = .pointer .deopt) {receiver : Word}
    (hreceiver : site.hasReceiverShapeGuard = true →
      m.frame (slotDisp site.receiverRegister) = receiver) :
    Guards w f code k off (off + extent Op.size (emitReceiverGuard f k site)) m
      (site.hasReceiverShapeGuard = true →
        receiver ≠ 0 ∧ w.heap receiver site.receiverShapeOffset = site.receiverShapeIdentity)
      (fun _ => True) := by
  unfold emitReceiverGuard at h ⊢
  split
  case isFalse hno =>
    constructor
    · intro _
      exact ⟨m, .refl _, .refl m, trivial⟩
    · intro hnot
      exact absurd (fun hyes => absurd hyes hno) hnot
  case isTrue hyes =>
    rw [if_pos hyes] at h
    have hboth := (h.left.receiverObject w hsmall h9 (hreceiver hyes)).andThen
      (fun m₁ _ hs₁ hm₁ => h.right.receiverShape w hsmall ((hs₁.gpr 9 (by omega)).trans h9)
        (show m₁.gpr 2 = .word receiver by simp [hm₁, Machine.compare]))
    rw [Nat.add_assoc, ← extent_append] at hboth
    refine hboth.of_iff ?_ (fun _ _ _ => trivial)
    exact ⟨fun hp _ => hp, fun hp => hp hyes⟩

def AtSite (k : Nat) (m : Machine) : Prop :=
  m.gpr 0 = .pointer (.site k) ∧ m.gpr 1 = .pointer (.handle k)

theorem Located.siteTarget
    (h : Located code off (([.movSite 0 k, .loadBase 1 0 .siteTarget, .test 1] : List Op) ++
      skipIf false (returnBailoutAt f k 5)))
    (w : World) (hsmall : extent Op.size code < 2 ^ 31) (h9 : m.gpr 9 = .pointer .deopt)
    (hsite : siteAt f k = some site) :
    Guards w f code k off (off + extent Op.size
        (([.movSite 0 k, .loadBase 1 0 .siteTarget, .test 1] : List Op) ++
          skipIf false (returnBailoutAt f k 5))) m
      (site.target.isSome = true) (AtSite k) := by
  cases ht : site.target with
  | none =>
    have hexec : execAll w f [.movSite 0 k, .loadBase 1 0 .siteTarget, .test 1] m =
        some (((m.set 0 (.pointer (.site k))).set 1 (.word 0)).compare 0 0) := by
      simp [execAll_cons, exec, loadField, hsite, ht]
    have hs : Scratched m (((m.set 0 (.pointer (.site k))).set 1 (.word 0)).compare 0 0) :=
      ((Scratched.set m (by omega) _).trans (.set _ (by omega) _)).trans (.setFlags _ _)
    have hguards := h.guards False hsmall h9 hexec hs rfl (by simp)
    exact hguards.of_iff (by simp) (fun _ hp _ => hp.elim)
  | some handle =>
    have hexec : execAll w f [.movSite 0 k, .loadBase 1 0 .siteTarget, .test 1] m =
        some (((m.set 0 (.pointer (.site k))).set 1 (.pointer (.handle k))).setFlags
          (some ⟨false, false⟩)) := by
      simp [execAll_cons, exec, loadField, hsite, ht]
    have hs : Scratched m (((m.set 0 (.pointer (.site k))).set 1 (.pointer (.handle k))).setFlags
        (some ⟨false, false⟩)) :=
      ((Scratched.set m (by omega) _).trans (.set _ (by omega) _)).trans (.setFlags _ _)
    have hguards := h.guards True hsmall h9 hexec hs rfl (by simp)
    refine hguards.of_iff (by simp) ?_
    rintro m' - rfl
    exact ⟨by simp, by simp⟩

theorem Located.siteGeneration {handle : NativeEntryHandle}
    (h : Located code off (([.loadBase 2 0 .siteGeneration, .loadBase 6 1 .handleGeneration,
      .cmp 2 6] : List Op) ++ skipIf true (returnBailoutAt f k 5)))
    (w : World) (hsmall : extent Op.size code < 2 ^ 31) (h9 : m.gpr 9 = .pointer .deopt)
    (hsite : siteAt f k = some site) (ht : site.target = some handle) (hat : AtSite k m) :
    Guards w f code k off (off + extent Op.size
        (([.loadBase 2 0 .siteGeneration, .loadBase 6 1 .handleGeneration, .cmp 2 6] : List Op) ++
          skipIf true (returnBailoutAt f k 5))) m
      (BitVec.ofNat 64 site.expectedGeneration = BitVec.ofNat 64 handle.generation) (AtSite k) := by
  obtain ⟨h0, h1⟩ := hat
  have hexec : execAll w f [.loadBase 2 0 .siteGeneration, .loadBase 6 1 .handleGeneration,
      .cmp 2 6] m =
      some (((m.set 2 (.word (BitVec.ofNat 64 site.expectedGeneration))).set 6
        (.word (BitVec.ofNat 64 handle.generation))).compare
          (BitVec.ofNat 64 site.expectedGeneration) (BitVec.ofNat 64 handle.generation)) := by
    simp [execAll_cons, exec, Machine.word, loadField, h0, h1, hsite, ht]
  have hs : Scratched m (((m.set 2 (.word (BitVec.ofNat 64 site.expectedGeneration))).set 6
      (.word (BitVec.ofNat 64 handle.generation))).compare
        (BitVec.ofNat 64 site.expectedGeneration) (BitVec.ofNat 64 handle.generation)) :=
    ((Scratched.set m (by omega) _).trans (.set _ (by omega) _)).trans (.setFlags _ _)
  have hguards := h.guards (BitVec.ofNat 64 site.expectedGeneration =
    BitVec.ofNat 64 handle.generation) hsmall h9 hexec hs rfl (by simp)
  refine hguards.of_iff Iff.rfl ?_
  rintro m' - rfl
  exact ⟨by simpa [Machine.compare] using h0, by simpa [Machine.compare] using h1⟩

theorem kindByte (kind : EntryKind) (x : Word) :
    (kindNumber kind + 256 * x) &&& 255 = kindNumber kind := by
  have hand : ∀ y : Word, (y &&& 255).toNat = y.toNat % 256 := by
    intro y
    rw [BitVec.toNat_and]
    exact Nat.and_two_pow_sub_one_eq_mod y.toNat 8
  apply BitVec.eq_of_toNat_eq
  rw [hand, BitVec.toNat_add, BitVec.toNat_mul]
  have h256 : (256 : Word).toNat = 256 := rfl
  rw [h256]
  cases kind <;> simp only [kindNumber] <;> simp

theorem kindNumber_inj {a b : EntryKind} : kindNumber a = kindNumber b ↔ a = b := by
  cases a <;> cases b <;> decide

theorem Located.siteKind {handle : NativeEntryHandle}
    (h : Located code off (([.loadBase 2 0 .siteKind, .movzxEdxDl, .loadBase 6 1 .handleKind,
      .movzxEsiSil, .cmp 2 6] : List Op) ++ skipIf true (returnBailoutAt f k 5)))
    (w : World) (hsmall : extent Op.size code < 2 ^ 31) (h9 : m.gpr 9 = .pointer .deopt)
    (hsite : siteAt f k = some site) (ht : site.target = some handle) (hat : AtSite k m) :
    Guards w f code k off (off + extent Op.size
        (([.loadBase 2 0 .siteKind, .movzxEdxDl, .loadBase 6 1 .handleKind, .movzxEsiSil,
          .cmp 2 6] : List Op) ++ skipIf true (returnBailoutAt f k 5))) m
      (site.expectedKind = handle.kind) (AtSite k) := by
  obtain ⟨h0, h1⟩ := hat
  have hexec : ∃ m', execAll w f [.loadBase 2 0 .siteKind, .movzxEdxDl, .loadBase 6 1 .handleKind,
      .movzxEsiSil, .cmp 2 6] m = some (m'.compare (kindNumber site.expectedKind)
        (kindNumber handle.kind)) ∧ Scratched m m' ∧ m'.gpr 0 = m.gpr 0 ∧ m'.gpr 1 = m.gpr 1 := by
    refine ⟨(((m.set 2 (.word (kindNumber site.expectedKind + 256 * w.beside k))).set 2
      (.word (kindNumber site.expectedKind))).set 6
        (.word (kindNumber handle.kind + 256 * w.beside k))).set 6
          (.word (kindNumber handle.kind)), ?_, ?_, by simp, by simp⟩
    · simp only [execAll_cons, exec, Machine.word, loadField, h0, h1, hsite, ht,
        Option.bind_eq_bind, Option.bind_some, Machine.set_gpr, Function.update_self,
        Function.update_of_ne (show (1 : Nat) ≠ 2 by decide),
        Function.update_of_ne (show (2 : Nat) ≠ 6 by decide), kindByte, execAll_nil]
    · exact (((Scratched.set m (by omega) _).trans (.set _ (by omega) _)).trans
        (.set _ (by omega) _)).trans (.set _ (by omega) _)
  obtain ⟨m', hexec, hs, hg0, hg1⟩ := hexec
  have hguards := h.guards (site.expectedKind = handle.kind) hsmall h9 hexec
    (hs.trans (.setFlags _ _)) rfl (by simp [kindNumber_inj])
  refine hguards.of_iff Iff.rfl ?_
  rintro m'' - rfl
  exact ⟨hg0.trans h0, hg1.trans h1⟩

theorem Located.siteFunction {handle : NativeEntryHandle}
    (h : Located code off (([.loadBase 0 1 .handleFunction, .test 0] : List Op) ++
      skipIf false (returnBailoutAt f k 5)))
    (w : World) (hsmall : extent Op.size code < 2 ^ 31) (h9 : m.gpr 9 = .pointer .deopt)
    (hsite : siteAt f k = some site) (ht : site.target = some handle) (hat : AtSite k m) :
    Guards w f code k off (off + extent Op.size
        (([.loadBase 0 1 .handleFunction, .test 0] : List Op) ++
          skipIf false (returnBailoutAt f k 5))) m
      (handle.function.isSome = true)
      (fun m' => ∃ id, handle.function = some id ∧ m'.gpr 0 = .pointer (.native id)) := by
  obtain ⟨-, h1⟩ := hat
  cases hfun : handle.function with
  | none =>
    have hexec : execAll w f [.loadBase 0 1 .handleFunction, .test 0] m =
        some ((m.set 0 (.word 0)).compare 0 0) := by
      simp [execAll_cons, exec, loadField, h1, hsite, ht, hfun]
    have hs : Scratched m ((m.set 0 (.word 0)).compare 0 0) :=
      (Scratched.set m (by omega) _).trans (.setFlags _ _)
    have hguards := h.guards False hsmall h9 hexec hs rfl (by simp)
    exact hguards.of_iff (by simp) (fun _ hp _ => hp.elim)
  | some id =>
    have hexec : execAll w f [.loadBase 0 1 .handleFunction, .test 0] m =
        some ((m.set 0 (.pointer (.native id))).setFlags (some ⟨false, false⟩)) := by
      simp [execAll_cons, exec, loadField, h1, hsite, ht, hfun]
    have hs : Scratched m ((m.set 0 (.pointer (.native id))).setFlags (some ⟨false, false⟩)) :=
      (Scratched.set m (by omega) _).trans (.setFlags _ _)
    have hguards := h.guards True hsmall h9 hexec hs rfl (by simp)
    refine hguards.of_iff (by simp) ?_
    rintro m' - rfl
    exact ⟨id, rfl, by simp⟩

theorem Located.published (h : Located code off (emitPublicationGuards f k)) (w : World)
    (hsmall : extent Op.size code < 2 ^ 31) (h9 : m.gpr 9 = .pointer .deopt)
    (hsite : siteAt f k = some site) :
    Guards w f code k off (off + extent Op.size (emitPublicationGuards f k)) m
      ((publishedEntry site).isSome = true)
      (fun m' => ∃ id, publishedEntry site = some id ∧ m'.gpr 0 = .pointer (.native id)) := by
  unfold emitPublicationGuards at h ⊢
  have htarget := h.left.left.left.siteTarget w hsmall h9 hsite
  cases ht : site.target with
  | none =>
    constructor
    · intro hsome
      simp [publishedEntry, ht] at hsome
    · intro _
      exact htarget.2 (by simp [ht])
  | some handle =>
    have hgeneration := htarget.andThen fun m₁ _ hs₁ hat₁ =>
      h.left.left.right.siteGeneration w hsmall ((hs₁.gpr 9 (by omega)).trans h9) hsite ht hat₁
    have hkind := hgeneration.andThen fun m₁ _ hs₁ hat₁ => by
      have hat := h.left.right
      rw [extent_append, ← Nat.add_assoc] at hat
      exact hat.siteKind w hsmall ((hs₁.gpr 9 (by omega)).trans h9) hsite ht hat₁
    have hfunction := hkind.andThen fun m₁ _ hs₁ hat₁ => by
      have hat := h.right
      rw [extent_append, extent_append, ← Nat.add_assoc, ← Nat.add_assoc] at hat
      exact hat.siteFunction w hsmall ((hs₁.gpr 9 (by omega)).trans h9) hsite ht hat₁
    rw [extent_append, extent_append, extent_append, ← Nat.add_assoc, ← Nat.add_assoc,
      ← Nat.add_assoc]
    refine hfunction.of_iff ?_ ?_
    · simp only [ht, Option.isSome_some, true_and, publishedEntry]
      by_cases hgen : BitVec.ofNat 64 site.expectedGeneration = BitVec.ofNat 64 handle.generation
      · by_cases hk : site.expectedKind = handle.kind <;> simp [hgen, hk]
      · simp [hgen]
    · rintro m' ⟨⟨⟨-, hgen⟩, hk⟩, -⟩ ⟨id, hid, h0⟩
      refine ⟨id, ?_, h0⟩
      simp [publishedEntry, ht, hgen, hk, hid]

theorem callArgDisp_eq {a : Nat} (ha : a < clutchMaxArguments) :
    callArgDisp f a = slotDisp (f.registerCount + f.localCount + (clutchMaxArguments - 1 - a)) := by
  simp only [clutchMaxArguments] at ha
  simp only [callArgDisp, slotDisp, clutchMaxArguments]
  omega

/-- The frame after the arguments from `j` on have been passed. -/
structure Passes (f : Function) (sources : List Nat) (j : Nat) (m m' : Machine) : Prop where
  gpr : ∀ r, r ≠ 2 → m'.gpr r = m.gpr r
  polls : m'.polls = m.polls
  cells : ∀ c, c < f.registerCount + f.localCount → m'.frame (slotDisp c) = m.frame (slotDisp c)
  earlier : ∀ a, a < j → m'.frame (callArgDisp f a) = m.frame (callArgDisp f a)
  passed : ∀ t (ht : t < sources.length),
    m'.frame (callArgDisp f (j + t)) = m.frame (slotDisp sources[t])

theorem execAll_passArguments (w : World) {sources : List Nat} {j : Nat}
    (hj : j + sources.length ≤ clutchMaxArguments)
    (hsources : ∀ c ∈ sources, c < f.registerCount + f.localCount) (m : Machine) :
    ∃ m', execAll w f ((sources.zipIdx j).flatMap (passArgument f)) m = some m' ∧
      Passes f sources j m m' := by
  induction sources generalizing j m with
  | nil =>
    refine ⟨m, rfl, ⟨fun _ _ => rfl, rfl, fun _ _ => rfl, fun _ _ => rfl, ?_⟩⟩
    intro t ht
    cases ht
  | cons source sources ih =>
    have hlt : j < clutchMaxArguments := by
      rw [List.length_cons] at hj
      omega
    have hsource := hsources source List.mem_cons_self
    have hfirst : execAll w f (passArgument f (source, j)) m =
        some ((m.set 2 (.word (m.frame (slotDisp source)))).setFrame (callArgDisp f j)
          (m.frame (slotDisp source))) := by
      simp [passArgument, execAll_cons, loadSlot, exec, Machine.word]
    have hrest : j + 1 + sources.length ≤ clutchMaxArguments := by
      rw [List.length_cons] at hj
      omega
    obtain ⟨m', hm', hp⟩ := ih hrest (fun c hc => hsources c (List.mem_cons_of_mem _ hc))
      ((m.set 2 (.word (m.frame (slotDisp source)))).setFrame (callArgDisp f j)
        (m.frame (slotDisp source)))
    have hcells : ∀ c, c < f.registerCount + f.localCount → slotDisp c ≠ callArgDisp f j := by
      intro c hc
      rw [callArgDisp_eq hlt, ne_eq, slotDisp_inj]
      omega
    refine ⟨m', ?_, ?_, hp.polls, ?_, ?_, ?_⟩
    · rw [List.zipIdx_cons, List.flatMap_cons, execAll_append, hfirst]
      exact hm'
    · intro r hr
      rw [hp.gpr r hr]
      simp [Function.update_of_ne hr]
    · intro c hc
      rw [hp.cells c hc, Machine.setFrame_frame, Function.update_of_ne (hcells c hc)]
      rfl
    · intro a ha
      have hne : callArgDisp f a ≠ callArgDisp f j := by
        simp only [callArgDisp]
        omega
      rw [hp.earlier a (by omega), Machine.setFrame_frame, Function.update_of_ne hne]
      rfl
    · intro t ht
      cases t with
      | zero =>
        rw [Nat.add_zero, hp.earlier j (by omega), Machine.setFrame_frame, Function.update_self]
        rfl
      | succ t =>
        have ht' : t < sources.length := by simpa using ht
        have hmem : sources[t] < f.registerCount + f.localCount :=
          hsources _ (List.mem_cons_of_mem _ (List.getElem_mem ht'))
        have hpassed := hp.passed t ht'
        rw [Machine.setFrame_frame, Function.update_of_ne (hcells _ hmem)] at hpassed
        rw [show j + (t + 1) = j + 1 + t by omega, hpassed, List.getElem_cons_succ]
        rfl

def callSetup (f : Function) (destination : Nat) : List Op :=
  [.push 8, .push 9, .push 10, .push 11, .leaFrame 7 (callArgDisp f 0),
    .leaFrame 6 (slotDisp destination), .loadBase 2 0 .nativeDeoptValues,
    .loadBase 1 0 .nativeSafepoint, .loadBase 0 0 .nativeCode]

def callRestore : List Op := [.pop 11, .pop 10, .pop 9, .pop 8, .testEax]

theorem execAll_callSetup (w : World) (destination : Nat) {id : Nat}
    (h0 : m.gpr 0 = .pointer (.native id)) :
    ∃ m', execAll w f (callSetup f destination) m = some m' ∧ m'.frame = m.frame ∧
      m'.polls = m.polls ∧ (∀ r, 8 ≤ r → m'.gpr r = m.gpr r) ∧
      m'.stack = m.gpr 11 :: m.gpr 10 :: m.gpr 9 :: m.gpr 8 :: m.stack ∧
      m'.gpr 0 = .pointer (.code id) ∧ m'.gpr 7 = .pointer (.frame (callArgDisp f 0)) ∧
      m'.gpr 6 = .pointer (.frame (slotDisp destination)) := by
  have hexec : execAll w f (callSetup f destination) m =
      some (((((({ m with stack := m.gpr 11 :: m.gpr 10 :: m.gpr 9 :: m.gpr 8 :: m.stack } :
        Machine).set 7 (.pointer (.frame (callArgDisp f 0)))).set 6
          (.pointer (.frame (slotDisp destination)))).set 2 (.pointer .callee)).set 1
            (.pointer .callee)).set 0 (.pointer (.code id))) := by
    simp [callSetup, execAll_cons, exec, loadField, h0]
  refine ⟨_, hexec, rfl, rfl, ?_, rfl, by simp, by simp, by simp⟩
  intro r hr
  simp [show r ≠ 0 by omega, show r ≠ 1 by omega, show r ≠ 2 by omega, show r ≠ 6 by omega,
    show r ≠ 7 by omega]

theorem execAll_callRestore (w : World) {status : Word} {g11 g10 g9 g8 : Value}
    {rest : List Value} (h0 : m.gpr 0 = .word status)
    (hstack : m.stack = g11 :: g10 :: g9 :: g8 :: rest) :
    ∃ m', execAll w f callRestore m = some m' ∧ m'.frame = m.frame ∧ m'.polls = m.polls ∧
      (∀ r, 12 ≤ r → m'.gpr r = m.gpr r) ∧ m'.gpr 11 = g11 ∧ m'.gpr 10 = g10 ∧ m'.gpr 9 = g9 ∧
      m'.gpr 8 = g8 ∧
      m'.flags = some ⟨status.setWidth 32 == 0, (status.setWidth 32).slt 0⟩ := by
  have hexec : execAll w f callRestore m =
      some (({ (((m.set 11 g11).set 10 g10).set 9 g9).set 8 g8 with stack := rest } :
        Machine).setFlags (some ⟨status.setWidth 32 == 0, (status.setWidth 32).slt 0⟩)) := by
    simp [callRestore, execAll_cons, exec, Machine.word, hstack, h0, Machine.set]
  refine ⟨_, hexec, rfl, rfl, ?_, by simp, by simp, by simp, by simp, rfl⟩
  intro r hr
  simp [show r ≠ 8 by omega, show r ≠ 9 by omega, show r ≠ 10 by omega, show r ≠ 11 by omega]

theorem eight_or_more {r : Nat} (h : 8 ≤ r) : r = 8 ∨ r = 9 ∨ r = 10 ∨ r = 11 ∨ 12 ≤ r := by
  omega

theorem execAll_call (w : World) (destination : Nat) {id : Nat}
    (h0 : m.gpr 0 = .pointer (.native id)) :
    ∃ m' flags, execAll w f (callSetup f destination ++ .callReg 0 :: callRestore) m = some m' ∧
      m'.flags = some flags ∧ (∀ r, 8 ≤ r → m'.gpr r = m.gpr r) ∧ m'.polls = m.polls ∧
      match w.env.native id (calleeArguments w m id (callArgDisp f 0)) with
      | some v => flags.zero = true ∧ m'.frame = Function.update m.frame (slotDisp destination) v
      | none => flags.zero = false ∧ m'.frame = m.frame := by
  obtain ⟨m₁, hsetup, hframe₁, hpolls₁, hgpr₁, hstack₁, h0₁, h7₁, h6₁⟩ :=
    execAll_callSetup w (f := f) destination h0
  have hargs : calleeArguments w m₁ id (callArgDisp f 0) =
      calleeArguments w m id (callArgDisp f 0) := by
    simp only [calleeArguments, hframe₁]
  have hcall : exec w f (.callReg 0) m₁ = callCode w m₁ := by
    simp [exec]
  simp only [callCode, h0₁, h7₁, h6₁, hargs] at hcall
  have hrestored : ∀ m₂ status, exec w f (.callReg 0) m₁ = some (Machine.clobber m₂ w status) →
      m₂.stack = m₁.stack → m₂.polls = m₁.polls → (∀ r, 8 ≤ r → m₂.gpr r = m₁.gpr r) →
      ∃ m', execAll w f (callSetup f destination ++ .callReg 0 :: callRestore) m = some m' ∧
        m'.flags = some ⟨status.setWidth 32 == 0, (status.setWidth 32).slt 0⟩ ∧
        (∀ r, 8 ≤ r → m'.gpr r = m.gpr r) ∧ m'.polls = m.polls ∧ m'.frame = m₂.frame := by
    intro m₂ status hexec hstack₂ hpolls₂ hgpr₂
    obtain ⟨m', hm', hframe', hpolls', hhigh, h11, h10, h9, h8, hflags⟩ :=
      execAll_callRestore (f := f) (m := m₂.clobber w status) w rfl
        (show (m₂.clobber w status).stack = _ from hstack₂.trans hstack₁)
    refine ⟨m', ?_, hflags, ?_, hpolls'.trans (hpolls₂.trans hpolls₁), hframe'⟩
    · rw [execAll_append, hsetup, Option.bind_some, execAll_cons, hexec, Option.bind_some, hm']
    · intro r hr
      rcases eight_or_more hr with rfl | rfl | rfl | rfl | hr
      · exact h8
      · exact h9
      · exact h10
      · exact h11
      · rw [hhigh r hr]
        have hsame : (m₂.clobber w status).gpr r = m₂.gpr r := by
          simp only [Machine.clobber]
          rw [if_neg (by omega), if_neg (by omega)]
        rw [hsame, hgpr₂ r (by omega), hgpr₁ r (by omega)]
  cases hnative : w.env.native id (calleeArguments w m id (callArgDisp f 0)) with
  | none =>
    rw [hnative] at hcall
    obtain ⟨m', hm', hflags, hgpr, hpolls, hframe⟩ := hrestored m₁ 1 hcall rfl rfl (fun _ _ => rfl)
    exact ⟨m', _, hm', hflags, hgpr, hpolls, by decide, hframe.trans hframe₁⟩
  | some v =>
    rw [hnative] at hcall
    obtain ⟨m', hm', hflags, hgpr, hpolls, hframe⟩ :=
      hrestored (m₁.setFrame (slotDisp destination) v) 0 hcall rfl rfl (fun _ _ => rfl)
    refine ⟨m', _, hm', hflags, hgpr, hpolls, by decide, ?_⟩
    rw [hframe, Machine.setFrame_frame, hframe₁]

end

end TurboJS.Baseline
