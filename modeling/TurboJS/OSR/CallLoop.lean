import TurboJS.Bytecode.Calls
import TurboJS.OSR.Code
import TurboJS.OSR.ScalarLoop

namespace TurboJS.OSR
open Bytecode Foundation

/-! Counted loops whose bodies make calls: the chunked runner, and the interpreted loop as a family
of frames, one for each value of the induction variable. -/

/-- The part of `TurboJSScalarLoopOSRProgram` that the chunked modes share. -/
structure CountedLoop where
  induction : Nat
  limit : Int
  limitSlot : Option Slot
  accumulatorSlot : Slot
  loopHeader : Nat
  resume : Nat
  deriving DecidableEq, Repr

def LoopHeader.counted (header : LoopHeader) (b : FunctionBytecode) (accumulator : Slot)
    (target : Nat) : Option CountedLoop :=
  if 0 ≤ header.resume ∧ header.resume ≤ b.code.length ∧ header.induction < b.varCount then
    some ⟨header.induction, header.limit, header.limitSlot, accumulator, target,
      header.resume.toNat⟩
  else none

def CountedLoop.runtimeLimit (p : CountedLoop) (slots : Slot → JSValue) : Option Int :=
  match p.limitSlot with
  | none => some p.limit
  | some slot =>
    match slots slot with
    | .number n => if 0 ≤ n ∧ n ≤ int32Max then some n else none
    | _ => none

def chunkLength : Int := 16384

def chunkLimit (i limit : Int) : Int := if limit - i > chunkLength then i + chunkLength else limit

/-- An entry of the runner with the write-back of its caller; `kernel` is what the mode does from
`i` to the chunk limit, and `none` is a bailout. -/
def CountedLoop.runChunk (p : CountedLoop) (b : FunctionBytecode)
    (kernel : Int → Int → BitVec 32 → Option (BitVec 32)) (slots : Slot → JSValue) :
    Option OSRExit :=
  let frame := captureFrame b slots
  let index := frameLocal b ⟨.local, p.induction⟩
  if index ≥ localCount b then none
  else do
    let i ← intValue (frame.locals index)
    let limit ← p.runtimeLimit slots
    if i < 0 ∨ i > limit then none
    else
      let acc ← intValue (slots p.accumulatorSlot)
      let stop := chunkLimit i limit
      let value ← kernel i stop (toBits acc)
      let frame ← frame.store b p.accumulatorSlot value
      let frame := { frame with locals := Function.update frame.locals index (.number stop) }
      some ⟨frame.writeBack b, if stop < limit then p.loopHeader else p.resume⟩

inductive Entries (run : (Slot → JSValue) → Option OSRExit) (header : Nat) :
    (Slot → JSValue) → OSRExit → Prop where
  | last {slots : Slot → JSValue} {out : OSRExit} (hrun : run slots = some out) :
      Entries run header slots out
  | next {slots : Slot → JSValue} {mid out : OSRExit} (hrun : run slots = some mid)
      (hback : mid.resume = header) (rest : Entries run header mid.slots out) :
      Entries run header slots out

variable {b : FunctionBytecode}

def CountedLoop.Indexed (p : CountedLoop) (b : FunctionBytecode) : Prop :=
  FrameIndexed b ⟨.local, p.induction⟩ ∧ FrameIndexed b p.accumulatorSlot

instance (p : CountedLoop) (b : FunctionBytecode) : Decidable (p.Indexed b) :=
  inferInstanceAs (Decidable (_ ∧ _))

def CountedLoop.Apart (p : CountedLoop) : Prop :=
  p.accumulatorSlot ≠ ⟨.local, p.induction⟩ ∧ p.accumulatorSlot ∉ p.limitSlot

instance (p : CountedLoop) : Decidable p.Apart :=
  inferInstanceAs (Decidable (_ ∧ _))

def LimitIs (limit : Int) (limitSlot : Option Slot) (slots : Slot → JSValue) (l : Int) : Prop :=
  match limitSlot with
  | none => l = limit
  | some slot => slots slot = .number l

theorem LoopHeader.counted_spec {header : LoopHeader} {accumulator : Slot} {target : Nat}
    {p : CountedLoop} (h : header.counted b accumulator target = some p) :
    0 ≤ header.resume ∧ header.induction < b.varCount ∧
      p = ⟨header.induction, header.limit, header.limitSlot, accumulator, target,
        header.resume.toNat⟩ := by
  unfold LoopHeader.counted at h
  split at h
  · rename_i hc
    cases h
    exact ⟨hc.1, hc.2.2, rfl⟩
  · cases h

theorem chunkLimit_le {i limit : Int} (h : i ≤ limit) :
    i ≤ chunkLimit i limit ∧ chunkLimit i limit ≤ limit := by
  unfold chunkLimit chunkLength
  split <;> omega

theorem CountedLoop.runtimeLimit_is {p : CountedLoop} {slots : Slot → JSValue} {l : Int}
    (h : p.runtimeLimit slots = some l) : LimitIs p.limit p.limitSlot slots l := by
  unfold CountedLoop.runtimeLimit at h
  unfold LimitIs
  split at h
  · cases h
    rfl
  · split at h
    · rename_i n hn
      split at h
      · cases h
        exact hn
      · cases h
    · cases h

theorem storeValue_inFrame {f f' : OSRFrame} {slot : Slot} {v : JSValue}
    (hi : FrameIndexed b slot) (h : f.storeValue b slot v = some f') :
    slot.kind = .local → slot.index < b.varCount := by
  obtain ⟨kind, l⟩ := slot
  rintro hk
  simp only at hk
  subst hk
  have hidx := frameLocal_local hi
  have hlt := hi rfl
  simp only [OSRFrame.storeValue, hidx, localCount] at h hlt ⊢
  rw [if_pos (by omega)] at h
  split at h
  · cases h
  · omega

theorem CountedLoop.runChunk_outcome {p : CountedLoop}
    {kernel : Int → Int → BitVec 32 → Option (BitVec 32)} {slots : Slot → JSValue} {out : OSRExit}
    (hi : p.Indexed b) (hv : p.induction < b.varCount)
    (h : p.runChunk b kernel slots = some out) :
    ∃ i l acc value, slots ⟨.local, p.induction⟩ = .number i ∧
      LimitIs p.limit p.limitSlot slots l ∧ 0 ≤ i ∧ i ≤ l ∧
      slots p.accumulatorSlot = .number acc ∧ int32Min ≤ acc ∧ acc ≤ int32Max ∧
      kernel i (chunkLimit i l) (toBits acc) = some value ∧
      out.slots = Function.update (Function.update slots p.accumulatorSlot (ofBits value))
        ⟨.local, p.induction⟩ (.number (chunkLimit i l)) ∧
      out.resume = (if chunkLimit i l < l then p.loopHeader else p.resume) ∧
      (p.accumulatorSlot.kind = .local → p.accumulatorSlot.index < b.varCount) ∧
      p.runtimeLimit slots = some l := by
  have hidx := frameLocal_local hi.1
  have hm := captureFrame_holds (b := b) slots
  simp only [runChunk, hidx] at h
  rw [if_neg (by simp only [localCount]; omega), hm.locals _ hv] at h
  simp only [Option.bind_eq_bind, Option.bind_eq_some_iff] at h
  obtain ⟨i, hival, l, hl, h⟩ := h
  split at h
  · cases h
  · rename_i hrange
    simp only [Option.bind_eq_some_iff] at h
    obtain ⟨acc, hacc, value, hkernel, f, hf, he⟩ := h
    have hstore := hm.store hi.2 hf
    have hend := (hstore.update_local p.induction hv (.number (chunkLimit i l))).writeBack
    have hnum : slots ⟨.local, p.induction⟩ = .number i := by
      unfold intValue at hival
      split at hival
      · rename_i n hn
        split at hival
        · cases hival
          exact hn
        · cases hival
      · cases hival
    unfold intValue at hacc
    split at hacc
    · rename_i n hn
      split at hacc
      · rename_i hb
        cases hacc
        cases he
        exact ⟨i, l, acc, value, hnum, p.runtimeLimit_is hl, by omega, by omega, hn, hb.1, hb.2,
          hkernel, hend, rfl, storeValue_inFrame hi.2 hf, hl⟩
      · cases hacc
    · cases hacc

theorem storeValue_completes {f : OSRFrame} {slot : Slot} (hi : FrameIndexed b slot)
    (hv : slot.kind = .local → slot.index < b.varCount) (v : JSValue) :
    ∃ f', f.storeValue b slot v = some f' := by
  obtain ⟨kind, l⟩ := slot
  cases kind
  case «local» =>
    have hidx := frameLocal_local hi
    have hlt := hi rfl
    have hv := hv rfl
    simp only at hlt hv
    simp only [OSRFrame.storeValue, hidx, localCount]
    rw [if_pos (by omega), if_neg (by omega)]
    exact ⟨_, rfl⟩
  all_goals
    simp only [OSRFrame.storeValue, frameLocal]
    exact ⟨_, rfl⟩

theorem CountedLoop.runChunk_completes {p : CountedLoop}
    {kernel : Int → Int → BitVec 32 → Option (BitVec 32)} {slots : Slot → JSValue}
    (hi : p.Indexed b) (hv : p.induction < b.varCount)
    (hacc : p.accumulatorSlot.kind = .local → p.accumulatorSlot.index < b.varCount) {i l acc : Int}
    (hival : slots ⟨.local, p.induction⟩ = .number i) (hl : p.runtimeLimit slots = some l)
    (h0 : 0 ≤ i) (hil : i ≤ l) (hlmax : l ≤ int32Max)
    (haccval : slots p.accumulatorSlot = .number acc) (hmin : int32Min ≤ acc)
    (hmax : acc ≤ int32Max)
    {value : BitVec 32} (hk : kernel i (chunkLimit i l) (toBits acc) = some value) :
    ∃ out, p.runChunk b kernel slots = some out := by
  have hidx := frameLocal_local hi.1
  have hm := captureFrame_holds (b := b) slots
  have hi32 : intValue (slots ⟨.local, p.induction⟩) = some i := by
    rw [hival, intValue, if_pos ⟨by unfold int32Min; omega, by omega⟩]
  have ha32 : intValue (slots p.accumulatorSlot) = some acc := by
    rw [haccval, intValue, if_pos ⟨hmin, hmax⟩]
  have hstore := storeValue_completes (f := captureFrame b slots) hi.2 hacc (ofBits value)
  obtain ⟨f, hf⟩ := hstore
  rw [← Option.isSome_iff_exists]
  simp only [runChunk, hidx]
  rw [if_neg (by simp only [localCount]; omega), hm.locals _ hv, hi32]
  simp only [Option.bind_eq_bind, Option.bind_some, hl, ha32, hk]
  rw [if_neg (by omega)]
  simp only [Option.bind_some, OSRFrame.store, hf, Option.isSome_some]

variable {H : Type}

/-- A run of the interpreter with calls that leaves only states with their program counter in
`[lo, hi)`. -/
def CallSegment (ops : CallOps H) (b : FunctionBytecode) (lo hi : Nat) (s t : State H) : Prop :=
  Runs (stepFunction ops b) (fun u => lo ≤ u.pc ∧ u.pc < hi) s t

section

variable {ops : CallOps H} {lo mid hi p q : Nat} {s t u : State H}

theorem CallSegment.widen (hlo : lo ≤ p) (hhi : q ≤ hi) (h : CallSegment ops b p q s t) :
    CallSegment ops b lo hi s t := by
  refine Runs.mono ?_ h
  intro v hv
  omega

theorem CallSegment.append (h : CallSegment ops b lo mid s t) (h' : CallSegment ops b mid hi t u)
    (hlo : lo ≤ mid) (hhi : mid ≤ hi) : CallSegment ops b lo hi s u :=
  Runs.trans (h.widen (Nat.le_refl lo) hhi) (h'.widen hlo (Nat.le_refl hi))

theorem Segment.withCalls (h : Segment ops.toHeapOps b lo hi s t) :
    CallSegment ops b lo hi s t := by
  unfold Segment at h
  induction h with
  | refl s => exact .refl s
  | head hin hs _ ih => exact .head hin (stepFunction_of_step hs) ih

theorem callSegment_execAll {is : List FunctionInsn} (hs : is.all FunctionInsn.straight = true)
    (hcode : SpellsFunction b.code p is q) {st st' : List JSValue} {slots slots' : Slot → JSValue}
    {h h' : H} {n m : Nat}
    (he : execFunctionAll ops b.cpool is ⟨n, st, slots, h⟩ = some ⟨m, st', slots', h'⟩) :
    CallSegment ops b p q ⟨p, st, slots, h⟩ ⟨q, st', slots', h'⟩ :=
  execFunctionAll_runs (List.all_eq_true.mp hs) hcode he

end

section

variable {ops : HeapOps H} {p q : Nat} {st : List JSValue} {slots : Slot → JSValue} {h : H}

theorem scalarConst_segment {n : Int} (hc : scalarConst b p = some (n, q)) :
    Segment ops b p q ⟨p, st, slots, h⟩ ⟨q, .number n :: st, slots, h⟩ := by
  unfold scalarConst at hc
  split at hc
  · rename_i m q' hd
    cases hc
    exact Segment.insn (s := ⟨p, st, slots, h⟩) hd rfl
  · rename_i m width q' hd
    cases hc
    exact Segment.insn (s := ⟨p, st, slots, h⟩) hd rfl
  · rename_i index q' hd
    split at hc
    · rename_i m hm
      cases hc
      refine Segment.insn (s := ⟨p, st, slots, h⟩) hd ?_
      simp [exec, hm, State.push]
    · cases hc
  · cases hc

/-- An instruction that pushes the number `n`, whatever the state. -/
def Pushes (b : FunctionBytecode) (i : Insn) (n : Int) : Prop :=
  i.straight = true ∧ ∀ (H : Type) (ops : HeapOps H) (s : State H) (next : Nat),
    exec ops b.cpool i s next = some (s.push (.number n) next)

theorem Pushes.function {i : Insn} {n : Int} (hp : Pushes b i n) (ops : CallOps H) (s : State H)
    (next : Nat) : execFunction ops b.cpool (.base i) s next = some (s.push (.number n) next) :=
  execFunction_of_exec (hp.2 H ops.toHeapOps s next)

theorem scalarConst_pushes {n : Int} (hc : scalarConst b p = some (n, q)) :
    ∃ i, Spells b.code p [i] q ∧ Pushes b i n := by
  unfold scalarConst at hc
  split at hc
  · rename_i m q' hd
    cases hc
    exact ⟨_, .single hd, rfl, fun _ _ _ _ => rfl⟩
  · rename_i m width q' hd
    cases hc
    exact ⟨_, .single hd, rfl, fun _ _ _ _ => rfl⟩
  · rename_i index q' hd
    split at hc
    · rename_i m hm
      cases hc
      exact ⟨_, .single hd, rfl, fun _ _ _ _ => by simp [exec, hm]⟩
    · cases hc
  · cases hc

theorem get_segment {slot : Slot} {form : Form} (hd : decode b.code p = some (.get slot form, q))
    (hv : slots slot ≠ .uninitialized) :
    Segment ops b p q ⟨p, st, slots, h⟩ ⟨q, slots slot :: st, slots, h⟩ := by
  refine Segment.insn (s := ⟨p, st, slots, h⟩) hd ?_
  simp [exec, State.push, hv]

theorem parseLimit_reads (ops : HeapOps H) {limit : Int} {limitSlot : Option Slot}
    (hp : parseLimit b p = some (limit, limitSlot, q)) :
    p < q ∧ limit ≤ int32Max ∧ ∀ (st : List JSValue) (slots : Slot → JSValue) (h : H) (l : Int),
      LimitIs limit limitSlot slots l →
      Segment ops b p q ⟨p, st, slots, h⟩ ⟨q, .number l :: st, slots, h⟩ := by
  unfold parseLimit at hp
  split at hp
  · rename_i n q' hc
    cases hp
    obtain ⟨hc, -, hn⟩ := scalarConstIn_spec hc
    refine ⟨scalarConst_lt hc, hn, ?_⟩
    rintro st slots h l rfl
    exact scalarConst_segment hc
  · obtain ⟨⟨slot, q'⟩, hg, he⟩ := Option.map_eq_some_iff.mp hp
    cases he
    obtain ⟨form, hd⟩ := parseGetScalarSlot_decode hg
    refine ⟨decode_lt hd, by decide, ?_⟩
    intro st slots h l hl
    have hs : Segment ops b p q' ⟨p, st, slots, h⟩ ⟨q', slots slot :: st, slots, h⟩ :=
      get_segment hd (by rw [show slots slot = .number l from hl]; simp)
    rwa [show slots slot = .number l from hl] at hs

theorem parseHeader_branches (ops : HeapOps H) {header : LoopHeader}
    (hp : parseHeader b p = some header) (hr : 0 ≤ header.resume) :
    p < header.body ∧ header.limit ≤ int32Max ∧
      ∀ (st : List JSValue) (slots : Slot → JSValue) (h : H) (i l : Int),
      slots ⟨.local, header.induction⟩ = .number i →
      LimitIs header.limit header.limitSlot slots l →
      Segment ops b p header.body ⟨p, st, slots, h⟩
        ⟨if i < l then header.body else header.resume.toNat, st, slots, h⟩ := by
  unfold parseHeader at hp
  split at hp
  · rename_i induction p1 hd
    simp only [Option.bind_eq_bind, Option.bind_eq_some_iff] at hp
    obtain ⟨⟨limit, limitSlot, p2⟩, hl, p3, hlt, ⟨resume, p4⟩, hbr, he⟩ := hp
    cases he
    obtain ⟨width, hbr⟩ := parseBranchTarget_decode hbr
    have hlt := expect_decode hlt
    have h1 := decode_lt hd
    have h3 := decode_lt hlt
    have h4 := decode_lt hbr
    obtain ⟨h2, hmax, hs2⟩ := parseLimit_reads ops hl
    simp only at h3 hr ⊢
    refine ⟨by omega, hmax, ?_⟩
    intro st slots h i l hi hlim
    have hs1 : Segment ops b p p1 ⟨p, st, slots, h⟩
        ⟨p1, slots ⟨.local, induction⟩ :: st, slots, h⟩ := get_segment hd (by rw [hi]; simp)
    rw [hi] at hs1
    have hs3 : Segment ops b p2 p3 ⟨p2, .number l :: .number i :: st, slots, h⟩
        ⟨p3, .bool (i < l) :: st, slots, h⟩ :=
      Segment.insn (s := ⟨p2, .number l :: .number i :: st, slots, h⟩) hlt rfl
    have hs4 : Segment ops b p3 p4 ⟨p3, .bool (i < l) :: st, slots, h⟩ _ :=
      segment_branchFalse hr rfl hbr
    have h12 := hs1.append (hs2 _ _ _ l hlim) (by omega) (by omega)
    have h13 := h12.append hs3 (by omega) (by omega)
    simpa using h13.append hs4 (by omega) (by omega)
  · cases hp

theorem parseTail_returns (ops : HeapOps H) {induction target source : Nat}
    (hp : parseTail b induction target source p = some ()) :
    p ≤ source ∧ ∀ (st : List JSValue) (slots : Slot → JSValue) (h : H) (i : Int),
      slots ⟨.local, induction⟩ = .number i →
      Segment ops b p (source + 1) ⟨p, st, slots, h⟩
        ⟨target, st, Function.update slots ⟨.local, induction⟩ (.number (i + 1)), h⟩ := by
  simp only [parseTail, Option.bind_eq_bind, Option.bind_eq_some_iff] at hp
  obtain ⟨p1, hget, p2, hinc, p3, hput, p4, hdrop, ⟨backedge, p5⟩, hgoto, hif⟩ := hp
  split at hif
  · rename_i hsrc
    obtain ⟨rfl, rfl⟩ := hsrc
    obtain ⟨width, hgoto⟩ := parseGotoTarget_decode hgoto
    have hspell : Spells b.code p (increment induction) p4 :=
      ⟨p1, expect_decode hget, p2, expect_decode hinc, p3, expect_decode hput, p4,
        expect_decode hdrop, rfl⟩
    refine ⟨hspell.le, ?_⟩
    intro st slots h i hi
    have hs1 : Segment ops b p p4 ⟨p, st, slots, h⟩ _ := segment_increment hspell hi
    have hs2 : Segment ops b p4 (p4 + 1)
        ⟨p4, st, Function.update slots ⟨.local, induction⟩ (.number (i + 1)), h⟩ _ :=
      segment_backEdge hgoto
    exact hs1.append hs2 hspell.le (by omega)
  · cases hif

end

/-- `acc = v`, as a statement. -/
def parseAssign (b : FunctionBytecode) (slot : Slot) (p : Nat) : Option Nat := do
  let p ← expect b (.plain .dup) p
  let p ← parsePutScalarSlot b p slot
  expect b (.plain .drop) p

section

variable {p q : Nat}

theorem parseGetScalarSlot_spells {slot : Slot} (h : parseGetScalarSlot b p = some (slot, q)) :
    ∃ form, Spells b.code p [.get slot form] q := by
  obtain ⟨form, hd⟩ := parseGetScalarSlot_decode h
  exact ⟨form, .single hd⟩

theorem parseAssign_spells {slot : Slot} (h : parseAssign b slot p = some q) :
    ∃ form, Spells b.code p [.plain .dup, .put slot form, .plain .drop] q := by
  simp only [parseAssign, Option.bind_eq_bind, Option.bind_eq_some_iff] at h
  obtain ⟨p1, hdup, p2, hput, hdrop⟩ := h
  obtain ⟨form, hput⟩ := parsePutScalarSlot_decode hput
  exact ⟨form, p1, expect_decode hdup, p2, hput, q, expect_decode hdrop, rfl⟩

theorem parseAssign_segment (ops : CallOps H) (st : List JSValue) (slots : Slot → JSValue)
    (heap : H) (v : JSValue) {slot : Slot} (hp : parseAssign b slot p = some q)
    (hv : slots slot ≠ .uninitialized) :
    p ≤ q ∧ CallSegment ops b p q ⟨p, v :: st, slots, heap⟩
      ⟨q, st, Function.update slots slot v, heap⟩ := by
  obtain ⟨form, hcode⟩ := parseAssign_spells hp
  exact ⟨hcode.le, (segment_store hcode hv).withCalls⟩

end

/-- The frames of an interpreted loop, by the value of the induction variable, from `start` to
`stop`; `mid` are the frames behind the body. -/
structure LoopFrames (ops : CallOps H) (b : FunctionBytecode) (header : LoopHeader) (next : Nat)
    (st : List JSValue) (heap : H) (start stop : Int) (frames mid : Int → Slot → JSValue) :
    Prop where
  induction : ∀ i, start ≤ i → i ≤ stop → frames i ⟨.local, header.induction⟩ = .number i
  limit : ∀ i, start ≤ i → i ≤ stop → LimitIs header.limit header.limitSlot (frames i) stop
  body : ∀ i, start ≤ i → i < stop →
    CallSegment ops b header.body next ⟨header.body, st, frames i, heap⟩ ⟨next, st, mid i, heap⟩
  mid_induction : ∀ i, start ≤ i → i < stop → mid i ⟨.local, header.induction⟩ = .number i
  bump : ∀ i, start ≤ i → i < stop →
    Function.update (mid i) ⟨.local, header.induction⟩ (.number (i + 1)) = frames (i + 1)

section

variable {ops : CallOps H} {header : LoopHeader} {target source next : Nat} {st : List JSValue}
  {heap : H} {start stop : Int} {frames mid : Int → Slot → JSValue}

theorem LoopFrames.iteration (hf : LoopFrames ops b header next st heap start stop frames mid)
    (hh : parseHeader b target = some header) (hr : 0 ≤ header.resume)
    (ht : parseTail b header.induction target source next = some ()) (hle : header.body ≤ next)
    {i : Int} (hs : start ≤ i) (hi : i < stop) :
    CallSegment ops b target (source + 1) ⟨target, st, frames i, heap⟩
      ⟨target, st, frames (i + 1), heap⟩ := by
  obtain ⟨h1, -, hhead⟩ := parseHeader_branches ops.toHeapOps hh hr
  obtain ⟨h2, htail⟩ := parseTail_returns ops.toHeapOps ht
  have hhead := (hhead st (frames i) heap i stop (hf.induction i hs (Int.le_of_lt hi))
    (hf.limit i hs (Int.le_of_lt hi))).withCalls
  rw [if_pos hi] at hhead
  have htail := (htail st (mid i) heap i (hf.mid_induction i hs hi)).withCalls
  rw [hf.bump i hs hi] at htail
  have hbody := hf.body i hs hi
  have hfirst : CallSegment ops b target (source + 1) _ _ :=
    hhead.widen (Nat.le_refl target) (by omega)
  have hmid : CallSegment ops b target (source + 1) _ _ := hbody.widen (by omega) (by omega)
  have hlast : CallSegment ops b target (source + 1) _ _ :=
    htail.widen (by omega) (Nat.le_refl _)
  exact (Runs.trans hfirst hmid).trans hlast

theorem LoopFrames.reaches (hf : LoopFrames ops b header next st heap start stop frames mid)
    (hh : parseHeader b target = some header) (hr : 0 ≤ header.resume)
    (ht : parseTail b header.induction target source next = some ()) (hle : header.body ≤ next)
    (n : Nat) (hn : start + n ≤ stop) :
    CallSegment ops b target (source + 1) ⟨target, st, frames start, heap⟩
      ⟨target, st, frames (start + n), heap⟩ := by
  have hround : ∀ k : Nat, k < n → CallSegment ops b target (source + 1)
      ⟨target, st, frames (start + k), heap⟩ ⟨target, st, frames (start + (k + 1 : Nat)), heap⟩ := by
    intro k hk
    have hround := hf.iteration hh hr ht hle (i := start + k) (by omega) (by omega)
    rwa [Int.add_assoc] at hround
  have hrounds := Runs.iterate (fun k : Nat => (⟨target, st, frames (start + k), heap⟩ : State H))
    n hround
  simp only [Int.natCast_zero, Int.add_zero] at hrounds
  exact hrounds

theorem LoopFrames.leaves (hf : LoopFrames ops b header next st heap start stop frames mid)
    (hh : parseHeader b target = some header) (hr : 0 ≤ header.resume)
    (ht : parseTail b header.induction target source next = some ()) (hle : header.body ≤ next)
    (hstop : start ≤ stop) :
    CallSegment ops b target (source + 1) ⟨target, st, frames start, heap⟩
      ⟨header.resume.toNat, st, frames stop, heap⟩ := by
  obtain ⟨n, hn⟩ : ∃ n : Nat, stop = start + n := ⟨(stop - start).toNat, by omega⟩
  have hreach := hf.reaches hh hr ht hle n (Int.le_of_eq hn.symm)
  rw [← hn] at hreach
  obtain ⟨h1, -, hhead⟩ := parseHeader_branches ops.toHeapOps hh hr
  have h2 := (parseTail_returns ops.toHeapOps ht).1
  have hexit := (hhead st (frames stop) heap stop stop (hf.induction stop hstop (Int.le_refl stop))
    (hf.limit stop hstop (Int.le_refl stop))).withCalls
  rw [if_neg (Int.lt_irrefl stop)] at hexit
  have hlast : CallSegment ops b target (source + 1) _ _ :=
    hexit.widen (Nat.le_refl target) (by omega)
  exact hreach.trans hlast

end

/-! ## Frames that differ in the accumulator and the induction variable -/

def CountedLoop.frame (p : CountedLoop) (slots : Slot → JSValue) (value : JSValue) (i : Int) :
    Slot → JSValue :=
  Function.update (Function.update slots p.accumulatorSlot value) ⟨.local, p.induction⟩ (.number i)

section

variable {p : CountedLoop} {slots : Slot → JSValue} {value value' : JSValue} {i j l : Int}

theorem CountedLoop.frame_induction :
    p.frame slots value i ⟨.local, p.induction⟩ = .number i := by
  simp [CountedLoop.frame]

theorem CountedLoop.frame_accumulator (ha : p.Apart) :
    p.frame slots value i p.accumulatorSlot = value := by
  simp [CountedLoop.frame, Function.update_of_ne ha.1]

theorem CountedLoop.frame_other {slot : Slot} (ha : slot ≠ p.accumulatorSlot)
    (hi : slot ≠ ⟨.local, p.induction⟩) : p.frame slots value i slot = slots slot := by
  simp [CountedLoop.frame, Function.update_of_ne ha, Function.update_of_ne hi]

theorem CountedLoop.frame_bump :
    Function.update (p.frame slots value i) ⟨.local, p.induction⟩ (.number j) =
      p.frame slots value j := by
  simp [CountedLoop.frame]

theorem CountedLoop.frame_store (ha : p.Apart) :
    Function.update (p.frame slots value i) p.accumulatorSlot value' = p.frame slots value' i := by
  unfold CountedLoop.frame
  rw [Function.update_comm ha.1.symm, Function.update_idem]

theorem CountedLoop.frame_frame (ha : p.Apart) :
    p.frame (p.frame slots value i) value' j = p.frame slots value' j := by
  rw [CountedLoop.frame, frame_store ha, frame_bump]

theorem CountedLoop.frame_self (hi : slots ⟨.local, p.induction⟩ = .number i) :
    p.frame slots (slots p.accumulatorSlot) i = slots := by
  rw [CountedLoop.frame, Function.update_eq_self, ← hi, Function.update_eq_self]

theorem CountedLoop.frame_limit (ha : p.Apart) (hi : slots ⟨.local, p.induction⟩ = .number i)
    (hl : LimitIs p.limit p.limitSlot slots l) (hij : i ≤ j) (hjl : j ≤ l) :
    LimitIs p.limit p.limitSlot (p.frame slots value j) l := by
  unfold LimitIs at hl ⊢
  cases hs : p.limitSlot with
  | none => simpa [hs] using hl
  | some slot =>
    simp only [hs] at hl ⊢
    have hacc : slot ≠ p.accumulatorSlot := by
      rintro rfl
      exact ha.2 (by simp [hs])
    by_cases hind : slot = ⟨.local, p.induction⟩
    · subst hind
      rw [hi] at hl
      cases hl
      rw [frame_induction, Int.le_antisymm hjl hij]
    · rw [frame_other hacc hind, hl]

end

def CountedLoop.AtLimit (p : CountedLoop) (slots : Slot → JSValue) : Prop :=
  ∃ i, slots ⟨.local, p.induction⟩ = .number i ∧ LimitIs p.limit p.limitSlot slots i

/-- The slots on which the chunked runner can be trusted: the 16-bit frame indices are exact, and
either no iteration is left or the accumulator is apart. -/
def CountedLoop.Faithful (p : CountedLoop) (b : FunctionBytecode) (slots : Slot → JSValue) : Prop :=
  p.Indexed b ∧ (p.Apart ∨ p.AtLimit slots)

/-- The iterations of an int32 loop from `i` to `stop`. -/
def iterateTo (f : Int → BitVec 32 → BitVec 32) (i stop : Int) (x : BitVec 32) : BitVec 32 :=
  forUp (stop - i).toNat (fun k x => f (i + k) x) x

theorem iterateTo_self (f : Int → BitVec 32 → BitVec 32) (i : Int) (x : BitVec 32) :
    iterateTo f i i x = x := by
  simp [iterateTo]

theorem iterateTo_succ (f : Int → BitVec 32 → BitVec 32) {i j : Int} (h : i ≤ j) (x : BitVec 32) :
    iterateTo f i (j + 1) x = f j (iterateTo f i j x) := by
  have hn : (j + 1 - i).toNat = (j - i).toNat + 1 := by omega
  have hj : i + ((j - i).toNat : Int) = j := by omega
  rw [iterateTo, hn, forUp_succ, hj, iterateTo]

section

variable {ops : CallOps H} {header : LoopHeader} {target source next : Nat} {heap : H}
  {p : CountedLoop} {f : Int → BitVec 32 → BitVec 32} {slots : Slot → JSValue} {out : OSRExit}
  {kernel : Int → Int → BitVec 32 → Option (BitVec 32)}

theorem LimitIs.unique {limit l l' : Int} {limitSlot : Option Slot}
    (h : LimitIs limit limitSlot slots l) (h' : LimitIs limit limitSlot slots l') : l = l' := by
  unfold LimitIs at h h'
  split at h
  · exact h.trans h'.symm
  · simp only [h] at h'
    cases h'
    rfl

theorem CountedLoop.runChunk_atLimit (hidx : p.Indexed b) (hv : p.induction < b.varCount)
    (hkernel : ∀ i stop x value, kernel i stop x = some value → value = iterateTo f i stop x)
    (hlim : p.AtLimit slots) (hrun : p.runChunk b kernel slots = some out) {i l : Int}
    (hi : slots ⟨.local, p.induction⟩ = .number i) (hl : LimitIs p.limit p.limitSlot slots l) :
    out.slots = slots ∧ l = i := by
  obtain ⟨i', hi', hl'⟩ := hlim
  have hii : i' = i := by
    rw [hi] at hi'
    cases hi'
    rfl
  subst hii
  obtain rfl := hl.unique hl'
  obtain ⟨j, m, acc, value, hj, hm, h0, hjm, hacc, hmin, hmax, hk, hslots, -, -, -⟩ :=
    runChunk_outcome hidx hv hrun
  obtain rfl := hm.unique hl
  have hjl : j = m := by
    rw [hi] at hj
    cases hj
    rfl
  subst hjl
  have hstop : chunkLimit j j = j := Int.le_antisymm (chunkLimit_le hjm).2 (chunkLimit_le hjm).1
  refine ⟨?_, rfl⟩
  rw [hslots, hkernel _ _ _ _ hk, hstop, iterateTo_self, ofBits_toBits ⟨hmin, hmax⟩, ← hacc,
    Function.update_eq_self, ← hi, Function.update_eq_self]

/-- The interpreted body of an int32 loop stores `f i acc` in the accumulator. -/
def BodyStores (ops : CallOps H) (b : FunctionBytecode) (header : LoopHeader) (next : Nat)
    (heap : H) (accumulator : Slot) (f : Int → BitVec 32 → BitVec 32) : Prop :=
  ∀ (st : List JSValue) (slots : Slot → JSValue) (i : Int) (x : BitVec 32),
    slots accumulator = ofBits x → slots ⟨.local, header.induction⟩ = .number i →
    CallSegment ops b header.body next ⟨header.body, st, slots, heap⟩
      ⟨next, st, Function.update slots accumulator (ofBits (f i x)), heap⟩

theorem CountedLoop.chunk_segment (hh : parseHeader b target = some header)
    (hr : 0 ≤ header.resume) (hv : header.induction < b.varCount)
    (ht : parseTail b header.induction target source next = some ()) (hle : header.body ≤ next)
    (hp : p = ⟨header.induction, header.limit, header.limitSlot, p.accumulatorSlot, target,
      header.resume.toNat⟩)
    (hbody : BodyStores ops b header next heap p.accumulatorSlot f)
    (hkernel : ∀ i stop x value, kernel i stop x = some value → value = iterateTo f i stop x)
    (hfaithful : p.Faithful b slots) (hrun : p.runChunk b kernel slots = some out)
    (st : List JSValue) :
    CallSegment ops b target (source + 1) ⟨target, st, slots, heap⟩
      ⟨out.resume, st, out.slots, heap⟩ := by
  have hind : p.induction = header.induction := by rw [hp]
  have hlimit : p.limit = header.limit ∧ p.limitSlot = header.limitSlot := by
    rw [hp]
    exact ⟨rfl, rfl⟩
  have hback : p.loopHeader = target ∧ p.resume = header.resume.toNat := by
    rw [hp]
    exact ⟨rfl, rfl⟩
  obtain ⟨i, l, acc, value, hi, hl, h0, hil, hacc, hmin, hmax, hk, hslots, hresume, -, -⟩ :=
    runChunk_outcome hfaithful.1 (by rw [hind]; exact hv) hrun
  have hx : ofBits (toBits acc) = .number acc := ofBits_toBits ⟨hmin, hmax⟩
  have hvalue := hkernel _ _ _ _ hk
  rcases hfaithful.2 with hapart | hlim
  · -- The frames of the loop, one for each value of the induction variable.
    have hframes : LoopFrames ops b header next st heap i l
        (fun j => p.frame slots (ofBits (iterateTo f i j (toBits acc))) j)
        (fun j => p.frame slots (ofBits (iterateTo f i (j + 1) (toBits acc))) j) := by
      constructor
      · intro j _ _
        rw [← hind]
        exact frame_induction
      · intro j hj hjl
        rw [← hlimit.1, ← hlimit.2]
        exact frame_limit hapart hi hl hj hjl
      · intro j hj hjl
        have hstep := hbody st (p.frame slots (ofBits (iterateTo f i j (toBits acc))) j) j
          (iterateTo f i j (toBits acc)) (frame_accumulator hapart)
          (by rw [← hind]; exact frame_induction)
        rwa [frame_store hapart, ← iterateTo_succ f hj] at hstep
      · intro j _ _
        rw [← hind]
        exact frame_induction
      · intro j _ _
        rw [← hind]
        exact frame_bump
    have hstart : p.frame slots (ofBits (iterateTo f i i (toBits acc))) i = slots := by
      rw [iterateTo_self, hx, ← hacc]
      exact frame_self hi
    have hend : out.slots = p.frame slots
        (ofBits (iterateTo f i (chunkLimit i l) (toBits acc))) (chunkLimit i l) := by
      rw [hslots, ← hvalue]
      rfl
    obtain ⟨hlo, hhi⟩ := chunkLimit_le hil
    rw [hend, hresume]
    split
    · have hreach := hframes.reaches hh hr ht hle (chunkLimit i l - i).toNat (by omega)
      rw [show i + ((chunkLimit i l - i).toNat : Int) = chunkLimit i l by omega] at hreach
      simp only [hstart] at hreach
      rw [hback.1]
      exact hreach
    · have hstop : chunkLimit i l = l := by omega
      have hleave := hframes.leaves hh hr ht hle hil
      simp only [hstart] at hleave
      rw [hstop, hback.2]
      exact hleave
  · obtain ⟨hsame, he⟩ := runChunk_atLimit hfaithful.1 (by rw [hind]; exact hv) hkernel hlim hrun
      hi hl
    subst he
    have hstop : chunkLimit l l = l := Int.le_antisymm (chunkLimit_le hil).2 (chunkLimit_le hil).1
    obtain ⟨h1, -, hhead⟩ := parseHeader_branches ops.toHeapOps hh hr
    have h2 := (parseTail_returns ops.toHeapOps ht).1
    have hexit := (hhead st slots heap l l (by rw [← hind]; exact hi)
      (by rw [← hlimit.1, ← hlimit.2]; exact hl)).withCalls
    rw [if_neg (Int.lt_irrefl l)] at hexit
    rw [hsame, hresume, hstop, if_neg (Int.lt_irrefl l), hback.2]
    exact hexit.widen (Nat.le_refl target) (by omega)

theorem CountedLoop.chunk_faithful (hv : p.induction < b.varCount)
    (hkernel : ∀ i stop x value, kernel i stop x = some value → value = iterateTo f i stop x)
    (hfaithful : p.Faithful b slots) (hrun : p.runChunk b kernel slots = some out) :
    p.Faithful b out.slots := by
  refine ⟨hfaithful.1, ?_⟩
  rcases hfaithful.2 with hapart | hlim
  · exact .inl hapart
  · obtain ⟨i, hi, hl⟩ := hlim
    rw [(runChunk_atLimit hfaithful.1 hv hkernel ⟨i, hi, hl⟩ hrun hi hl).1]
    exact .inr ⟨i, hi, hl⟩

theorem CountedLoop.runtimeLimit_of_is {l : Int} (h : LimitIs p.limit p.limitSlot slots l)
    (h0 : 0 ≤ l) (hmax : l ≤ int32Max) : p.runtimeLimit slots = some l := by
  unfold LimitIs at h
  unfold CountedLoop.runtimeLimit
  split at h
  · rw [h]
  · simp only [h]
    rw [if_pos ⟨h0, hmax⟩]

/-- Once an entry has completed, further entries bring the loop to its limit. -/
theorem CountedLoop.entries_finish (hv : p.induction < b.varCount) (hmax : p.limit ≤ int32Max)
    (hkernel : ∀ i stop x, kernel i stop x = some (iterateTo f i stop x))
    (hfaithful : p.Faithful b slots) (hrun : p.runChunk b kernel slots = some out) :
    ∃ last, Entries (p.runChunk b kernel) p.loopHeader slots last ∧ p.AtLimit last.slots ∧
      last.resume = p.resume := by
  have hkernel' : ∀ i stop x value, kernel i stop x = some value → value = iterateTo f i stop x := by
    intro i stop x value h
    rw [hkernel] at h
    cases h
    rfl
  obtain ⟨i, l, acc, value, hi, hl, h0, hil, hacc, hmin, hmaxacc, hk, hslots, hresume, hlocal,
    hrl⟩ := runChunk_outcome hfaithful.1 hv hrun
  rcases hfaithful.2 with hapart | hlim
  · -- By induction on the iterations that are left.
    obtain ⟨n, hn⟩ : ∃ n : Nat, n = (l - i).toNat := ⟨_, rfl⟩
    induction n using Nat.strongRecOn generalizing slots out i acc value with
    | ind n ih =>
      obtain ⟨hlo, hhi⟩ := chunkLimit_le hil
      have hframe : out.slots = p.frame slots (ofBits value) (chunkLimit i l) := hslots
      have hl' : LimitIs p.limit p.limitSlot out.slots l := by
        rw [hframe]
        exact frame_limit hapart hi hl hlo hhi
      have hi' : out.slots ⟨.local, p.induction⟩ = .number (chunkLimit i l) := by
        rw [hframe]
        exact frame_induction
      by_cases hlast : chunkLimit i l < l
      · have hlmax : l ≤ int32Max := by
          unfold CountedLoop.runtimeLimit at hrl
          split at hrl
          · cases hrl
            exact hmax
          · split at hrl
            · split at hrl
              · rename_i hb
                cases hrl
                exact hb.2
              · cases hrl
            · cases hrl
        have hrl' := p.runtimeLimit_of_is hl' (by omega) hlmax
        have hacc' : out.slots p.accumulatorSlot = ofBits value := by
          rw [hframe]
          exact frame_accumulator hapart
        obtain ⟨out', hrun'⟩ := runChunk_completes hfaithful.1 hv hlocal hi' hrl' (by omega)
          hhi hlmax hacc' (toInt_bounds value).1 (toInt_bounds value).2 (hkernel _ _ _)
        obtain ⟨j, m, acc', value', hj, hm, h0', hjm, hacc'', hmin', hmax', hk', hslots', hresume',
          -, hrl''⟩ := runChunk_outcome hfaithful.1 hv hrun'
        obtain rfl := hm.unique hl'
        have hji : j = chunkLimit i m := by
          rw [hi'] at hj
          cases hj
          rfl
        have hshort : i < chunkLimit i m := by
          unfold chunkLimit chunkLength
          split <;> omega
        obtain ⟨last, hlast, hend⟩ := ih (m - j).toNat (by omega) ⟨hfaithful.1, .inl hapart⟩ hrun' j
          acc' value' hj hl' h0' hjm hacc'' hmin' hmax' hk' hslots' hresume' hrl'' rfl
        refine ⟨last, .next hrun ?_ hlast, hend⟩
        rw [hresume, if_pos ‹_›]
      · have hstop : chunkLimit i l = l := by omega
        refine ⟨out, .last hrun, ⟨l, ?_, hl'⟩, by rw [hresume, if_neg hlast]⟩
        rw [hi', hstop]
  · obtain ⟨hsame, rfl⟩ := runChunk_atLimit hfaithful.1 hv hkernel' hlim hrun hi hl
    refine ⟨out, .last hrun, hsame ▸ hlim, ?_⟩
    rw [hresume, if_neg (Int.not_lt.mpr (chunkLimit_le hil).1)]

end

def CallAgrees (ops : CallOps H) (b : FunctionBytecode) (target source : Nat) (s : State H)
    (out : OSRExit) : Prop :=
  ∃ t, CallSegment ops b target (source + 1) s t ∧ t.pc = out.resume ∧ t.slots = out.slots

theorem Entries.segment {ops : CallOps H} {target source : Nat} {st : List JSValue} {heap : H}
    {run : (Slot → JSValue) → Option OSRExit} {P : (Slot → JSValue) → Prop}
    (hstep : ∀ slots out, P slots → run slots = some out →
      CallSegment ops b target (source + 1) ⟨target, st, slots, heap⟩
        ⟨out.resume, st, out.slots, heap⟩ ∧ P out.slots)
    {slots : Slot → JSValue} {out : OSRExit} (h : Entries run target slots out) (hp : P slots) :
    CallSegment ops b target (source + 1) ⟨target, st, slots, heap⟩
      ⟨out.resume, st, out.slots, heap⟩ := by
  induction h with
  | last hrun => exact (hstep _ _ hp hrun).1
  | next hrun hback rest ih =>
    obtain ⟨hseg, hp'⟩ := hstep _ _ hp hrun
    rw [hback] at hseg
    exact Runs.trans hseg (ih hp')

end TurboJS.OSR
