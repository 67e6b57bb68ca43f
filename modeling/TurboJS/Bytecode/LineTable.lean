import TurboJS.Foundation.Leb128

namespace TurboJS.Bytecode

open Foundation

/-! The table from program counters to source positions: recorded while the byte code is written,
packed by differences, and searched when a stack trace is built. -/

structure SourceLocSlot where
  pc : Nat
  lineNum : ℤ
  colNum : ℤ
  deriving DecidableEq, Repr

/-- The fields of `JSFunctionDef` the table is built from; no slots are allocated when none were
counted. -/
structure LineInfo where
  lineNum : ℤ
  colNum : ℤ
  sourceLocSize : Nat
  sourceLocSlots : List SourceLocSlot
  lineNumberLastPc : Nat
  lineNumberLast : ℤ
  colNumberLast : ℤ

/-- The state in which `resolve_labels` starts to record. -/
def LineInfo.start (lineNum colNum : ℤ) (size : Nat) : LineInfo :=
  ⟨lineNum, colNum, size, [], 0, lineNum, colNum⟩

def addPc2lineInfo (s : LineInfo) (pc : Nat) (lineNum colNum : ℤ) : LineInfo :=
  if s.sourceLocSize ≤ s.sourceLocSlots.length then s
  else if pc < s.lineNumberLastPc then s
  else if lineNum = s.lineNumberLast ∧ colNum = s.colNumberLast then s
  else { s with
    sourceLocSlots := s.sourceLocSlots ++ [⟨pc, lineNum, colNum⟩]
    lineNumberLastPc := pc
    lineNumberLast := lineNum
    colNumberLast := colNum }

def pc2lineBase : ℤ := -1
def pc2lineRange : ℤ := 5
def pc2lineOpFirst : ℤ := 1
def pc2lineDiffPcMax : ℤ := (255 - pc2lineOpFirst) / pc2lineRange

def putEntry (diffPc diffLine diffCol : ℤ) : List Nat :=
  (if pc2lineBase ≤ diffLine ∧ diffLine < pc2lineBase + pc2lineRange ∧
      diffPc ≤ pc2lineDiffPcMax then
    [((diffLine - pc2lineBase) + diffPc * pc2lineRange + pc2lineOpFirst).toNat]
  else
    -- longer encoding
    0 :: (putLeb128 (BitVec.ofInt 32 diffPc).toNat ++ putSleb128 (BitVec.ofInt 32 diffLine))) ++
  putSleb128 (BitVec.ofInt 32 diffCol)

def diffPc (pc lastPc : Nat) : ℤ := ((pc : ℤ) - lastPc).bmod (2 ^ 32)

def computePc2lineInfo (lastPc : Nat) (lastLine lastCol : ℤ) : List SourceLocSlot → List Nat
  | [] => []
  | slot :: rest =>
    if slot.lineNum < 0 then computePc2lineInfo lastPc lastLine lastCol rest
    else if diffPc slot.pc lastPc < 0 then computePc2lineInfo lastPc lastLine lastCol rest
    else if slot.lineNum - lastLine = 0 ∧ slot.colNum - lastCol = 0 then
      computePc2lineInfo lastPc lastLine lastCol rest
    else
      putEntry (diffPc slot.pc lastPc) (slot.lineNum - lastLine) (slot.colNum - lastCol) ++
        computePc2lineInfo slot.pc slot.lineNum slot.colNum rest

/-- The fields of `JSFunctionBytecode`; a buffer nothing was written to is a null pointer. -/
structure FunctionLines where
  lineNum : ℤ
  colNum : ℤ
  pc2lineBuf : Option (List Nat)

def createFunction (lineNum colNum : ℤ) (slots : List SourceLocSlot) : FunctionLines where
  lineNum := lineNum
  colNum := colNum
  pc2lineBuf :=
    match computePc2lineInfo 0 lineNum colNum slots with
    | [] => none
    | table => some table

def getEntry : List Nat → Option ((Nat × ℤ × ℤ) × List Nat)
  | [] => none
  | op :: p => do
    let ((dPc, dLine), p) ←
      if op = 0 then do
        let (val, p) ← getLeb128 p
        let (v, p) ← getSleb128 p
        pure ((val, v), p)
      else
        let op := op - pc2lineOpFirst.toNat
        pure ((op / pc2lineRange.toNat, (op % pc2lineRange.toNat : Nat) + pc2lineBase), p)
    let (dCol, p) ← getSleb128 p
    pure ((dPc, dLine, dCol), p)

/-- The search; `n` bounds the entries that are left. Nothing is the failure exit. -/
def findLoop (pcValue : Nat) : (n pc : Nat) → (lineNum colNum : ℤ) → List Nat → Option (ℤ × ℤ)
  | _, _, lineNum, colNum, [] => some (lineNum, colNum)
  | 0, _, _, _, _ :: _ => none
  | n + 1, pc, lineNum, colNum, op :: p =>
    match getEntry (op :: p) with
    | none => none
    | some ((dPc, dLine, dCol), p) =>
      if pcValue < (pc + dPc) % 2 ^ 32 then some (lineNum, colNum)
      else findLoop pcValue n ((pc + dPc) % 2 ^ 32) (lineNum + dLine) (colNum + dCol) p

structure FoundLine where
  lineNum : ℤ
  col : ℤ
  failed : Bool
  deriving DecidableEq, Repr

def findLineNum (b : FunctionLines) (pcValue : Nat) : FoundLine :=
  match b.pc2lineBuf.bind fun p => findLoop pcValue p.length 0 b.lineNum b.colNum p with
  | some (lineNum, colNum) => ⟨lineNum, colNum, false⟩
  | none => ⟨b.lineNum, 1, true⟩

def Coordinate (n : ℤ) : Prop := 0 ≤ n ∧ n < 2 ^ 31

instance (n : ℤ) : Decidable (Coordinate n) := inferInstanceAs (Decidable (_ ∧ _))

def Recorded (lastPc : Nat) (lastLine lastCol : ℤ) : List SourceLocSlot → Prop
  | [] => True
  | slot :: rest =>
    (lastPc ≤ slot.pc ∧ slot.pc < 2 ^ 32 ∧ Coordinate slot.lineNum ∧ Coordinate slot.colNum ∧
      (slot.lineNum, slot.colNum) ≠ (lastLine, lastCol)) ∧
    Recorded slot.pc slot.lineNum slot.colNum rest

instance decidableRecorded : ∀ (slots : List SourceLocSlot) (lastPc : Nat) (line col : ℤ),
    Decidable (Recorded lastPc line col slots)
  | [], _, _, _ => .isTrue trivial
  | slot :: rest, _, _, _ =>
    have := decidableRecorded rest slot.pc slot.lineNum slot.colNum
    inferInstanceAs (Decidable (_ ∧ _))

def positionAt (start : ℤ × ℤ) (slots : List SourceLocSlot) (pc : Nat) : ℤ × ℤ :=
  (((slots.filter fun slot => slot.pc ≤ pc).getLast?).map fun slot =>
    (slot.lineNum, slot.colNum)).getD start

def nearSlots (lastPc : Nat) : List SourceLocSlot → List SourceLocSlot
  | [] => []
  | slot :: rest => if slot.pc - lastPc < 2 ^ 31 then slot :: nearSlots slot.pc rest else []

theorem diffPc_near {pc lastPc : Nat} (h : lastPc ≤ pc) (hnear : pc - lastPc < 2 ^ 31) :
    diffPc pc lastPc = (pc - lastPc : Nat) := by
  unfold diffPc
  rw [Int.bmod_eq_of_le] <;> push_cast <;> omega

theorem diffPc_far {pc lastPc : Nat} (hfar : 2 ^ 31 ≤ pc - lastPc) (hpc : pc < 2 ^ 32) :
    diffPc pc lastPc < 0 := by
  unfold diffPc
  rw [Int.bmod_def]
  split <;> push_cast at * <;> omega

theorem getSleb128_ofInt {v : ℤ} (hlo : -2 ^ 31 ≤ v) (hhi : v < 2 ^ 31) (rest : List Nat) :
    getSleb128 (putSleb128 (BitVec.ofInt 32 v) ++ rest) = some (v, rest) := by
  rw [getSleb128_put, BitVec.toInt_ofInt, Int.bmod_eq_of_le] <;> push_cast <;> omega

theorem getEntry_put {dPc : Nat} {dLine dCol : ℤ} (hpc : dPc < 2 ^ 31) (hline : -2 ^ 31 ≤ dLine)
    (hline' : dLine < 2 ^ 31) (hcol : -2 ^ 31 ≤ dCol) (hcol' : dCol < 2 ^ 31) (rest : List Nat) :
    getEntry (putEntry dPc dLine dCol ++ rest) = some ((dPc, dLine, dCol), rest) := by
  unfold putEntry
  split
  · next hshort =>
    simp only [pc2lineBase, pc2lineRange, pc2lineDiffPcMax, pc2lineOpFirst] at hshort ⊢
    obtain ⟨n, hn⟩ : ∃ n : Nat, (dLine - -1 + (dPc : ℤ) * 5 + 1).toNat = n + 1 :=
      ⟨(dLine - -1 + (dPc : ℤ) * 5).toNat, by omega⟩
    have hdiv : n / 5 = dPc := by omega
    have hmod : ((n % 5 : Nat) : ℤ) + -1 = dLine := by omega
    rw [hn]
    simp only [List.cons_append, List.nil_append, getEntry, pc2lineOpFirst, pc2lineRange,
      pc2lineBase]
    simp only [Nat.add_one_ne_zero, if_false, Int.toNat_one, Nat.add_sub_cancel, Int.reduceToNat,
      hdiv, hmod, Option.pure_def, Option.bind_eq_bind, Option.bind_some,
      getSleb128_ofInt hcol hcol']
  · have hval : (BitVec.ofInt 32 (dPc : ℤ)).toNat = dPc := by
      rw [BitVec.ofInt_natCast, BitVec.toNat_ofNat, Nat.mod_eq_of_lt (by omega)]
    simp only [List.cons_append, List.append_assoc, getEntry, if_true, hval,
      getLeb128_put (v := dPc) (by omega), getSleb128_ofInt hline hline',
      getSleb128_ofInt hcol hcol', Option.pure_def, Option.bind_eq_bind, Option.bind_some]

theorem putEntry_ne_nil (dPc dLine dCol : ℤ) : putEntry dPc dLine dCol ≠ [] := by
  unfold putEntry
  split <;> exact List.cons_ne_nil _ _

theorem Recorded.pc_ge {slots : List SourceLocSlot} : ∀ {lastPc : Nat} {line col : ℤ},
    Recorded lastPc line col slots → ∀ slot ∈ slots, lastPc ≤ slot.pc ∧ slot.pc < 2 ^ 32 := by
  induction slots with
  | nil => nofun
  | cons slot rest ih =>
    intro lastPc line col h other hother
    rcases List.mem_cons.mp hother with rfl | hother
    · exact ⟨h.1.1, h.1.2.1⟩
    · have := ih h.2 other hother
      exact ⟨h.1.1.trans this.1, this.2⟩

theorem compute_far {slots : List SourceLocSlot} {lastPc : Nat} {line col : ℤ}
    (h : ∀ slot ∈ slots, 2 ^ 31 ≤ slot.pc - lastPc ∧ slot.pc < 2 ^ 32) :
    computePc2lineInfo lastPc line col slots = [] := by
  induction slots with
  | nil => rfl
  | cons slot rest ih =>
    have hslot := h slot List.mem_cons_self
    have hrest := ih fun other hother => h other (List.mem_cons_of_mem _ hother)
    rw [computePc2lineInfo, if_pos (diffPc_far hslot.1 hslot.2), hrest, ite_self]

theorem compute_cons {slot : SourceLocSlot} {rest : List SourceLocSlot} {lastPc : Nat}
    {line col : ℤ} (h : Recorded lastPc line col (slot :: rest)) :
    computePc2lineInfo lastPc line col (slot :: rest) =
      if slot.pc - lastPc < 2 ^ 31 then
        putEntry (slot.pc - lastPc : Nat) (slot.lineNum - line) (slot.colNum - col) ++
          computePc2lineInfo slot.pc slot.lineNum slot.colNum rest
      else [] := by
  obtain ⟨⟨hpc, hlt, hline, -, hne⟩, hrest⟩ := h
  split
  · next hnear =>
    have hdiff : ¬ (slot.lineNum - line = 0 ∧ slot.colNum - col = 0) := by
      rintro ⟨hl, hc⟩
      exact hne (Prod.ext (sub_eq_zero.mp hl) (sub_eq_zero.mp hc))
    rw [computePc2lineInfo, if_neg (Int.not_lt.mpr hline.1), diffPc_near hpc hnear,
      if_neg (by omega), if_neg hdiff]
  · next hfar =>
    apply compute_far
    intro other hother
    rcases List.mem_cons.mp hother with rfl | hother
    · exact ⟨by omega, hlt⟩
    · have := hrest.pc_ge other hother
      exact ⟨by omega, this.2⟩

theorem positionAt_cons (start : ℤ × ℤ) (slot : SourceLocSlot) (rest : List SourceLocSlot)
    (pc : Nat) : positionAt start (slot :: rest) pc =
      if slot.pc ≤ pc then positionAt (slot.lineNum, slot.colNum) rest pc
      else positionAt start rest pc := by
  unfold positionAt
  by_cases h : slot.pc ≤ pc
  · rw [if_pos h, List.filter_cons_of_pos (by simpa using h), List.getLast?_cons]
    cases (rest.filter fun slot => slot.pc ≤ pc).getLast? <;> rfl
  · rw [if_neg h, List.filter_cons_of_neg (by simpa using h)]

theorem positionAt_before {start : ℤ × ℤ} {slots : List SourceLocSlot} {pc : Nat}
    (h : ∀ slot ∈ slots, pc < slot.pc) : positionAt start slots pc = start := by
  have hnil : slots.filter (fun slot => slot.pc ≤ pc) = [] :=
    List.filter_eq_nil_iff.mpr fun slot hs => by simpa using h slot hs
  rw [positionAt, hnil]
  rfl

theorem nearSlots_subset {slots : List SourceLocSlot} : ∀ {lastPc : Nat},
    nearSlots lastPc slots ⊆ slots := by
  induction slots with
  | nil =>
    intro _
    exact List.Subset.refl _
  | cons slot rest ih =>
    intro lastPc
    rw [nearSlots]
    split
    · exact List.cons_subset_cons _ ih
    · exact List.nil_subset _

theorem findLoop_compute (pcValue : Nat) {slots : List SourceLocSlot} :
    ∀ {n lastPc : Nat} {line col : ℤ}, Recorded lastPc line col slots →
    Coordinate line → Coordinate col →
    (computePc2lineInfo lastPc line col slots).length ≤ n →
    findLoop pcValue n lastPc line col (computePc2lineInfo lastPc line col slots) =
      some (positionAt (line, col) (nearSlots lastPc slots) pcValue) := by
  induction slots with
  | nil => intros; rw [computePc2lineInfo, findLoop]; rfl
  | cons slot rest ih =>
    intro n lastPc line col h hline hcol hn
    have hpc := h.1.1
    have hlt := h.1.2.1
    have hline' := h.1.2.2.1
    have hcol' := h.1.2.2.2.1
    rw [compute_cons h] at hn ⊢
    rw [nearSlots]
    split
    · next hnear =>
      rw [if_pos hnear] at hn
      have hentry := @getEntry_put _ (slot.lineNum - line) (slot.colNum - col) hnear
        (by have := hline.2; have := hline'.1; omega) (by have := hline.1; have := hline'.2; omega)
        (by have := hcol.2; have := hcol'.1; omega) (by have := hcol.1; have := hcol'.2; omega)
        (computePc2lineInfo slot.pc slot.lineNum slot.colNum rest)
      generalize hbytes : putEntry ((slot.pc - lastPc : Nat) : ℤ) (slot.lineNum - line)
        (slot.colNum - col) = bytes at hn hentry ⊢
      cases bytes with
      | nil => exact absurd hbytes (putEntry_ne_nil _ _ _)
      | cons op p =>
        cases n with
        | zero => simp at hn
        | succ n =>
          have hsum : (lastPc + (slot.pc - lastPc)) % 2 ^ 32 = slot.pc := by
            rw [Nat.add_sub_cancel' hpc, Nat.mod_eq_of_lt hlt]
          rw [List.cons_append] at hentry ⊢
          rw [findLoop, hentry]
          simp only [hsum, add_sub_cancel]
          rw [positionAt_cons]
          split
          · next hbefore =>
            rw [if_neg (by omega), positionAt_before]
            intro other hother
            exact hbefore.trans_le (h.2.pc_ge other (nearSlots_subset hother)).1
          · next hafter =>
            rw [if_pos (by omega)]
            apply ih h.2 hline' hcol'
            simp only [List.cons_append, List.length_cons, List.length_append] at hn
            omega
    · rw [findLoop]
      rfl

theorem compute_eq_nil {slots : List SourceLocSlot} {lastPc : Nat} {line col : ℤ}
    (h : Recorded lastPc line col slots) :
    computePc2lineInfo lastPc line col slots = [] ↔ nearSlots lastPc slots = [] := by
  cases slots with
  | nil => exact iff_of_true rfl rfl
  | cons slot rest =>
    rw [compute_cons h, nearSlots]
    split
    · exact iff_of_false (List.append_ne_nil_of_left_ne_nil (putEntry_ne_nil _ _ _) _)
        (List.cons_ne_nil _ _)
    · exact iff_of_true rfl rfl

def Continues (line col : ℤ) (s : LineInfo) : Prop :=
  ∀ more, Recorded s.lineNumberLastPc s.lineNumberLast s.colNumberLast more →
    Recorded 0 line col (s.sourceLocSlots ++ more)

theorem addPc2lineInfo_continues {line col line' col' : ℤ} {s : LineInfo} {pc : Nat}
    (h : Continues line col s) (hpc : pc < 2 ^ 32) (hline : Coordinate line')
    (hcol : Coordinate col') : Continues line col (addPc2lineInfo s pc line' col') := by
  unfold addPc2lineInfo
  split
  · exact h
  · split
    · exact h
    · next hback =>
      split
      · exact h
      · next hsame =>
        intro more hmore
        rw [List.append_assoc]
        refine h _ ⟨⟨Nat.le_of_not_lt hback, hpc, hline, hcol, ?_⟩, hmore⟩
        rintro heq
        exact hsame (Prod.mk.injEq .. ▸ heq)

theorem recorded_of_calls (line col : ℤ) (size : Nat) (calls : List SourceLocSlot)
    (hcalls : ∀ c ∈ calls, c.pc < 2 ^ 32 ∧ Coordinate c.lineNum ∧ Coordinate c.colNum) :
    Recorded 0 line col (calls.foldl (fun s c => addPc2lineInfo s c.pc c.lineNum c.colNum)
      (LineInfo.start line col size)).sourceLocSlots := by
  have run (s : LineInfo) (hs : Continues line col s) :
      Continues line col (calls.foldl (fun s c => addPc2lineInfo s c.pc c.lineNum c.colNum) s) := by
    induction calls generalizing s with
    | nil => exact hs
    | cons c rest ih =>
      obtain ⟨hpc, hline, hcol⟩ := hcalls c List.mem_cons_self
      exact ih (fun other hother => hcalls other (List.mem_cons_of_mem _ hother)) _
        (addPc2lineInfo_continues hs hpc hline hcol)
  have := run (LineInfo.start line col size) (fun more hmore => hmore) [] trivial
  rwa [List.append_nil] at this

/-- The search gives the position of the last slot at or before the counter, and does not take
its failure exit. -/
def FindsLine (line col : ℤ) (slots : List SourceLocSlot) (pc : Nat) : Prop :=
  findLineNum (createFunction line col slots) pc =
    ⟨(positionAt (line, col) slots pc).1, (positionAt (line, col) slots pc).2, false⟩

instance (line col : ℤ) (slots : List SourceLocSlot) (pc : Nat) :
    Decidable (FindsLine line col slots pc) := inferInstanceAs (Decidable (_ = _))

theorem findLineNum_near {slots : List SourceLocSlot} {line col : ℤ}
    (h : Recorded 0 line col slots) (hline : Coordinate line) (hcol : Coordinate col) (pc : Nat) :
    findLineNum (createFunction line col slots) pc =
      if nearSlots 0 slots = [] then ⟨line, 1, true⟩
      else ⟨(positionAt (line, col) (nearSlots 0 slots) pc).1,
        (positionAt (line, col) (nearSlots 0 slots) pc).2, false⟩ := by
  have hfind := findLoop_compute pc h hline hcol le_rfl
  have hnil := compute_eq_nil h
  unfold findLineNum createFunction
  cases htable : computePc2lineInfo 0 line col slots with
  | nil => rw [if_pos (hnil.mp htable)]; rfl
  | cons op p =>
    rw [htable] at hfind hnil
    rw [if_neg (fun hn => List.cons_ne_nil _ _ (hnil.mpr hn))]
    simp only [Option.bind_some, hfind]

theorem positionAt_far {slots : List SourceLocSlot} {pc : Nat} : ∀ {lastPc : Nat} {line col : ℤ},
    Recorded lastPc line col slots → (∀ slot ∈ slots.drop (nearSlots lastPc slots).length,
      pc < slot.pc) →
    positionAt (line, col) slots pc = positionAt (line, col) (nearSlots lastPc slots) pc := by
  induction slots with
  | nil => intros; rfl
  | cons slot rest ih =>
    intro lastPc line col h hfar
    rw [nearSlots] at hfar ⊢
    split at hfar
    · next hnear =>
      rw [if_pos hnear, positionAt_cons, positionAt_cons]
      split
      · exact ih h.2 hfar
      · next hbefore =>
        have hrest (other) (hother : other ∈ rest) : pc < other.pc :=
          (Nat.lt_of_not_le hbefore).trans_le (h.2.pc_ge other hother).1
        rw [positionAt_before hrest, positionAt_before fun o ho => hrest o (nearSlots_subset ho)]
    · next hfar' =>
      rw [if_neg hfar']
      exact positionAt_before hfar

/-- The position is found exactly when the table has an entry and no slot at or before the counter
lies out of reach, unless its position is again that of the last slot within reach. -/
theorem finds_line_iff {line col : ℤ} {slots : List SourceLocSlot} (hline : Coordinate line)
    (hcol : Coordinate col) (h : Recorded 0 line col slots) (pc : Nat) :
    FindsLine line col slots pc ↔
      nearSlots 0 slots ≠ [] ∧ ((∀ slot ∈ slots.drop (nearSlots 0 slots).length, pc < slot.pc) ∨
        positionAt (line, col) slots pc = positionAt (line, col) (nearSlots 0 slots) pc) := by
  rw [FindsLine, findLineNum_near h hline hcol]
  split
  · next hnil => exact iff_of_false (by simp) (fun hc => hc.1 hnil)
  · next hne =>
    rw [FoundLine.mk.injEq]
    constructor
    · rintro ⟨h1, h2, -⟩
      exact ⟨hne, .inr (Prod.ext h1.symm h2.symm)⟩
    · rintro ⟨-, hfar | hsame⟩
      · rw [positionAt_far h hfar]
        exact ⟨rfl, rfl, rfl⟩
      · rw [hsame]
        exact ⟨rfl, rfl, rfl⟩

theorem finds_line_two_slots :
    FindsLine 10 5 [⟨0, 11, 3⟩, ⟨70, 9, 40⟩] 69 :=
  (finds_line_iff (by decide) (by decide) (by decide) 69).mpr (by decide)

/-- A function without slots: the failure exit reports column 1. -/
theorem no_slots_takes_failure_exit :
    ¬ FindsLine 10 5 [] 0 ∧ findLineNum (createFunction 10 5 []) 0 = ⟨10, 1, true⟩ := by
  decide

def changes (line col : ℤ) : List SourceLocSlot → List SourceLocSlot
  | [] => []
  | c :: rest =>
    if c.lineNum = line ∧ c.colNum = col then changes line col rest
    else c :: changes c.lineNum c.colNum rest

def recordCalls (s : LineInfo) (calls : List SourceLocSlot) : LineInfo :=
  calls.foldl (fun s c => addPc2lineInfo s c.pc c.lineNum c.colNum) s

theorem recordCalls_slots {calls : List SourceLocSlot} {s : LineInfo}
    (hroom : s.sourceLocSlots.length + calls.length ≤ s.sourceLocSize)
    (hlast : ∀ c ∈ calls, s.lineNumberLastPc ≤ c.pc)
    (hsorted : calls.Pairwise fun c d => c.pc ≤ d.pc) :
    (recordCalls s calls).sourceLocSlots =
      s.sourceLocSlots ++ changes s.lineNumberLast s.colNumberLast calls := by
  induction calls generalizing s with
  | nil => simp [recordCalls, changes]
  | cons c rest ih =>
    obtain ⟨hc, hrest⟩ := List.pairwise_cons.mp hsorted
    have hpc := hlast c List.mem_cons_self
    rw [List.length_cons] at hroom
    have hadd : addPc2lineInfo s c.pc c.lineNum c.colNum =
        if c.lineNum = s.lineNumberLast ∧ c.colNum = s.colNumberLast then s
        else { s with
          sourceLocSlots := s.sourceLocSlots ++ [c], lineNumberLastPc := c.pc
          lineNumberLast := c.lineNum, colNumberLast := c.colNum } := by
      rw [addPc2lineInfo, if_neg (by omega), if_neg (Nat.not_lt.mpr hpc)]
    rw [recordCalls, List.foldl_cons, hadd, changes]
    split
    · exact ih (by omega) (fun d hd => hlast d (List.mem_cons_of_mem _ hd)) hrest
    · have hmore := ih (s := { s with
        sourceLocSlots := s.sourceLocSlots ++ [c], lineNumberLastPc := c.pc
        lineNumberLast := c.lineNum, colNumberLast := c.colNum })
        (by simp only [List.length_append, List.length_singleton]; omega) hc hrest
      rw [recordCalls] at hmore
      rw [hmore, List.append_assoc]
      rfl

theorem changes_subset {line col : ℤ} {calls : List SourceLocSlot} :
    changes line col calls ⊆ calls := by
  induction calls generalizing line col with
  | nil => exact List.Subset.refl _
  | cons c rest ih =>
    rw [changes]
    split
    · exact List.subset_cons_of_subset _ ih
    · exact List.cons_subset_cons _ ih

theorem positionAt_changes {line col : ℤ} {calls : List SourceLocSlot}
    (hsorted : calls.Pairwise fun c d => c.pc ≤ d.pc) (pc : Nat) :
    positionAt (line, col) (changes line col calls) pc = positionAt (line, col) calls pc := by
  induction calls generalizing line col with
  | nil => rfl
  | cons c rest ih =>
    obtain ⟨hc, hrest⟩ := List.pairwise_cons.mp hsorted
    rw [changes, positionAt_cons]
    split
    · next hsame =>
      rw [ih hrest, hsame.1, hsame.2, ite_self]
    · rw [positionAt_cons]
      split
      · exact ih hrest
      · next hbefore =>
        -- What follows lies behind the counter too.
        have hbehind (d) (hd : d ∈ rest) : pc < d.pc := (Nat.lt_of_not_le hbefore).trans_le (hc d hd)
        rw [positionAt_before hbehind, positionAt_before fun d hd => hbehind d (changes_subset hd)]

theorem changes_eq_nil {line col : ℤ} {calls : List SourceLocSlot} :
    changes line col calls = [] ↔ ∀ c ∈ calls, c.lineNum = line ∧ c.colNum = col := by
  induction calls generalizing line col with
  | nil => simp [changes]
  | cons c rest ih =>
    rw [changes, List.forall_mem_cons]
    split
    · next hsame => rw [ih, and_iff_right hsame]
    · next hdiff => exact iff_of_false (List.cons_ne_nil _ _) fun h => hdiff h.1

theorem nearSlots_of_lt {slots : List SourceLocSlot} {lastPc : Nat}
    (h : ∀ slot ∈ slots, slot.pc < 2 ^ 31) : nearSlots lastPc slots = slots := by
  induction slots generalizing lastPc with
  | nil => rfl
  | cons slot rest ih =>
    obtain ⟨hslot, hrest⟩ := List.forall_mem_cons.mp h
    rw [nearSlots, if_pos (by omega), ih hrest]

end TurboJS.Bytecode
