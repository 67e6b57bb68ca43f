import Mathlib.Algebra.Order.Ring.Int

namespace TurboJS.Foundation

/-! Loops over elements of a memory, one at a time or several in one block. -/

variable {β σ : Type*} {e : Nat}

/-- An element of `e` cells. -/
abbrev Element (e : Nat) (β : Type*) := Fin e → β

def loadElement (m : Nat → β) (p : Nat) : Element e β := fun b => m (p + b)

def storeElement (m : Nat → β) (p : Nat) (v : Element e β) : Nat → β := fun q =>
  if h : p ≤ q ∧ q < p + e then v ⟨q - p, by omega⟩ else m q

/-- A loop that computes each element of a destination from the elements of the same index at some
sources, and notes it. -/
structure ElementLoop (σ : Type*) (e : Nat) (β : Type*) where
  sources : List Nat
  destination : Nat
  op : Nat → List (Element e β) → Element e β
  note : σ → Element e β → σ

namespace ElementLoop

variable (L : ElementLoop σ e β)

/-- What the loop computes for an index. -/
def value (i : Nat) (m : Nat → β) : Element e β :=
  L.op i (L.sources.map fun s => loadElement m (s + e * i))

/-- One round for one element. -/
def element (i : Nat) (st : σ × (Nat → β)) : σ × (Nat → β) :=
  (L.note st.1 (L.value i st.2),
    storeElement st.2 (L.destination + e * i) (L.value i st.2))

/-- So many elements from an index on. -/
def scalar : Nat → Nat → σ × (Nat → β) → σ × (Nat → β)
  | _, 0, st => st
  | i, n + 1, st => scalar (i + 1) n (L.element i st)

/-- Some elements that have been computed, stored and noted in their order. -/
def finishLanes (i : Nat) (lanes : Nat → Element e β) : Nat → σ × (Nat → β) → σ × (Nat → β)
  | 0, st => st
  | j + 1, st =>
    let st := finishLanes i lanes j st
    (L.note st.1 (lanes j), storeElement st.2 (L.destination + e * (i + j)) (lanes j))

/-- One round for `width` elements, which are all computed before the first is stored. -/
def block (width i : Nat) (st : σ × (Nat → β)) : σ × (Nat → β) :=
  L.finishLanes i (fun k => L.value (i + k) st.2) width st

/-- Blocks as long as they fit below `count`, with the index behind them; at most `fuel` many. -/
def blocks (width count : Nat) : Nat → Nat → σ × (Nat → β) → Nat × σ × (Nat → β)
  | 0, i, st => (i, st)
  | fuel + 1, i, st =>
    if i + width ≤ count then blocks width count fuel (i + width) (L.block width i st) else (i, st)

/-- The destination starts inside the first block of a source, behind its first cell. -/
def Ahead (width : Nat) : Prop :=
  ∃ s ∈ L.sources, s < L.destination ∧ L.destination < s + e * width

instance (width : Nat) : Decidable (L.Ahead width) := by
  unfold Ahead
  infer_instance

/-- What a block stores leaves the values of its further elements. -/
def Independent (width : Nat) : Prop :=
  ∀ (i j k : Nat) (lanes : Nat → Element e β) (st : σ × (Nat → β)), k ≤ j → j < width →
    L.value (i + j) (L.finishLanes i lanes k st).2 = L.value (i + j) st.2

variable {L} {i j n width count : Nat} {st : σ × (Nat → β)}

theorem scalar_add (m : Nat) : L.scalar i (n + m) st = L.scalar (i + n) m (L.scalar i n st) := by
  induction n generalizing i st with
  | zero => rw [Nat.zero_add, Nat.add_zero, scalar]
  | succ n ih =>
    rw [Nat.succ_add, scalar, scalar, ih]
    congr 1
    omega

theorem scalar_succ : L.scalar i (n + 1) st = L.element (i + n) (L.scalar i n st) := by
  rw [scalar_add, scalar, scalar]

theorem loadElement_store {m : Nat → β} {p q : Nat} {v : Element e β}
    (h : p + e ≤ q ∨ q + e ≤ p) :
    (loadElement (storeElement m p v) q : Element e β) = loadElement m q := by
  funext b
  have hb := b.isLt
  unfold loadElement storeElement
  rw [dif_neg (by omega)]

theorem independent_of_not_ahead (hahead : ¬ L.Ahead width) : L.Independent width := by
  intro i j k lanes st hk hj
  induction k with
  | zero => rfl
  | succ k ih =>
    rw [← ih (by omega)]
    unfold value
    congr 1
    refine List.map_congr_left fun s hs => ?_
    refine loadElement_store ?_
    have hside : L.destination ≤ s ∨ s + e * width ≤ L.destination := by
      by_contra hneither
      exact hahead ⟨s, hs, by omega, by omega⟩
    rcases hside with hle | hge
    · left
      have hmul : e * (i + k) + e ≤ e * (i + j) := by
        rw [← Nat.mul_succ]
        exact Nat.mul_le_mul_left e (by omega)
      omega
    · right
      have hmul : e * (i + j) + e ≤ e * (i + k) + e * width := by
        rw [← Nat.mul_succ, ← Nat.mul_add]
        exact Nat.mul_le_mul_left e (by omega)
      omega

theorem block_eq (h : L.Independent width) : L.block width i st = L.scalar i width st := by
  suffices hlanes : ∀ j ≤ width,
      L.finishLanes i (fun k => L.value (i + k) st.2) j st = L.scalar i j st from
    hlanes width (Nat.le_refl _)
  intro j hj
  induction j with
  | zero => rfl
  | succ j ih =>
    have hprefix := ih (by omega)
    have hvalue : L.value (i + j) (L.finishLanes i (fun k => L.value (i + k) st.2) j st).2 =
        L.value (i + j) st.2 := h i j j _ st (Nat.le_refl j) (by omega)
    rw [scalar_succ, finishLanes, ← hprefix, element, hvalue]

theorem blocks_eq (h : L.Independent width) (fuel : Nat) :
    ∃ n, L.blocks width count fuel i st = (i + n, L.scalar i n st) ∧ (n = 0 ∨ i + n ≤ count) := by
  induction fuel generalizing i st with
  | zero => exact ⟨0, rfl, .inl rfl⟩
  | succ fuel ih =>
    rw [blocks]
    split
    · rename_i hfits
      obtain ⟨n, hn, hle⟩ := @ih (i + width) (L.block width i st)
      refine ⟨width + n, ?_, .inr (by omega)⟩
      rw [hn, block_eq h, ← scalar_add, Nat.add_assoc]
    · exact ⟨0, rfl, .inl rfl⟩

theorem blocks_rest_eq (h : L.Independent width) (hi : i ≤ count) (fuel : Nat) :
    (let r := L.blocks width count fuel i st
     L.scalar r.1 (count - r.1) r.2) = L.scalar i (count - i) st := by
  obtain ⟨n, hn, hle⟩ : ∃ n, L.blocks width count fuel i st = (i + n, L.scalar i n st) ∧
      (n = 0 ∨ i + n ≤ count) := blocks_eq h fuel
  simp only [hn]
  rw [← scalar_add]
  congr 1
  omega

theorem storeElement_before {m : Nat → β} {p q : Nat} {v : Element e β} (h : q < p) :
    storeElement m p v q = m q := dif_neg (by omega)

theorem storeElement_at {m : Nat → β} {p : Nat} {v : Element e β} (b : Fin e) :
    storeElement m p v (p + b) = v b := by
  have hb := b.isLt
  rw [storeElement, dif_pos (by omega)]
  congr 1
  exact Fin.ext (by simp)

theorem element_snd : (L.element i st).2 =
    storeElement st.2 (L.destination + e * i) (L.value i st.2) := rfl

theorem finishLanes_succ_snd (lanes : Nat → Element e β) : (L.finishLanes i lanes (j + 1) st).2 =
    storeElement (L.finishLanes i lanes j st).2 (L.destination + e * (i + j)) (lanes j) := rfl

theorem storeElement_after {m : Nat → β} {p q : Nat} {v : Element e β} (h : p + e ≤ q) :
    storeElement m p v q = m q := dif_neg (by omega)

theorem scalar_before {q : Nat} (h : q < L.destination + e * i) :
    (L.scalar i n st).2 q = st.2 q := by
  induction n with
  | zero => rfl
  | succ n ih =>
    have hle : e * i ≤ e * (i + n) := Nat.mul_le_mul_left e (by omega)
    rw [scalar_succ, element_snd, storeElement_before (by omega), ih]

theorem scalar_after {q : Nat} (h : L.destination + e * (i + n) ≤ q) :
    (L.scalar i n st).2 q = st.2 q := by
  induction n with
  | zero => rfl
  | succ n ih =>
    have hnext : e * (i + (n + 1)) = e * (i + n) + e := Nat.mul_succ e _
    rw [scalar_succ, element_snd, storeElement_after (by omega), ih (by omega)]

theorem finishLanes_before {q : Nat} (lanes : Nat → Element e β)
    (h : q < L.destination + e * i) : (L.finishLanes i lanes j st).2 q = st.2 q := by
  induction j with
  | zero => rfl
  | succ j ih =>
    have hle : e * i ≤ e * (i + j) := Nat.mul_le_mul_left e (by omega)
    rw [finishLanes_succ_snd, storeElement_before (by omega), ih]

theorem blocks_before {q : Nat} (fuel : Nat) (h : q < L.destination + e * i) :
    (L.blocks width count fuel i st).2.2 q = st.2 q := by
  induction fuel generalizing i st with
  | zero => rfl
  | succ fuel ih =>
    have hle : e * i ≤ e * (i + width) := Nat.mul_le_mul_left e (by omega)
    rw [blocks]
    split
    · rw [ih (by omega)]
      exact finishLanes_before _ h
    · rfl

theorem blocks_index (fuel : Nat) : i ≤ (L.blocks width count fuel i st).1 := by
  induction fuel generalizing i st with
  | zero => exact Nat.le_refl i
  | succ fuel ih =>
    rw [blocks]
    split
    · exact Nat.le_trans (Nat.le_add_right i width) ih
    · exact Nat.le_refl i

theorem finishLanes_at (lanes : Nat → Element e β) {k : Nat} (hk : k < j) (b : Fin e) :
    (L.finishLanes i lanes j st).2 (L.destination + e * (i + k) + b) = lanes k b := by
  induction j with
  | zero => omega
  | succ j ih =>
    rw [finishLanes_succ_snd]
    rcases Nat.lt_succ_iff_lt_or_eq.mp hk with hlt | rfl
    · have hb := b.isLt
      have hle : e * (i + k) + e ≤ e * (i + j) := by
        rw [← Nat.mul_succ]
        exact Nat.mul_le_mul_left e (by omega)
      rw [storeElement_before (by omega), ih hlt]
    · exact storeElement_at b

theorem blocks_rest_at {s fuel : Nat} (hfits : i + width ≤ count) {k : Nat} (hk : k < width)
    (b : Fin e) (hvalue : L.value (i + k) st.2 = loadElement st.2 (s + e * (i + k))) :
    (let r := L.blocks width count (fuel + 1) i st
     (L.scalar r.1 (count - r.1) r.2).2 (L.destination + e * (i + k) + b)) =
      st.2 (s + e * (i + k) + b) := by
  have hb := b.isLt
  have hle : e * (i + k) + e ≤ e * (i + width) := by
    rw [← Nat.mul_succ]
    exact Nat.mul_le_mul_left e (by omega)
  have hindex : i + width ≤ (L.blocks width count (fuel + 1) i st).1 := by
    rw [blocks, if_pos hfits]
    exact blocks_index fuel
  have hfar : e * (i + width) ≤ e * (L.blocks width count (fuel + 1) i st).1 :=
    Nat.mul_le_mul_left e hindex
  have hrest : (let r := L.blocks width count (fuel + 1) i st
      (L.scalar r.1 (count - r.1) r.2).2 (L.destination + e * (i + k) + b)) =
        (L.blocks width count (fuel + 1) i st).2.2 (L.destination + e * (i + k) + b) :=
    scalar_before (by omega)
  rw [hrest, blocks, if_pos hfits, blocks_before fuel (by omega), block,
    finishLanes_at _ hk b, hvalue]
  rfl

theorem scalar_at_of_covered {s : Nat}
    (hcopy : ∀ i m, L.value i m = loadElement m (s + e * i)) {k : Nat} (hk : 0 < k) (hn : k < n)
    (b c : Fin e) (hcover : s + e * (i + k) + b = L.destination + e * i + c) :
    (L.scalar i n st).2 (L.destination + e * (i + k) + b) = st.2 (s + e * i + c) := by
  have hb := b.isLt
  have hc := c.isLt
  obtain ⟨k, rfl⟩ : ∃ k', k = 1 + k' := ⟨k - 1, by omega⟩
  obtain ⟨r, rfl⟩ : ∃ r, n = 1 + k + 1 + r := ⟨n - (1 + k + 1), by omega⟩
  have hnext : e * (i + (1 + k) + 1) = e * (i + (1 + k)) + e := Nat.mul_succ e _
  have hfirst : e * (i + 1) = e * i + e := Nat.mul_succ e i
  have hrest : (L.scalar i (1 + k + 1 + r) st).2 (L.destination + e * (i + (1 + k)) + b) =
      (L.scalar i (1 + k + 1) st).2 (L.destination + e * (i + (1 + k)) + b) := by
    rw [scalar_add]
    refine scalar_before ?_
    rw [show i + (1 + k + 1) = i + (1 + k) + 1 from rfl, hnext]
    omega
  have hkept : (L.scalar i (1 + k) st).2 (L.destination + e * i + c) =
      (L.element i st).2 (L.destination + e * i + c) := by
    rw [scalar_add]
    exact scalar_before (by omega)
  rw [hrest, scalar_succ, element_snd, storeElement_at, hcopy, loadElement, hcover, hkept,
    element_snd, storeElement_at, hcopy]
  rfl

theorem exists_blocks_ne {s : Nat} (fuel : Nat) (he : 0 < e)
    (hcopy : ∀ i m, L.value i m = loadElement m (s + e * i)) (hwidth : 1 < width)
    (hbehind : s < L.destination) (hinside : L.destination < s + e * width)
    (hfits : i + width ≤ count) {x y : β} (hxy : x ≠ y) (note : σ) :
    ∃ m : Nat → β,
      (let r := L.blocks width count (fuel + 1) i (note, m)
       L.scalar r.1 (count - r.1) r.2).2 ≠ (L.scalar i (count - i) (note, m)).2 := by
  -- the first cell that the first element covers and a later one reads
  obtain ⟨k, b, c, hk, hkwidth, hcover⟩ : ∃ (k : Nat) (b c : Fin e), 0 < k ∧ k < width ∧
      s + e * (i + k) + b = L.destination + e * i + c := by
    obtain ⟨d, hd⟩ : ∃ d, L.destination = s + d := ⟨L.destination - s, by omega⟩
    by_cases hnear : d < e
    · refine ⟨1, ⟨0, he⟩, ⟨e - d, by omega⟩, Nat.one_pos, hwidth, ?_⟩
      rw [hd, Nat.mul_succ]
      simp only
      omega
    · have hdiv := Nat.div_add_mod d e
      refine ⟨d / e, ⟨d % e, Nat.mod_lt d he⟩, ⟨0, he⟩, Nat.div_pos (by omega) he, ?_, ?_⟩
      · exact Nat.div_lt_of_lt_mul (by omega)
      · rw [hd, Nat.mul_add]
        simp only
        omega
  let m : Nat → β := fun q => if q = s + e * (i + k) + b then y else x
  refine ⟨m, fun heq => hxy ?_⟩
  have hblocks : (let r := L.blocks width count (fuel + 1) i (note, m)
      (L.scalar r.1 (count - r.1) r.2).2 (L.destination + e * (i + k) + b)) =
        m (s + e * (i + k) + b) := blocks_rest_at hfits hkwidth b (hcopy (i + k) m)
  have hscalar : (L.scalar i (count - i) (note, m)).2 (L.destination + e * (i + k) + b) =
      m (s + e * i + c) := scalar_at_of_covered hcopy hk (by omega) b c hcover
  simp only at hblocks
  rw [heq, hscalar] at hblocks
  have hother : s + e * i + c ≠ s + e * (i + k) + b := by omega
  simpa [m, hother] using hblocks

end ElementLoop

end TurboJS.Foundation
