import TurboJS.Foundation.Fallible

namespace TurboJS.Foundation

/-! Carrying one value to a list of nodes: a node without a label gets the value and goes on a
worklist, and a node that has another label already stops the pass. -/

universe u v

variable {ε : Type u} {σ ν α : Type v}

/-- The step of such a pass, seen through the labels and the worklist of its states. -/
def Carries [DecidableEq ν] (labels : σ → ν → Option α) (work : σ → List ν) (step : σ → ν → Except ε σ)
    (value : α) : Prop :=
  ∀ s b t, step s b = .ok t →
    labels s b = none ∧ labels t = Function.update (labels s) b (some value) ∧
      work t = work s ++ [b] ∨
    labels s b = some value ∧ labels t = labels s ∧ work t = work s

/-- What carrying a value to the nodes of a list does to the labels; `new` are the nodes that
had none. -/
structure Carried (value : α) (l : List ν) (before after : ν → Option α) (new : List ν) :
    Prop where
  nodup : new.Nodup
  fresh : ∀ b ∈ new, b ∈ l ∧ before b = none
  kept : ∀ b d, before b = some d → after b = some d
  carried : ∀ b ∈ l, after b = some value
  labelled : ∀ b, (after b).isSome = true → (before b).isSome = true ∨ b ∈ new

section

variable {value : α} {l : List ν} {b : ν} {before after : ν → Option α} {new : List ν}

theorem Carried.nil (labels : ν → Option α) : Carried value [] labels labels [] where
  nodup := .nil
  fresh := by simp
  kept _ _ h := h
  carried := by simp
  labelled _ h := .inl h

theorem Carried.cons_new [DecidableEq ν] (hb : before b = none)
    (h : Carried value l (Function.update before b (some value)) after new) :
    Carried value (b :: l) before after (b :: new) := by
  have hother : ∀ c, c ≠ b → Function.update before b (some value) c = before c :=
    fun c hc => Function.update_of_ne hc _ _
  have hbnew : b ∉ new := by
    intro hmem
    have := (h.fresh b hmem).2
    simp at this
  refine ⟨List.nodup_cons.mpr ⟨hbnew, h.nodup⟩, ?_, ?_, ?_, ?_⟩
  · intro c hc
    rcases List.mem_cons.mp hc with rfl | hc
    · exact ⟨List.mem_cons_self, hb⟩
    · obtain ⟨hl, hnone⟩ := h.fresh c hc
      have hcb : c ≠ b := fun heq => hbnew (heq ▸ hc)
      exact ⟨List.mem_cons_of_mem b hl, (hother c hcb).symm.trans hnone⟩
  · intro c d hc
    have hcb : c ≠ b := by
      rintro rfl
      rw [hb] at hc
      cases hc
    exact h.kept c d ((hother c hcb).trans hc)
  · intro c hc
    rcases List.mem_cons.mp hc with rfl | hc
    · exact h.kept c value (by simp)
    · exact h.carried c hc
  · intro c hc
    rcases h.labelled c hc with hin | hin
    · by_cases hcb : c = b
      · exact .inr (List.mem_cons.mpr (.inl hcb))
      · left
        rw [← hother c hcb]
        exact hin
    · exact .inr (List.mem_cons_of_mem b hin)

theorem Carried.cons_old (hb : before b = some value) (h : Carried value l before after new) :
    Carried value (b :: l) before after new where
  nodup := h.nodup
  fresh c hc := ⟨List.mem_cons_of_mem b (h.fresh c hc).1, (h.fresh c hc).2⟩
  kept := h.kept
  carried := by
    intro c hc
    rcases List.mem_cons.mp hc with rfl | hc
    · exact h.kept c value hb
    · exact h.carried c hc
  labelled := h.labelled

theorem Carried.isSome (h : Carried value l before after new) (hb : (before b).isSome = true) :
    (after b).isSome = true := by
  obtain ⟨v, hv⟩ := Option.isSome_iff_exists.mp hb
  rw [h.kept b v hv]
  rfl

theorem Carried.forall_label {P : α → Prop} (h : Carried value l before after new) (hv : P value)
    (hb : ∀ b d, before b = some d → P d) : ∀ b d, after b = some d → P d := by
  intro b d hd
  rcases h.labelled b (by rw [hd]; rfl) with hold | hnew
  · obtain ⟨v, hv'⟩ := Option.isSome_iff_exists.mp hold
    have hkept := h.kept b v hv'
    rw [hd, Option.some.injEq] at hkept
    exact hkept ▸ hb b v hv'
  · have hcarried := h.carried b (h.fresh b hnew).1
    rw [hd, Option.some.injEq] at hcarried
    exact hcarried ▸ hv

end

theorem Carries.foldlM [DecidableEq ν] {labels : σ → ν → Option α} {work : σ → List ν}
    {step : σ → ν → Except ε σ} {value : α} (hstep : Carries labels work step value)
    {l : List ν} {s t : σ} (h : l.foldlM step s = .ok t) :
    ∃ new, work t = work s ++ new ∧ Carried value l (labels s) (labels t) new := by
  induction l generalizing s with
  | nil =>
    cases h
    exact ⟨[], by simp, .nil _⟩
  | cons b l ih =>
    obtain ⟨u, hb, hrest⟩ := foldlM_cons_eq_ok.mp h
    obtain ⟨new, hwork, hcarried⟩ := ih hrest
    rcases hstep s b u hb with ⟨hnone, hlabels, hw⟩ | ⟨hsome, hlabels, hw⟩
    · rw [hlabels] at hcarried
      refine ⟨b :: new, ?_, hcarried.cons_new hnone⟩
      rw [hwork, hw, List.append_assoc]
      rfl
    · rw [hlabels] at hcarried
      exact ⟨new, by rw [hwork, hw], hcarried.cons_old hsome⟩

end TurboJS.Foundation
