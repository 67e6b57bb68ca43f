import Mathlib.Data.List.Basic

namespace TurboJS.Foundation

/-! A value that arrives at most once, and the subscribers that it is delivered to. -/

universe u v

/-- The value, once it has arrived, and the subscribers that wait for it. -/
structure Deferred (σ : Type u) (ω : Type v) where
  value : Option ω
  waiting : List σ

inductive DeferredOp (σ : Type u) (ω : Type v) where
  | subscribe (s : σ)
  | settle (w : ω)

variable {σ : Type u} {ω : Type v}

def DeferredOp.subscribers : DeferredOp σ ω → List σ
  | .subscribe s => [s]
  | .settle _ => []

def Deferred.step (d : Deferred σ ω) : DeferredOp σ ω → Deferred σ ω × List (σ × ω)
  | .subscribe s =>
    match d.value with
    | none => ({ d with waiting := d.waiting ++ [s] }, [])
    | some w => (d, [(s, w)])
  | .settle w =>
    match d.value with
    | none => (⟨some w, []⟩, d.waiting.map (·, w))
    | some _ => (d, [])

/-- A cell that some operations have led to, with all its subscribers and all it has delivered. -/
inductive Deferred.Reached : Deferred σ ω → List σ → List (σ × ω) → Prop where
  | fresh : Reached ⟨none, []⟩ [] []
  | step {d : Deferred σ ω} {subs : List σ} {out : List (σ × ω)} (h : Reached d subs out)
      (op : DeferredOp σ ω) : Reached (d.step op).1 (subs ++ op.subscribers) (out ++ (d.step op).2)

/-- Who waits for a value and what has been delivered: everybody and nothing before the value,
nobody and everything after it. -/
theorem Deferred.Reached.exactly_once {d : Deferred σ ω} {subs : List σ} {out : List (σ × ω)}
    (h : d.Reached subs out) :
    (d.value = none → d.waiting = subs ∧ out = []) ∧
    ∀ w, d.value = some w → d.waiting = [] ∧ out = subs.map (·, w) := by
  induction h with
  | fresh => exact ⟨fun _ => ⟨rfl, rfl⟩, fun w hw => by cases hw⟩
  | @step d subs out _ op ih =>
    obtain ⟨hnone, hsome⟩ := ih
    cases op with
    | subscribe s =>
      cases hv : d.value with
      | none =>
        obtain ⟨hwait, hout⟩ := hnone hv
        simp [Deferred.step, DeferredOp.subscribers, hv, hwait, hout]
      | some w =>
        obtain ⟨hwait, hout⟩ := hsome w hv
        simp [Deferred.step, DeferredOp.subscribers, hv, hwait, hout]
    | settle w' =>
      cases hv : d.value with
      | none =>
        obtain ⟨hwait, hout⟩ := hnone hv
        simp [Deferred.step, DeferredOp.subscribers, hv, hwait, hout]
      | some w =>
        obtain ⟨hwait, hout⟩ := hsome w hv
        simp [Deferred.step, DeferredOp.subscribers, hv, hwait, hout]

end TurboJS.Foundation
