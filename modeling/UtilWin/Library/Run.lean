import Mathlib.Data.List.Basic

/-!
# Runs of labelled step relations

A component that is called again and again is a step relation whose labels are what a caller can
see.  `Run step s₀ tr s` says that from `s₀` the labels `tr`, oldest first, can happen in that order
and end in `s`.  Runs grow at the end, because an invariant talks about the past.

* `Run.invariant`: what holds at the start and is kept by every step holds along every run.  The
  invariant may speak of the trace as well as of the state.
* `Simulation.run`: if every step is matched by a step with the same label of another relation, every
  trace of the one is a trace of the other.
-/

namespace UtilWin

universe u v w

variable {σ : Type u} {τ : Type v} {ℓ : Type w}

/-- The runs of a step relation from a state. -/
inductive Run (step : σ → ℓ → σ → Prop) (s₀ : σ) : List ℓ → σ → Prop where
  /-- Nothing has happened. -/
  | nil : Run step s₀ [] s₀
  /-- One more step. -/
  | snoc {tr : List ℓ} {s t : σ} {a : ℓ} : Run step s₀ tr s → step s a t →
      Run step s₀ (tr ++ [a]) t

/-- **The invariant rule.** -/
theorem Run.invariant {step : σ → ℓ → σ → Prop} {s₀ : σ} {Inv : List ℓ → σ → Prop}
    (h0 : Inv [] s₀)
    (hstep : ∀ {tr : List ℓ} {s t : σ} {a : ℓ}, Inv tr s → step s a t → Inv (tr ++ [a]) t)
    {tr : List ℓ} {s : σ} (hrun : Run step s₀ tr s) : Inv tr s := by
  induction hrun with
  | nil => exact h0
  | snoc _ hs ih => exact hstep ih hs

/-- Every step of one relation is matched, label for label, by a step of the other. -/
structure Simulation (step : σ → ℓ → σ → Prop) (astep : τ → ℓ → τ → Prop)
    (R : σ → τ → Prop) : Prop where
  /-- The matching step. -/
  forth : ∀ {s t : σ} {a : ℓ} {x : τ}, R s x → step s a t → ∃ y, astep x a y ∧ R t y

/-- **Trace inclusion.** -/
theorem Simulation.run {step : σ → ℓ → σ → Prop} {astep : τ → ℓ → τ → Prop} {R : σ → τ → Prop}
    (sim : Simulation step astep R) {s₀ s : σ} {x₀ : τ} {tr : List ℓ} (h0 : R s₀ x₀)
    (hrun : Run step s₀ tr s) : ∃ x, Run astep x₀ tr x ∧ R s x := by
  induction hrun with
  | nil => exact ⟨x₀, Run.nil, h0⟩
  | snoc _ hs ih =>
    obtain ⟨x, hx, hR⟩ := ih
    obtain ⟨y, hy, hR'⟩ := sim.forth hR hs
    exact ⟨y, hx.snoc hy, hR'⟩

end UtilWin
