import Mathlib.Logic.Relation

/-! # Runs of a transition system

A system starts in one of its initial states and takes steps. What holds
initially and is kept by every step holds in every state of every run.
-/

namespace HotSpot

/-- A transition system over the states `σ`. -/
structure TransitionSystem (σ : Type*) where
  init : σ → Prop
  step : σ → σ → Prop

namespace TransitionSystem

variable {σ : Type*} (sys : TransitionSystem σ)

/-- The states of the runs that start in an initial state. -/
def Reachable (state : σ) : Prop :=
  ∃ start, sys.init start ∧ Relation.ReflTransGen sys.step start state

variable {sys}

theorem Reachable.of_init {state : σ} (hinit : sys.init state) : sys.Reachable state :=
  ⟨state, hinit, .refl⟩

theorem Reachable.step {state next : σ} (hstate : sys.Reachable state)
    (hstep : sys.step state next) : sys.Reachable next := by
  obtain ⟨start, hinit, hrun⟩ := hstate
  exact ⟨start, hinit, hrun.tail hstep⟩

/-- The invariant rule. -/
theorem Reachable.invariant {P : σ → Prop} (hinit : ∀ state, sys.init state → P state)
    (hstep : ∀ state next, P state → sys.step state next → P next)
    {state : σ} (hstate : sys.Reachable state) : P state := by
  obtain ⟨start, hstart, hrun⟩ := hstate
  induction hrun with
  | refl => exact hinit start hstart
  | tail _ hlast ih => exact hstep _ _ ih hlast

end TransitionSystem

end HotSpot
