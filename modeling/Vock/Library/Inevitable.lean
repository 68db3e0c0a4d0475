import Mathlib.Logic.Relation

/-!
# What every run comes to

A step relation leaves open which step is taken. `Inevitable` says that a state of the goal is come
to however the choices fall: no run goes on for ever without it and none is stuck before it. It is
shown by an invariant, a measure that every step lowers and a step for every state short of the goal
(`Inevitable.of_measure`). A state that is reached and stuck short of the goal refutes it
(`Inevitable.goal_of_stuck`).
-/

namespace Vock.Library

open Relation

variable {σ : Type*} {step : σ → σ → Prop} {goal : σ → Prop}

/-- Every run from the state comes to the goal. -/
inductive Inevitable (step : σ → σ → Prop) (goal : σ → Prop) : σ → Prop
  | here {s} : goal s → Inevitable step goal s
  | ahead {s} : (∃ s', step s s') → (∀ s', step s s' → Inevitable step goal s') → Inevitable step goal s

namespace Inevitable

theorem of_measure (inv : σ → Prop) (keeps : ∀ s s', inv s → step s s' → inv s') (μ : σ → Nat)
    (lowers : ∀ s s', inv s → step s s' → μ s' < μ s) (moves : ∀ s, inv s → ¬ goal s → ∃ s', step s s') {s : σ}
    (h : inv s) : Inevitable step goal s := by
  induction hn : μ s using Nat.strongRecOn generalizing s with
  | ind n ih =>
    subst hn
    by_cases hgoal : goal s
    · exact .here hgoal
    · exact .ahead (moves s h hgoal) fun s' hs => ih _ (lowers s s' h hs) (keeps s s' h hs) rfl

theorem of_reaches (stays : ∀ s s', goal s → step s s' → goal s') {s t : σ} (h : Inevitable step goal s)
    (hst : ReflTransGen step s t) : Inevitable step goal t := by
  induction hst with
  | refl => exact h
  | tail _ hstep ih =>
    cases ih with
    | here hgoal => exact .here (stays _ _ hgoal hstep)
    | ahead _ hall => exact hall _ hstep

theorem goal_of_stuck (stays : ∀ s s', goal s → step s s' → goal s') {s t : σ} (h : Inevitable step goal s)
    (hst : ReflTransGen step s t) (hstuck : ∀ u, ¬ step t u) : goal t := by
  cases h.of_reaches stays hst with
  | here hgoal => exact hgoal
  | ahead hmoves _ =>
    obtain ⟨u, hu⟩ := hmoves
    exact absurd hu (hstuck u)

end Inevitable

end Vock.Library
