import Mathlib.Logic.Relation

/-!
# Loops that answer

The body of a loop is a function `f : σ → Option (σ ⊕ ρ)`: it fails (`none`), goes on with a new
state (`Sum.inl`) or leaves the loop with an answer (`Sum.inr`). `repeatFor` runs the body a bounded
number of times; `Ends` says without a bound what the loop answers. Where every round lowers a
measure, the two agree as soon as the bound exceeds the measure (`repeatFor_eq_some_iff`), so that
nothing said about the loop depends on the bound.
-/

namespace Vock.Library

open Relation

variable {σ ρ : Type*} {f : σ → Option (σ ⊕ ρ)} {s : σ}

/-- At most `n` rounds of the body `f`, from the state `s`. -/
def repeatFor (f : σ → Option (σ ⊕ ρ)) : Nat → σ → Option ρ
  | 0, _ => none
  | n + 1, s => (f s).bind (Sum.elim (repeatFor f n) some)

/-- One round that goes on. -/
def Continues (f : σ → Option (σ ⊕ ρ)) (s s' : σ) : Prop := f s = some (.inl s')

/-- The states a loop gets to, the first one included. -/
abbrev Visits (f : σ → Option (σ ⊕ ρ)) : σ → σ → Prop := ReflTransGen (Continues f)

/-- The loop is left with an answer. -/
inductive Ends (f : σ → Option (σ ⊕ ρ)) : σ → ρ → Prop
  | leave {s r} : f s = some (.inr r) → Ends f s r
  | goOn {s s' r} : Continues f s s' → Ends f s' r → Ends f s r

/-- A round that fails leaves no answer, and each of the others leaves at most one. -/
theorem Ends.unique {r r' : ρ} (h : Ends f s r) (h' : Ends f s r') : r = r' := by
  induction h with
  | leave hs =>
    cases h' with
    | leave hs' => exact Sum.inr.inj (Option.some.inj (hs.symm.trans hs'))
    | goOn hs' _ => cases hs.symm.trans hs'
  | goOn hs _ ih =>
    cases h' with
    | leave hs' => cases (Eq.symm hs).trans hs'
    | goOn hs' rest =>
      cases (Eq.symm hs).trans hs'
      exact ih rest

/-- What every round keeps, and the last round turns into `Q`, holds of the answer. -/
theorem Ends.invariant {P : σ → Prop} {Q : ρ → Prop}
    (keeps : ∀ s s', Continues f s s' → P s → P s')
    (leaves : ∀ s r, f s = some (.inr r) → P s → Q r) {r : ρ} (h : Ends f s r) (hs : P s) :
    Q r := by
  induction h with
  | leave hr => exact leaves _ _ hr hs
  | goOn hstep _ ih => exact ih (keeps _ _ hstep hs)

/-- Where every round lowers `μ`, more rounds than `μ` says find the answer if there is one. -/
theorem repeatFor_eq_some_iff {μ : σ → Nat} (lowers : ∀ s s', Continues f s s' → μ s' < μ s)
    {n : Nat} (hn : μ s < n) (r : ρ) : repeatFor f n s = some r ↔ Ends f s r := by
  induction n generalizing s with
  | zero => exact absurd hn (Nat.not_lt_zero _)
  | succ n ih =>
    cases hs : f s with
    | none =>
      have failed : repeatFor f (n + 1) s = none := by rw [repeatFor, hs]; rfl
      rw [failed]
      refine ⟨nofun, fun h => ?_⟩
      cases h with
      | leave h | goOn h _ => cases hs.symm.trans h
    | some x =>
      cases x with
      | inl s' =>
        have gone : repeatFor f (n + 1) s = repeatFor f n s' := by rw [repeatFor, hs]; rfl
        have hlt : μ s' < n := Nat.lt_of_lt_of_le (lowers s s' hs) (Nat.le_of_lt_succ hn)
        rw [gone, ih hlt]
        refine ⟨.goOn hs, fun h => ?_⟩
        cases h with
        | leave h => cases hs.symm.trans h
        | goOn h rest => cases hs.symm.trans h; exact rest
      | inr r' =>
        have left : repeatFor f (n + 1) s = some r' := by rw [repeatFor, hs]; rfl
        rw [left]
        refine ⟨fun h => .leave (hs.trans (congrArg (some ∘ Sum.inr) (Option.some.inj h))), fun h => ?_⟩
        exact congrArg some ((Ends.leave hs).unique h)

end Vock.Library
