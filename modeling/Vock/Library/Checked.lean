import Mathlib.Algebra.Group.Nat.Defs
import Mathlib.Control.Basic
import Vock.Library.Answer

/-!
# Computations that may stop

A program gives up with no answer (`none`), and goes on elsewhere; or it is stopped by a fault. A `Checked`
computation has both: its indices, bounds and numbers are tested as the machine tests them.

`Computes` compares a checked computation with one in `Option` that tests nothing: they agree, the answer satisfies
a postcondition, and only the faults that are allowed stop the first. There is one rule for each way to build a
computation; the rule for a loop asks for a measure, as a loop that goes on past its bound is a fault too.
-/

namespace Vock.Library

/-- What stops a program. -/
inductive Fault where
  /-- An index or a bound outside of what there is. -/
  | index
  /-- A text cut inside of a character. -/
  | boundary
  /-- A number that its type does not hold. -/
  | overflow
  /-- A vector that holds no more. -/
  | capacity
  /-- A loop or a recursion that goes on past its bound. -/
  | endless
  deriving Repr, DecidableEq

/-- A computation that may give up, and may be stopped. -/
abbrev Checked (α : Type) := OptionT (Except Fault) α

namespace Checked

variable {α β σ ρ : Type} {xs : List α}

/-- A computation that is not stopped. -/
def of (o : Option α) : Checked α := OptionT.mk (.ok o)

def stop (e : Fault) : Checked α := OptionT.mk (.error e)

@[simp] theorem of_some (a : α) : of (some a) = pure a := rfl

/-- Whether there is an answer, and which. -/
def attempt (x : Checked α) : Checked (Option α) := OptionT.mk (x.run.map some)

@[simp] theorem attempt_of (o : Option α) : attempt (of o) = pure o := rfl

/-- `xs[i]`. -/
def get (xs : List α) (i : Nat) : Checked α := xs[i]?.elim (stop .index) pure

/-- `xs[i] = x`. -/
def put (xs : List α) (i : Nat) (x : α) : Checked (List α) :=
  if i < xs.length then pure (xs.set i x) else stop .index

/-- `&xs[lo..hi]`. -/
def slice (xs : List α) (lo hi : Nat) : Checked (List α) :=
  if lo ≤ hi ∧ hi ≤ xs.length then pure ((xs.drop lo).take (hi - lo)) else stop .index

/-- A natural number in an unsigned type of `w` bits. -/
def fit (w n : Nat) : Checked Nat := if n < 2 ^ w then pure n else stop .overflow

/-- A difference in an unsigned type. -/
def sub (a b : Nat) : Checked Nat := if b ≤ a then pure (a - b) else stop .overflow

theorem get_eq {i : Nat} (h : i < xs.length) (d : α) : get xs i = pure (xs.getD i d) := by
  simp [get, List.getElem?_eq_getElem h]

theorem put_eq {i : Nat} (h : i < xs.length) (x : α) : put xs i x = pure (xs.set i x) := if_pos h

theorem get_add (xs : List α) (i j : Nat) : get xs (i + j) = get (xs.drop i) j := by
  rw [get, get, List.getElem?_drop]

section

variable {xs rest : List α} {i : Nat} {a : α}

/-- What is at a position is the first of what is left there. -/
theorem get_of_drop (h : xs.drop i = a :: rest) : get xs i = pure a := by
  rw [← Nat.add_zero i, get_add, h]
  rfl

theorem lt_of_drop (h : xs.drop i = a :: rest) : i < xs.length := by
  have := congrArg List.length h
  rw [List.length_drop, List.length_cons] at this
  omega

theorem drop_succ_of_drop (h : xs.drop i = a :: rest) : xs.drop (i + 1) = rest := by
  rw [← List.drop_drop, h]
  rfl

end

theorem slice_eq {lo hi : Nat} (h : lo ≤ hi) (h' : hi ≤ xs.length) :
    slice xs lo hi = pure ((xs.drop lo).take (hi - lo)) := if_pos ⟨h, h'⟩

theorem fit_eq {w n : Nat} (h : n < 2 ^ w) : fit w n = pure n := if_pos h

theorem sub_eq {a b : Nat} (h : b ≤ a) : sub a b = pure (a - b) := if_pos h

/-- At most `n` rounds of the body `f`; more are a fault. -/
def repeatFor (f : σ → Checked (σ ⊕ ρ)) : Nat → σ → Checked ρ
  | 0, _ => stop .endless
  | n + 1, s => f s >>= Sum.elim (repeatFor f n) pure

/-- A loop with an answer that its rounds leave as it is, where each of them lowers a measure. -/
theorem repeatFor_eq {g : σ → Checked (σ ⊕ ρ)} (answer : σ → ρ) (μ : σ → Nat)
    (step : ∀ s, g s = pure (.inr (answer s)) ∨ ∃ s', g s = pure (.inl s') ∧ answer s' = answer s ∧ μ s' < μ s)
    {n : Nat} {s : σ} (hn : μ s < n) : repeatFor g n s = pure (answer s) := by
  induction n generalizing s with
  | zero => exact absurd hn (Nat.not_lt_zero _)
  | succ n ih =>
    rcases step s with leaves | ⟨s', goes, same, lowers⟩
    · rw [repeatFor, leaves]
      rfl
    · rw [repeatFor, goes, ← same]
      exact ih (Nat.lt_of_lt_of_le lowers (Nat.le_of_lt_succ hn))

end Checked

open Checked

variable {α β σ ρ : Type} {may : Fault → Prop} {P : σ → Prop} {R : β → Prop} {a : α} {k : α → Checked β}

/-- The checked computation `x` computes what `o` does, with an answer in `Q`, unless it is stopped by a fault that
it may have. -/
def Computes (may : Fault → Prop) (x : Checked α) (o : Option α) (Q : α → Prop) : Prop :=
  (x = of o ∧ ∀ a, o = some a → Q a) ∨ ∃ e, may e ∧ x = stop e

namespace Computes

variable {x : Checked α} {o : Option α} {Q : α → Prop}

theorem answer (h : Q a) : Computes may (pure a) (some a) Q :=
  .inl ⟨rfl, fun _ ha => Option.some.inj ha ▸ h⟩

theorem giveUp : Computes may failure none Q := .inl ⟨rfl, nofun⟩

theorem option (h : ∀ a, o = some a → Q a) : Computes may (of o) o Q := .inl ⟨rfl, h⟩

theorem weaken (h : Computes may x o Q) {R : α → Prop} (hR : ∀ a, o = some a → Q a → R a) : Computes may x o R := by
  rcases h with ⟨rfl, hQ⟩ | stopped
  · exact .inl ⟨rfl, fun a ha => hR a ha (hQ a ha)⟩
  · exact .inr stopped

/-- One computation after the other. -/
theorem bind (h : Computes may x o Q) {k' : α → Option β}
    (hk : ∀ a, o = some a → Q a → Computes may (k a) (k' a) R) : Computes may (x >>= k) (o >>= k') R := by
  rcases h with ⟨rfl, hQ⟩ | ⟨e, he, rfl⟩
  · cases o with
    | none => exact giveUp
    | some a => exact hk a rfl (hQ a rfl)
  · exact .inr ⟨e, he, rfl⟩

/-- A computation that always answers, and what is computed with its answer. -/
theorem andThen (h : Computes may x (some a) Q) {o' : Option β}
    (hk : Q a → Computes may (k a) o' R) : Computes may (x >>= k) o' R := by
  rcases h with ⟨rfl, hQ⟩ | ⟨e, he, rfl⟩
  · exact hk (hQ a rfl)
  · exact .inr ⟨e, he, rfl⟩

theorem ite {c : Prop} [Decidable c] {y : Checked α} {o' : Option α} (hx : c → Computes may x o Q)
    (hy : ¬ c → Computes may y o' Q) : Computes may (if c then x else y) (if c then o else o') Q := by
  split
  · exact hx ‹c›
  · exact hy ‹¬ c›

/-- A loop over a list. The invariant may speak of what is left of the list. -/
theorem foldlM {g : β → α → Checked β} {f : β → α → β} {P : List α → β → Prop}
    (step : ∀ a as b, P (a :: as) b → Computes may (g b a) (some (f b a)) (P as)) {as : List α} {b : β}
    (h : P as b) : Computes may (as.foldlM g b) (some (as.foldl f b)) (P []) := by
  induction as generalizing b with
  | nil => exact answer h
  | cons a as ih =>
    exact (step a as b h).andThen ih

/-- A loop that answers: every round keeps the invariant and lowers the measure, or leaves the loop. -/
theorem repeatFor {g : σ → Checked (σ ⊕ ρ)} {f : σ → Option (σ ⊕ ρ)} {R : ρ → Prop} (μ : σ → Nat)
    (step : ∀ s, P s → Computes may (g s) (f s) (Sum.elim (fun s' => P s' ∧ μ s' < μ s) R)) {n : Nat} {s : σ}
    (hs : P s) (hn : μ s < n) : Computes may (Checked.repeatFor g n s) (Library.repeatFor f n s) R := by
  induction n generalizing s with
  | zero => exact absurd hn (Nat.not_lt_zero _)
  | succ n ih =>
    refine (step s hs).bind fun x _ hx => ?_
    cases x with
    | inl s' => exact ih hx.1 (Nat.lt_of_lt_of_le hx.2 (Nat.le_of_lt_succ hn))
    | inr r => exact answer hx

/-- Where no fault is allowed, nothing stops the computation. -/
theorem eq_of (h : Computes (fun _ => False) x o Q) : x = of o := by
  rcases h with ⟨hx, -⟩ | ⟨_, he, -⟩
  · exact hx
  · exact he.elim

end Computes

/-- The checked computation `x` is not stopped and does not give up, and its answer is in `Q`. -/
def Answers (x : Checked α) (Q : α → Prop) : Prop := ∃ a, x = pure a ∧ Q a

namespace Answers

variable {x : Checked α} {Q : α → Prop}

theorem of_pure (h : Q a) : Answers (pure a) Q := ⟨a, rfl, h⟩

theorem bind (h : Answers x Q) (hk : ∀ a, Q a → Answers (k a) R) :
    Answers (x >>= k) R := by
  obtain ⟨a, rfl, ha⟩ := h
  exact hk a ha

theorem weaken (h : Answers x Q) {R : α → Prop} (hR : ∀ a, Q a → R a) : Answers x R := by
  obtain ⟨a, hx, ha⟩ := h
  exact ⟨a, hx, hR a ha⟩

/-- A loop that answers: every round keeps the invariant and lowers the measure, or leaves the loop. -/
theorem repeatFor {g : σ → Checked (σ ⊕ ρ)} {R : ρ → Prop} (μ : σ → Nat)
    (step : ∀ s, P s → Answers (g s) (Sum.elim (fun s' => P s' ∧ μ s' < μ s) R)) {n : Nat} {s : σ} (hs : P s)
    (hn : μ s < n) : Answers (Checked.repeatFor g n s) R := by
  induction n generalizing s with
  | zero => exact absurd hn (Nat.not_lt_zero _)
  | succ n ih =>
    refine (step s hs).bind fun x hx => ?_
    cases x with
    | inl s' => exact ih hx.1 (Nat.lt_of_lt_of_le hx.2 (Nat.le_of_lt_succ hn))
    | inr r => exact of_pure hx

end Answers

/-- The checked computation `x` is not stopped, and where it answers the answer is in `Q`. -/
def Returns (x : Checked α) (Q : α → Prop) : Prop := ∃ o, x = of o ∧ ∀ a, o = some a → Q a

namespace Returns

variable {Q : α → Prop} {n : Nat} {kn : Nat → Checked β}

theorem giveUp : Returns failure Q := ⟨none, rfl, nofun⟩

theorem answer (h : Q a) : Returns (pure a) Q := ⟨some a, rfl, fun _ ha => Option.some.inj ha ▸ h⟩

theorem not_stop {e : Fault} : ¬ Returns (stop e) Q := by
  rintro ⟨o, ho, -⟩
  have h : (.error e : Except Fault (Option α)) = .ok o := congrArg OptionT.run ho
  cases h

/-- A number that its type does not hold is a fault, so a computation with it returns only where it is held. -/
theorem fit_bind {w : Nat} : Returns (fit w n >>= kn) R ↔ n < 2 ^ w ∧ Returns (kn n) R := by
  by_cases h : n < 2 ^ w
  · rw [fit_eq h, pure_bind]
    exact (and_iff_right h).symm
  · rw [fit, if_neg h]
    exact iff_of_false not_stop fun hn => h hn.1

theorem slice_bind {xs : List α} {lo hi : Nat} {kl : List α → Checked β} :
    Returns (slice xs lo hi >>= kl) R ↔
      (lo ≤ hi ∧ hi ≤ xs.length) ∧ Returns (kl ((xs.drop lo).take (hi - lo))) R := by
  by_cases h : lo ≤ hi ∧ hi ≤ xs.length
  · rw [slice_eq h.1 h.2, pure_bind]
    exact (and_iff_right h).symm
  · rw [slice, if_neg h]
    exact iff_of_false not_stop fun hn => h hn.1

end Returns

end Vock.Library
