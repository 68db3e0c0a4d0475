import Mathlib.Logic.Basic

/-!
# Values that are kept

A computation over a state that holds what was computed before. What is to be proved of it is that it gives a
value from every state that is valid, and leaves the state valid (`Gives`); such facts compose along the
computation (`Gives.bind`), and keeping a value makes no difference (`gives_cached`).
-/

namespace Vock.Library

variable {σ β γ : Type}

/-- The computation gives the value from every state with `P`, and leads to one with `Q`. -/
def Gives (P : σ → Prop) (m : StateM σ β) (b : β) (Q : σ → Prop) : Prop := ∀ s, P s → ∃ t, m s = (b, t) ∧ Q t

/-- Keeps a value that there is. -/
def keepSome (keep : β → σ → σ) : Option β → StateM σ (Option β)
  | none => pure none
  | some b => fun s => (some b, keep b s)

/-- The value that the state has, or the one that is computed, which is kept from then on. -/
def cached (look : σ → Option β) (keep : β → σ → σ) (compute : StateM σ (Option β)) : StateM σ (Option β) := fun s =>
  match look s with
  | some b => (some b, s)
  | none => (compute >>= keepSome keep) s

variable {P Q R : σ → Prop} {m : StateM σ β}

theorem gives_pure (b : β) : Gives P (pure b) b P := fun s hs => ⟨s, rfl, hs⟩

theorem Gives.bind {f : β → StateM σ γ} {b : β} {c : γ} (hm : Gives P m b Q)
    (hf : Gives Q (f b) c R) : Gives P (m >>= f) c R := by
  intro s hs
  obtain ⟨t, hmt, ht⟩ := hm s hs
  obtain ⟨r, hfr, hr⟩ := hf t ht
  refine ⟨r, ?_, hr⟩
  change (fun p : β × σ => f p.1 p.2) (m s) = _
  rw [hmt]
  exact hfr

theorem Gives.map {b : β} (hm : Gives P m b Q) (f : β → γ) : Gives P (f <$> m) (f b) Q := by
  intro s hs
  obtain ⟨t, hmt, ht⟩ := hm s hs
  refine ⟨t, ?_, ht⟩
  change (fun p : β × σ => (f p.1, p.2)) (m s) = _
  rw [hmt]

/-- A value is kept without a difference, where what the state has is what is computed. -/
theorem gives_cached {look : σ → Option β} {keep : β → σ → σ} {compute : StateM σ (Option β)} {v : Option β}
    (hlook : ∀ s, P s → ∀ b, look s = some b → v = some b) (hcompute : Gives P compute v P)
    (hkeep : ∀ s, P s → ∀ b, v = some b → P (keep b s)) : Gives P (cached look keep compute) v P := by
  have hkept : Gives P (keepSome keep v) v P := by
    cases v with
    | none => exact gives_pure none
    | some b => exact fun s hs => ⟨keep b s, rfl, hkeep s hs b rfl⟩
  intro s hs
  unfold cached
  cases hl : look s with
  | some b => exact ⟨s, by rw [hlook s hs b hl], hs⟩
  | none => exact hcompute.bind hkept s hs

end Vock.Library
