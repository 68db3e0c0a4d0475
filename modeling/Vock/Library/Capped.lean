import Mathlib.Order.Nat
import Vock.Library.Answer

/-!
# Limits

A family of partial functions with a limit on the size of what they make is capped if the limit does nothing but cut
off: what is made only grows, stays within the limit, and is the same for every limit that it is within. The answers
for all limits are then those for one (`Capped.exact`). Functions one after the other are capped if each one is, and
so is a loop if its rounds are.
-/

namespace Vock.Library

variable {σ τ ρ : Type*}

/-- The limit only cuts off. `size` and `size'` measure what is made so far. -/
structure Capped (f : Nat → σ → Option ρ) (size : σ → Nat) (size' : ρ → Nat) : Prop where
  grows : ∀ {limit s r}, f limit s = some r → size s ≤ size' r
  within : ∀ {limit s r}, f limit s = some r → size s ≤ limit → size' r ≤ limit
  same : ∀ {limit limit' s r}, f limit s = some r → size' r ≤ limit' → f limit' s = some r

namespace Capped

variable {f : Nat → σ → Option ρ} {size : σ → Nat} {size' : ρ → Nat}

/-- One function after the other. -/
theorem bind {f : Nat → σ → Option τ} {g : Nat → τ → Option ρ} {mid : τ → Nat} (hf : Capped f size mid)
    (hg : Capped g mid size') : Capped (fun limit s => (f limit s).bind (g limit)) size size' where
  grows h := by
    obtain ⟨t, ht, hr⟩ := Option.bind_eq_some_iff.mp h
    exact (hf.grows ht).trans (hg.grows hr)
  within h hs := by
    obtain ⟨t, ht, hr⟩ := Option.bind_eq_some_iff.mp h
    exact hg.within hr (hf.within ht hs)
  same h hle := by
    obtain ⟨t, ht, hr⟩ := Option.bind_eq_some_iff.mp h
    exact Option.bind_eq_some_iff.mpr ⟨t, hf.same ht ((hg.grows hr).trans hle), hg.same hr hle⟩

/-- A function that makes nothing has no use for the limit. -/
theorem reading {g : σ → Option ρ} (h : ∀ {s r}, g s = some r → size' r = size s) :
    Capped (fun _ s => g s) size size' where
  grows hr := (h hr).ge
  within hr hs := (h hr).le.trans hs
  same hr _ := hr

theorem comp (hf : Capped f size size') (k : τ → σ) : Capped (fun limit t => f limit (k t)) (size ∘ k) size' :=
  ⟨hf.grows, hf.within, hf.same⟩

/-- What is read first decides which function is next. -/
theorem after {g : σ → Option τ} {h : Nat → σ → τ → Option ρ}
    (hh : ∀ t, Capped (fun limit s => h limit s t) size size') :
    Capped (fun limit s => (g s).bind (h limit s)) size size' where
  grows hr := by
    obtain ⟨t, -, hr⟩ := Option.bind_eq_some_iff.mp hr
    exact (hh t).grows hr
  within hr hs := by
    obtain ⟨t, -, hr⟩ := Option.bind_eq_some_iff.mp hr
    exact (hh t).within hr hs
  same hr hle := by
    obtain ⟨t, ht, hr⟩ := Option.bind_eq_some_iff.mp hr
    exact Option.bind_eq_some_iff.mpr ⟨t, ht, (hh t).same hr hle⟩

/-- A loop whose rounds are capped. -/
theorem repeatFor {f : Nat → σ → Option (σ ⊕ ρ)} (hf : Capped f size (Sum.elim size size')) (n : Nat) :
    Capped (fun limit => Library.repeatFor (f limit) n) size size' := by
  induction n with
  | zero => exact ⟨nofun, nofun, nofun⟩
  | succ n ih =>
    refine hf.bind (g := fun limit => Sum.elim (Library.repeatFor (f limit) n) some) ⟨?_, ?_, ?_⟩
    · rintro limit (s | r') r h
      · exact ih.grows h
      · exact (congrArg size' (Option.some.inj h)).le
    · rintro limit (s | r') r h hs
      · exact ih.within h hs
      · exact (congrArg size' (Option.some.inj h)).ge.trans hs
    · rintro limit limit' (s | r') r h hle
      · exact ih.same h hle
      · exact h

/-- The answer for one limit is the answer for all limits that it is within, and for the others there is none. -/
theorem exact (hf : Capped f size size') {limit limit' : Nat} {s : σ} {r : ρ} (h : f limit s = some r)
    (start : size s = 0) : f limit' s = if size' r ≤ limit' then some r else none := by
  split
  next hle => exact hf.same h hle
  next hgt =>
    refine Option.eq_none_iff_forall_ne_some.mpr fun r' h' => hgt ?_
    have below : size' r' ≤ limit' := hf.within h' (start.trans_le (Nat.zero_le limit'))
    have above : size' r ≤ limit := hf.within h (start.trans_le (Nat.zero_le limit))
    have eq : some r' = some r := (hf.same h' (by omega)).symm.trans h
    exact Option.some.inj eq ▸ below

end Capped

end Vock.Library
