import Mathlib.Data.List.Pairwise

/-!
# Writes to a flat memory

A memory is a function from addresses to cells. A write puts a block of cells at an address (`blit`);
a patch is an address with its block, and a list of patches is written in order (`blitAll`). A cell
that no patch covers stays (`blitAll_of_not_covers`), and where the patches are apart each of them is
found whole in the end, whatever the order (`blitAll_of_covers`).
-/

namespace Vock.Library

open List

variable {β : Type*}

/-- The memory with the block at `off`. -/
def blit (m : Nat → β) (off : Nat) (block : List β) (i : Nat) : β :=
  if off ≤ i then block[i - off]?.getD (m i) else m i

/-- The address is inside the block at `off`. -/
def Covers (p : Nat × List β) (i : Nat) : Prop := p.1 ≤ i ∧ i < p.1 + p.2.length

/-- No address is inside both. -/
def Apart (p q : Nat × List β) : Prop := ∀ i, Covers p i → ¬ Covers q i

instance : Std.Symm (α := Nat × List β) Apart := ⟨fun _ _ h i hq hp => h i hp hq⟩

variable {m : Nat → β} {ps : List (Nat × List β)} {block : List β} {i off : Nat} {m' : Nat → β}

/-- Patches whose addresses do not overlap are apart. -/
theorem pairwise_apart
    (h : (ps.map fun p => (p.1, p.2.length)).Pairwise fun a b => a.1 + a.2 ≤ b.1 ∨ b.1 + b.2 ≤ a.1) :
    ps.Pairwise Apart := by
  rw [pairwise_map] at h
  refine h.imp fun {p q} hpq i hp hq => ?_
  obtain ⟨hp, hp'⟩ := hp
  obtain ⟨hq, hq'⟩ := hq
  omega

theorem blit_of_not_covers
    (h : ¬ Covers (off, block) i) : blit m off block i = m i := by
  unfold blit
  split
  next hle =>
    have hge : block.length ≤ i - off := by
      have hout : ¬ i < off + block.length := fun hlt => h ⟨hle, hlt⟩
      omega
    rw [getElem?_eq_none hge, Option.getD_none]
  next => rfl

theorem blit_of_covers
    (h : Covers (off, block) i) : block[i - off]? = some (blit m off block i) := by
  obtain ⟨hlo, hhi⟩ := h
  have hlt : i - off < block.length := by
    simp only at hlo hhi
    omega
  rw [blit, if_pos hlo, getElem?_eq_getElem hlt, Option.getD_some]

/-- A write looks at no other cell. -/
theorem blit_congr {m : Nat → β} (h : m i = m' i) (off : Nat) (block : List β) :
    blit m off block i = blit m' off block i := by
  rw [blit, h, blit]

/-- The patches, written in order. -/
def blitAll (m : Nat → β) (ps : List (Nat × List β)) : Nat → β :=
  ps.foldl (fun m p => blit m p.1 p.2) m

@[simp] theorem blitAll_cons (m : Nat → β) (p : Nat × List β) (ps : List (Nat × List β)) :
    blitAll m (p :: ps) = blitAll (blit m p.1 p.2) ps := rfl

theorem blitAll_of_not_covers
    (h : ∀ p ∈ ps, ¬ Covers p i) : blitAll m ps i = m i := by
  induction ps generalizing m with
  | nil => rfl
  | cons p ps ih =>
    rw [blitAll_cons, ih fun q hq => h q (mem_cons_of_mem p hq)]
    exact blit_of_not_covers (h p mem_cons_self)

theorem blitAll_congr {m : Nat → β} (h : m i = m' i) (ps : List (Nat × List β)) :
    blitAll m ps i = blitAll m' ps i := by
  induction ps generalizing m m' with
  | nil => exact h
  | cons p ps ih => exact ih (blit_congr h p.1 p.2)

/-- Where all the patches over a cell agree on it, that is what is found there. -/
theorem blitAll_of_agree {v : β}
    (h : ∀ p ∈ ps, Covers p i → p.2[i - p.1]? = some v) (hsome : ∃ p ∈ ps, Covers p i) :
    blitAll m ps i = v := by
  induction ps generalizing m with
  | nil => obtain ⟨p, hp, -⟩ := hsome; cases hp
  | cons q ps ih =>
    rw [blitAll_cons]
    have hps := fun p hp => h p (mem_cons_of_mem q hp)
    by_cases hrest : ∃ p ∈ ps, Covers p i
    · exact ih hps hrest
    · rw [blitAll_of_not_covers fun p hp hi => hrest ⟨p, hp, hi⟩]
      obtain ⟨p, hp, hi⟩ := hsome
      rcases mem_cons.mp hp with rfl | hp
      · exact Option.some.inj ((blit_of_covers hi).symm.trans (h p mem_cons_self hi))
      · exact absurd ⟨p, hp, hi⟩ hrest

theorem blitAll_of_covers (hapart : ps.Pairwise Apart)
    {p : Nat × List β} (hp : p ∈ ps) (hi : Covers p i) :
    p.2[i - p.1]? = some (blitAll m ps i) := by
  have hlt : i - p.1 < p.2.length := by
    obtain ⟨hlo, hhi⟩ := hi
    omega
  rw [getElem?_eq_getElem hlt]
  refine congrArg some (blitAll_of_agree (fun q hq hqi => ?_) ⟨p, hp, hi⟩).symm
  -- two patches over one cell are not apart, so they are the same
  by_cases hpq : q = p
  · rw [hpq, getElem?_eq_getElem hlt]
  · exact absurd hqi (hapart.forall hp hq (Ne.symm hpq) i hi)

end Vock.Library
