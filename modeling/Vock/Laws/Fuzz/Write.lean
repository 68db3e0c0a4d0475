import Vock.Laws.Fuzz.Alloc

/-!
# Clipped writes

A write stops at the next address of `fixed`. Which bytes it keeps is a matter of the set of the
addresses (`lt_clip_setFixed_iff`), and a write is a patch of the memory (`write_mem`), so that a run
of writes is a run of patches (`writeAll_mem`).
-/

namespace Vock.Fuzz

open Library List

/-! ## The next address -/

private theorem mem_destutter'_ne {α : Type*} [DecidableEq α] {x a : α} {l : List α} (h : x ∈ a :: l) :
    x ∈ l.destutter' (· ≠ ·) a := by
  induction l generalizing a with
  | nil => exact h
  | cons b l ih =>
    rw [destutter'_cons]
    split
    next =>
      rcases mem_cons.mp h with rfl | h
      · exact mem_cons_self
      · exact mem_cons_of_mem a (ih h)
    next hab =>
      obtain rfl : a = b := not_not.mp hab
      exact ih (by simpa using h)

/-- Removing repetitions removes no address. -/
theorem mem_destutter_ne {α : Type*} [DecidableEq α] {x : α} {l : List α} :
    x ∈ l.destutter (· ≠ ·) ↔ x ∈ l := by
  refine ⟨fun h => (destutter_sublist _ l).mem h, fun h => ?_⟩
  cases l with
  | nil => cases h
  | cons a l => exact mem_destutter'_ne h

namespace Arena

variable (a : Arena) (addrs : List U64)

theorem mem_fixed_setFixed (f : U64) :
    f ∈ (a.setFixed addrs).fixed ↔ f ∈ addrs := by
  rw [setFixed, mem_destutter_ne, mem_insertionSort]

theorem fixed_setFixed_pairwise :
    (a.setFixed addrs).fixed.Pairwise (· ≤ ·) :=
  (pairwise_insertionSort (· ≤ ·) addrs).sublist (destutter_sublist _ _)

variable (off : U64)

theorem clip_le (len : Nat) : a.clip off len ≤ len := by
  unfold clip
  split
  · exact Nat.min_le_left ..
  · exact Nat.le_refl len

/-- A byte of a write is kept where it is in front of every address behind the start. -/
theorem lt_clip_iff {a : Arena} (hsorted : a.fixed.Pairwise (· ≤ ·)) (off : U64) (len i : Nat) :
    i < a.clip off len ↔ i < len ∧ ∀ f ∈ a.fixed, off < f → off.toNat + i < f.toNat := by
  unfold clip
  split
  next next hnext =>
    obtain ⟨hlt, as, bs, hsplit, hbefore⟩ := find?_eq_some_iff_append.mp hnext
    have hlt : off < next := of_decide_eq_true hlt
    have hnat : off.toNat < next.toNat := hlt
    have hsub : (next - off).toNat = next.toNat - off.toNat := BitVec.toNat_sub_of_le (Nat.le_of_lt hnat)
    have hle : ∀ f ∈ a.fixed, off < f → next ≤ f := by
      intro f hf hof
      rw [hsplit] at hf hsorted
      rcases mem_append.mp hf with hf | hf
      · have := hbefore f hf
        simp only [hof, decide_true, Bool.not_true, Bool.false_eq_true] at this
      · rcases mem_cons.mp hf with rfl | hf
        · exact Nat.le_refl _
        · exact rel_of_pairwise_cons (pairwise_append.mp hsorted).2.1 hf
    have hmem : next ∈ a.fixed := hsplit ▸ mem_append_right as mem_cons_self
    constructor
    · intro hi
      refine ⟨by omega, fun f hf hof => ?_⟩
      have : next.toNat ≤ f.toNat := hle f hf hof
      omega
    · rintro ⟨hi, hall⟩
      have := hall next hmem hlt
      omega
  next hnone =>
    refine ⟨fun hi => ⟨hi, fun f hf hof => ?_⟩, And.left⟩
    have := find?_eq_none.mp hnone f hf
    simp only [hof, decide_true, not_true] at this

theorem lt_clip_setFixed_iff (len i : Nat) :
    i < (a.setFixed addrs).clip off len ↔
      i < len ∧ ∀ f ∈ addrs, off < f → off.toNat + i < f.toNat := by
  rw [lt_clip_iff (a.fixed_setFixed_pairwise addrs)]
  simp [mem_fixed_setFixed]

/-! ## Writes as patches -/

/-- What is left of a write: nothing where the clipped bytes do not fit. -/
def kept (a : Arena) (off : U64) (bytes : List U8) : List U8 :=
  if off.toNat + a.clip off bytes.length ≤ arenaSize then bytes.take (a.clip off bytes.length) else []

@[simp] theorem write_fixed (bytes : List U8) : (a.write off bytes).fixed = a.fixed := by
  unfold write
  dsimp only
  split <;> rfl

theorem clip_congr {a b : Arena} (h : a.fixed = b.fixed) (off : U64) (len : Nat) :
    a.clip off len = b.clip off len := by
  rw [clip, h, clip]

theorem kept_congr {a b : Arena} (h : a.fixed = b.fixed) (off : U64) (bytes : List U8) :
    a.kept off bytes = b.kept off bytes := by
  rw [kept, clip_congr h, kept]

private theorem blit_nil (m : Nat → U8) (off : Nat) : blit m off [] = m := by
  funext i
  exact blit_of_not_covers fun h => absurd h.2 (Nat.not_lt.mpr h.1)

theorem write_mem (bytes : List U8) :
    (a.write off bytes).mem = blit a.mem off.toNat (a.kept off bytes) := by
  unfold write kept
  by_cases hfits : off.toNat + a.clip off bytes.length ≤ arenaSize
  · have hin := (inRange_iff off _).mpr hfits
    by_cases hzero : a.clip off bytes.length = 0
    · rw [if_pos (.inl hzero), if_pos hfits, hzero, take_zero, blit_nil]
    · rw [if_neg (by simp [hzero, hin]), if_pos hfits]
  · have hin : inRange off (a.clip off bytes.length) = false := by
      rw [← Bool.not_eq_true, inRange_iff]
      exact hfits
    rw [if_pos (.inr hin), if_neg hfits, blit_nil]

/-- Objects, written in order. -/
def writeAll (a : Arena) (os : List (U64 × List U8)) : Arena := os.foldl (fun a o => a.write o.1 o.2) a

variable (os : List (U64 × List U8))

@[simp] theorem writeAll_fixed : (a.writeAll os).fixed = a.fixed := by
  induction os generalizing a with
  | nil => rfl
  | cons o os ih => rw [writeAll]; exact (ih _).trans (a.write_fixed o.1 o.2)

theorem writeAll_mem :
    (a.writeAll os).mem = blitAll a.mem (os.map fun o => (o.1.toNat, a.kept o.1 o.2)) := by
  induction os generalizing a with
  | nil => rfl
  | cons o os ih =>
    have hkept : ∀ p : U64 × List U8, (a.write o.1 o.2).kept p.1 p.2 = a.kept p.1 p.2 :=
      fun p => kept_congr (a.write_fixed o.1 o.2) p.1 p.2
    have hstep : (a.writeAll (o :: os)).mem = ((a.write o.1 o.2).writeAll os).mem := rfl
    rw [hstep, ih, write_mem]
    simp [hkept]

end Arena

end Vock.Fuzz
