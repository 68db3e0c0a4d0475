import Mathlib.Algebra.Group.Nat.Defs
import Vock.Library.Answer

/-!
# Bitmaps and first fit

A bitmap is a vector of 64-bit words, one bit a cell. `test` and `mark` are the two word operations;
the laws say what they do to cells, so that nothing further looks at words (`test_mark`,
`test_markRange`).

`allFresh` tells that numbers are pairwise different in one pass, with a mark for each number seen
(`nodup_of_allFresh`).

`firstFit` is the skipping search for a run of free cells: where a run is broken by a busy cell it
starts again behind that cell. It answers the lowest free run, and answers none only where there is
no such run (`firstFit_eq_some_iff`, `firstFit_eq_none_iff`).
-/

namespace Vock.Library

/-! ## Bitmaps -/

/-- `n` words of 64 cells each. -/
structure Bitmap (n : Nat) where
  words : Vector (BitVec 64) n

open List

namespace Bitmap

variable {n : Nat}

/-- No cell is marked. -/
def empty (n : Nat) : Bitmap n := ⟨Vector.replicate n 0#64⟩

/-- `words[g / 64] & (1 << (g % 64)) != 0`. -/
def test (b : Bitmap n) (g : Nat) : Bool :=
  (b.words[g / 64]?.getD 0#64 &&& (1#64 <<< (g % 64))) != 0#64

/-- `words[g / 64] |= 1 << (g % 64)`. -/
def mark (b : Bitmap n) (g : Nat) : Bitmap n :=
  ⟨b.words.setIfInBounds (g / 64) (b.words[g / 64]?.getD 0#64 ||| (1#64 <<< (g % 64)))⟩

/-- `count` cells from `first` on, marked one after the other. -/
def markRange (b : Bitmap n) (first count : Nat) : Bitmap n := (List.range' first count).foldl mark b

theorem test_eq_getLsbD (b : Bitmap n) (g : Nat) :
    b.test g = (b.words[g / 64]?.getD 0#64).getLsbD (g % 64) := by
  have hone : 1#64 <<< (g % 64) ≠ 0#64 := by
    intro h
    have hbit := congrArg (·.getLsbD (g % 64)) h
    have hlt : g % 64 < 64 := Nat.mod_lt g (by omega)
    simp [hlt] at hbit
  rw [test, ← BitVec.twoPow_eq, BitVec.and_twoPow]
  split
  next h => rw [h, bne_iff_ne]; exact hone
  next h => simpa using h

theorem test_empty (n g : Nat) : (empty n).test g = false := by
  rw [test_eq_getLsbD, empty, Vector.getElem?_replicate]
  split
  · exact BitVec.getLsbD_zero
  · exact BitVec.getLsbD_zero

theorem test_mark (b : Bitmap n) {g : Nat} (hg : g < 64 * n) (k : Nat) :
    (b.mark g).test k = (decide (k = g) || b.test k) := by
  rw [test_eq_getLsbD, test_eq_getLsbD, mark]
  have hword : g / 64 < n := by omega
  rw [Vector.getElem?_setIfInBounds]
  by_cases hk : g / 64 = k / 64
  · have hbit : k % 64 = g % 64 ↔ k = g := by omega
    have hlt : k % 64 < 64 := Nat.mod_lt k (by omega)
    simp only [hk, hk ▸ hword]
    by_cases hkg : k = g
    · subst hkg
      simp [hlt]
    · have hne : k % 64 ≠ g % 64 := fun h => hkg (hbit.mp h)
      simp only [hkg]
      by_cases hlo : k % 64 < g % 64
      · simp [hlo]
      · simp [show k % 64 - g % 64 ≠ 0 by omega]
  · have hkg : k ≠ g := fun h => hk (by rw [h])
    simp [hk, hkg]

theorem test_markRange (b : Bitmap n) {first count : Nat} (h : first + count ≤ 64 * n) (k : Nat) :
    (b.markRange first count).test k = (decide (first ≤ k ∧ k < first + count) || b.test k) := by
  induction count generalizing b first with
  | zero =>
    have hempty : ¬ (first ≤ k ∧ k < first + 0) := by omega
    simp only [markRange, range'_zero, foldl_nil, hempty, decide_false, Bool.false_or]
  | succ count ih =>
    have hstep : b.markRange first (count + 1) = (b.mark first).markRange (first + 1) count := by
      rfl
    rw [hstep, ih _ (by omega), test_mark b (by omega), ← Bool.or_assoc, ← Bool.decide_or]
    congr 2
    rw [eq_iff_iff]
    omega

end Bitmap

/-! ## First fit -/

section

variable (busy : Nat → Bool) (need total : Nat)

/-- `need` free cells from `start` on, all below `total`. -/
def FreeRun (start : Nat) : Prop := start + need ≤ total ∧ ∀ g, start ≤ g → g < start + need → busy g = false

/-- One round of the search: a run from `start` on, or a new start behind the busy cell found first. -/
def fitStep (start : Nat) : Option (Nat ⊕ Option Nat) :=
  if start + need ≤ total then
    match (List.range' start need).find? busy with
    | some g => some (.inl (g + 1))
    | none => some (.inr (some start))
  else some (.inr none)

/-- The search, from the first cell on. -/
def firstFit : Option Nat := (repeatFor (fitStep busy need total) (total + 1) 0).join

variable {busy need total} {start : Nat} {r : Option Nat}

theorem fitStep_continues {next : Nat} (h : Continues (fitStep busy need total) start next) :
    start + need ≤ total ∧
      ∃ g, next = g + 1 ∧ start ≤ g ∧ g < start + need ∧ busy g = true := by
  unfold Continues fitStep at h
  split at h
  next hle =>
    split at h
    next g hg =>
      cases h
      obtain ⟨i, hi, rfl⟩ := mem_range'.mp (mem_of_find?_eq_some hg)
      exact ⟨hle, _, rfl, by omega, by omega, find?_some hg⟩
    next => cases h
  next => cases h

theorem fitStep_leaves
    (h : fitStep busy need total start = some (.inr r)) :
    (r = some start ∧ FreeRun busy need total start) ∨ (r = none ∧ total < start + need) := by
  unfold fitStep at h
  split at h
  next hle =>
    split at h
    next => cases h
    next hnone =>
      cases h
      refine .inl ⟨rfl, hle, fun g hlo hhi => ?_⟩
      have hmem : g ∈ range' start need := mem_range'.mpr ⟨g - start, by omega, by omega⟩
      simpa using find?_eq_none.mp hnone g hmem
  next hgt =>
    cases h
    exact .inr ⟨rfl, by omega⟩

/-- Every round answers. -/
theorem fitStep_ends (start : Nat) : ∃ r, Ends (fitStep busy need total) start r := by
  induction hμ : total - start using Nat.strongRecOn generalizing start with
  | ind m ih =>
    cases hs : fitStep busy need total start with
    | none =>
      unfold fitStep at hs
      split at hs
      · split at hs <;> cases hs
      · cases hs
    | some x =>
      cases x with
      | inr r => exact ⟨r, .leave hs⟩
      | inl next =>
        obtain ⟨hle, g, rfl, hlo, hhi, -⟩ := fitStep_continues hs
        obtain ⟨r, hr⟩ := ih (total - (g + 1)) (by omega) (g + 1) rfl
        exact ⟨r, .goOn hs hr⟩

/-- The starts passed over, in the search or behind a busy cell, start no free run. -/
theorem Ends.fit (h : Ends (fitStep busy need total) start r)
    (hpast : ∀ s < start, ¬ FreeRun busy need total s) :
    (∃ s, r = some s ∧ FreeRun busy need total s ∧ ∀ s' < s, ¬ FreeRun busy need total s') ∨
      (r = none ∧ ∀ s, ¬ FreeRun busy need total s) := by
  refine h.invariant (P := fun s => ∀ s' < s, ¬ FreeRun busy need total s')
    (Q := fun r => (∃ s, r = some s ∧ FreeRun busy need total s ∧ ∀ s' < s, ¬ FreeRun busy need total s') ∨
      (r = none ∧ ∀ s, ¬ FreeRun busy need total s)) ?_ ?_ hpast
  · intro s next hstep hs s' hs' hrun
    obtain ⟨-, g, rfl, hlo, hhi, hbusy⟩ := fitStep_continues hstep
    rcases Nat.lt_or_ge s' s with hlt | hge
    · exact hs s' hlt hrun
    · rw [hrun.2 g (by omega) (by omega)] at hbusy
      cases hbusy
  · intro s r hr hs
    rcases fitStep_leaves hr with ⟨rfl, hrun⟩ | ⟨rfl, hend⟩
    · exact .inl ⟨s, rfl, hrun, hs⟩
    · refine .inr ⟨rfl, fun s' hrun => ?_⟩
      rcases Nat.lt_or_ge s' s with hlt | hge
      · exact hs s' hlt hrun
      · have := hrun.1
        omega

private theorem firstFit_ends (r : Option Nat) (h : Ends (fitStep busy need total) 0 r) :
    firstFit busy need total = r := by
  have lowers : ∀ s s', Continues (fitStep busy need total) s s' → total - s' < total - s := by
    intro s s' hstep
    obtain ⟨hle, g, rfl, hlo, hhi, -⟩ := fitStep_continues hstep
    omega
  rw [firstFit, (repeatFor_eq_some_iff lowers (by omega) r).mpr h]
  cases r <;> rfl

/-- What is found is a free run, and the lowest. -/
theorem firstFit_eq_some_iff :
    firstFit busy need total = some start ↔
      FreeRun busy need total start ∧ ∀ s < start, ¬ FreeRun busy need total s := by
  obtain ⟨r, hr⟩ := @fitStep_ends busy need total 0
  rw [firstFit_ends r hr]
  rcases hr.fit (fun s hs => absurd hs (Nat.not_lt_zero s)) with ⟨s, rfl, hrun, hlow⟩ | ⟨rfl, hno⟩
  · constructor
    · rintro ⟨⟩
      exact ⟨hrun, hlow⟩
    · rintro ⟨hrun', hlow'⟩
      rcases Nat.lt_trichotomy s start with hlt | rfl | hgt
      · exact absurd hrun (hlow' s hlt)
      · rfl
      · exact absurd hrun' (hlow start hgt)
  · exact ⟨nofun, fun h => absurd h.1 (hno start)⟩

theorem firstFit_eq_none_iff : firstFit busy need total = none ↔ ∀ s, ¬ FreeRun busy need total s := by
  obtain ⟨r, hr⟩ := @fitStep_ends busy need total 0
  rw [firstFit_ends r hr]
  rcases hr.fit (fun s hs => absurd hs (Nat.not_lt_zero s)) with ⟨s, rfl, hrun, -⟩ | ⟨rfl, hno⟩
  · exact ⟨nofun, fun h => absurd hrun (h s)⟩
  · exact ⟨fun _ => hno, fun _ => rfl⟩

end

/-! ## Numbers that are pairwise different -/

/-- No number is marked, and each is marked once it is seen. -/
def allFresh : List Nat → Nat → Bool
  | [], _ => true
  | n :: ns, marks => !marks.testBit n && allFresh ns (marks ||| 2 ^ n)

variable {marks : Nat} {ns : List Nat}

theorem not_marked_of_allFresh (h : allFresh ns marks = true) :
    ∀ n ∈ ns, marks.testBit n = false := by
  induction ns generalizing marks with
  | nil => exact fun n hn => absurd hn not_mem_nil
  | cons m ns ih =>
    rw [allFresh, Bool.and_eq_true, Bool.not_eq_true'] at h
    intro n hn
    rcases mem_cons.mp hn with rfl | hn
    · exact h.1
    · have hlater := ih h.2 n hn
      rw [Nat.testBit_or, Bool.or_eq_false_iff] at hlater
      exact hlater.1

theorem nodup_of_allFresh (h : allFresh ns marks = true) : ns.Nodup := by
  induction ns generalizing marks with
  | nil => exact nodup_nil
  | cons n ns ih =>
    rw [allFresh, Bool.and_eq_true] at h
    refine nodup_cons.mpr ⟨fun hn => ?_, ih h.2⟩
    have hmarked := not_marked_of_allFresh h.2 n hn
    rw [Nat.testBit_or, Nat.testBit_two_pow, decide_eq_true rfl, Bool.or_true] at hmarked
    cases hmarked

end Vock.Library
