import Vock.Fuzz.Arena

/-!
# The allocator

What `note_alloc` and `alloc` do to granules. A request that finds a free run gets the lowest one and
marks it; one that finds none gets offset 0 all the same, with nothing marked (`alloc_cases`). So
`alloc` hands out free memory exactly where there is a free run (`alloc_exact_iff`).

Not established: that a caller looks at which of the two it got. Offset 0 says either.
-/

namespace Vock.Fuzz

open Library

theorem arenaSize_eq : arenaSize = 16777216 := rfl

theorem granule_eq : granule = 64 := rfl

namespace Arena

theorem inRange_iff (off : U64) (size : Nat) : inRange off size = true ↔ off.toNat + size ≤ arenaSize := by
  rw [inRange, decide_eq_true_eq, arenaSize_eq]
  omega

/-- The granules of `size` bytes at `off`. -/
def Touches (off size g : Nat) : Prop := off / granule ≤ g ∧ g < divCeil (off + size) granule

/-- A granule is touched where one of its bytes is. -/
theorem touches_of_byte {off size g i : Nat} (hlo : off ≤ i) (hhi : i < off + size) (hg : g = i / granule) :
    Touches off size g := by
  simp only [Touches, divCeil, granule_eq] at *
  omega

/-- `note_alloc` marks the granules of a range that fits, and no others. -/
theorem test_noteAlloc (a : Arena) (off : U64) (size g : Nat) :
    (a.noteAlloc off size).used.test g = true ↔
      a.used.test g = true ∨ (off.toNat + size ≤ arenaSize ∧ Touches off.toNat size g) := by
  unfold noteAlloc
  split
  next hin =>
    have hfits := (inRange_iff off size).mp hin
    have hbound : off.toNat / granule + (divCeil (off.toNat + size) granule - off.toNat / granule)
        ≤ 64 * (arenaSize / granule / 64 + 1) := by
      simp only [divCeil, granule_eq] at *
      omega
    have hcount : ∀ g, (off.toNat / granule ≤ g ∧
        g < off.toNat / granule + (divCeil (off.toNat + size) granule - off.toNat / granule)) ↔
          Touches off.toNat size g := by
      simp only [Touches]
      omega
    rw [Bitmap.test_markRange _ hbound, Bool.or_eq_true, decide_eq_true_eq, hcount]
    exact ⟨fun h => h.symm.imp_right fun ht => ⟨hfits, ht⟩, fun h => (h.imp_right And.right).symm⟩
  next hout =>
    have hfits : ¬ off.toNat + size ≤ arenaSize := fun h => hout ((inRange_iff off size).mpr h)
    exact ⟨.inl, fun h => h.resolve_right fun hr => hfits hr.1⟩

/-- Room for `size` bytes from granule `start` on. -/
abbrev Free (a : Arena) (size start : Nat) : Prop :=
  FreeRun a.used.test (granules size) (arenaSize / granule) start

/-- What a request gets. -/
theorem alloc_cases (a : Arena) (size : Nat) :
    (∃ start, a.Free size start ∧ (∀ s < start, ¬ a.Free size s) ∧
      (a.alloc size).1.toNat = start * granule ∧
      (a.alloc size).2 = a.noteAlloc (a.alloc size).1 size) ∨
    ((∀ s, ¬ a.Free size s) ∧ a.alloc size = (0#64, a)) := by
  cases hroom : a.room size with
  | some start =>
    obtain ⟨hfree, hlow⟩ := firstFit_eq_some_iff.mp hroom
    have heq : a.alloc size =
        (BitVec.ofNat 64 (start * granule), a.noteAlloc (BitVec.ofNat 64 (start * granule)) size) := by
      simp [alloc, hroom]
    have hlt : start * granule < 2 ^ 64 := by
      have := hfree.1
      simp only [granule_eq, arenaSize_eq] at *
      omega
    refine .inl ⟨start, hfree, hlow, ?_, ?_⟩
    · rw [heq, BitVec.toNat_ofNat, Nat.mod_eq_of_lt hlt]
    · rw [heq]
  | none => exact .inr ⟨firstFit_eq_none_iff.mp hroom, by simp [alloc, hroom]⟩

/-- A run found is in the arena. -/
theorem Free.fits {a : Arena} {size start : Nat} (h : a.Free size start) :
    start * granule + size ≤ arenaSize := by
  have hend := h.1
  simp only [granules, divCeil, granule_eq] at *
  omega

/-- The granules of a request are those of its run. -/
theorem touches_run_iff {size : Nat} (hsize : 1 ≤ size) (start g : Nat) :
    Touches (start * granule) size g ↔ start ≤ g ∧ g < start + granules size := by
  simp only [Touches, granules, divCeil, granule_eq]
  omega

/-- `alloc` gives out free granules, marks them, and takes the lowest run of them, exactly where the
arena has a run of that many free granules. -/
theorem alloc_exact_iff (a : Arena) (size : Nat) (hsize : 1 ≤ size) :
    let off := (a.alloc size).1.toNat
    ((∀ g, Touches off size g → a.used.test g = false ∧ (a.alloc size).2.used.test g = true) ∧
      off % granule = 0 ∧ a.Free size (off / granule) ∧ ∀ s < off / granule, ¬ a.Free size s) ↔
    ∃ start, a.Free size start := by
  intro off
  constructor
  · rintro ⟨-, -, hfree, -⟩
    exact ⟨off / granule, hfree⟩
  · rintro ⟨start, hstart⟩
    rcases a.alloc_cases size with ⟨start, hfree, hlow, hoff, hmarked⟩ | ⟨hnone, -⟩
    · have hdiv : off / granule = start := by
        rw [show off = start * granule from hoff]
        exact Nat.mul_div_cancel start (by decide)
      refine ⟨fun g hg => ⟨?_, ?_⟩, ?_, hdiv ▸ hfree, hdiv ▸ hlow⟩
      · rw [show off = start * granule from hoff] at hg
        obtain ⟨hlo, hhi⟩ := (touches_run_iff hsize start g).mp hg
        exact hfree.2 g hlo hhi
      · rw [hmarked, test_noteAlloc]
        exact .inr ⟨hoff ▸ hfree.fits, hg⟩
      · rw [show off = start * granule from hoff]
        exact Nat.mul_mod_left start granule
    · exact absurd hstart (hnone start)

/-- The granules 0 to 3 and 5 are taken; the hole between them is too small for two. -/
def holed : Arena := (map.noteAlloc 0#64 200).noteAlloc 320#64 64

theorem holed_free : holed.Free 100 6 := by
  refine ⟨by decide, fun g hlo _ => ?_⟩
  rw [← Bool.not_eq_true, holed, test_noteAlloc, test_noteAlloc]
  rintro ((hfresh | ⟨-, htouches⟩) | ⟨-, htouches⟩)
  · exact absurd hfresh (by rw [map, Bitmap.test_empty]; decide)
  all_goals
    simp only [Touches, divCeil, granule_eq, BitVec.toNat_ofNat] at htouches
    omega

theorem alloc_exact_iff_holed :
    let off := (holed.alloc 100).1.toNat
    (∀ g, Touches off 100 g → holed.used.test g = false ∧ (holed.alloc 100).2.used.test g = true) ∧
      off % granule = 0 ∧ holed.Free 100 (off / granule) ∧ ∀ s < off / granule, ¬ holed.Free 100 s :=
  (alloc_exact_iff holed 100 (by decide)).mpr ⟨6, holed_free⟩

/-- The arena after one object that takes all of it. -/
def full : Arena := map.noteAlloc 0#64 arenaSize

theorem full_test {g : Nat} (hg : g < arenaSize / granule) : full.used.test g = true := by
  rw [full, test_noteAlloc]
  refine .inr ⟨?_, ?_⟩
  · rw [BitVec.toNat_ofNat, Nat.zero_add]
  · simp only [Touches, divCeil, granule_eq, BitVec.toNat_ofNat] at *
    omega

/-- With no granule free a request for one byte gets offset 0, whose granule is occupied. -/
theorem alloc_full_occupied :
    ¬ (∀ g, Touches (full.alloc 1).1.toNat 1 g →
        full.used.test g = false ∧ (full.alloc 1).2.used.test g = true) := by
  have hnone : ∀ s, ¬ full.Free 1 s := by
    intro s hfree
    have hend := hfree.1
    have hone : granules 1 = 1 := rfl
    have hbusy := full_test (g := s) (by omega)
    rw [hfree.2 s le_rfl (by omega)] at hbusy
    cases hbusy
  intro hall
  rcases full.alloc_cases 1 with ⟨start, hfree, -⟩ | ⟨-, heq⟩
  · exact hnone start hfree
  · rw [heq] at hall
    have hzero := (hall 0 (touches_of_byte (Nat.le_refl 0) (by decide) rfl)).1
    rw [full_test (by decide)] at hzero
    cases hzero

end Arena

end Vock.Fuzz
