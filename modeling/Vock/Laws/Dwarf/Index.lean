import Vock.Laws.Dwarf.Line
import Vock.Laws.Dwarf.Symbolizer
import Vock.Library.Intervals

/-!
# The index of the units

`.debug_info` as units one behind the other, each with its initial length. The index that is built from their headers
has the ranges of all units up to the first whose header cannot be read (`indexFrom_units`, `mem_index_iff`). Of the
units only the initial length is assumed to be right: a unit may be shorter than its header, and its root entry may run
over its end, so that what is read from it (`unitRanges`) need not be its own bytes.
-/

namespace Vock.Dwarf

open Library Library.Interval List

variable {i : Nat} {bs : List U8}

/-! ## Units one behind the other -/

/-- A unit with a correct initial length. -/
def UnitBytes (bs : List U8) : Prop :=
  ∃ format64 body, body.length < (if format64 then 2 ^ 64 else 0xfffffff0) ∧ bs = lengthBytes format64 body.length ++ body

/-- The offset of a unit. -/
def offAt (units : List (List U8)) (i : Nat) : Nat := (units.take i).flatten.length

section

variable {units : List (List U8)}

theorem UnitBytes.length_pos (h : UnitBytes bs) : 0 < bs.length := by
  obtain ⟨format64, body, _, rfl⟩ := h
  rw [length_append, length_lengthBytes]
  split <;> omega

theorem offAt_succ (hi : units[i]? = some bs) : offAt units (i + 1) = offAt units i + bs.length := by
  rw [offAt, take_add_one, hi, Option.toList_some, flatten_append, length_append, flatten_singleton]
  rfl

theorem offAt_length : offAt units units.length = units.flatten.length := by rw [offAt, take_length]

theorem found_unit (hi : units[i]? = some bs) : Found bs units.flatten (offAt units i) := by
  obtain ⟨hlt, rfl⟩ := List.getElem?_eq_some_iff.mp hi
  refine ⟨(units.take i).flatten, (units.drop (i + 1)).flatten, ?_, rfl⟩
  rw [← flatten_cons, getElem_cons_drop, ← flatten_append, take_append_drop]

section

variable (hunits : ∀ bs ∈ units, UnitBytes bs)
include hunits

theorem offAt_lt_succ (hi : i < units.length) : offAt units i < offAt units (i + 1) := by
  have hget := getElem?_eq_getElem hi
  have hpos := (hunits _ (mem_of_getElem? hget)).length_pos
  rw [offAt_succ hget]
  omega

theorem offAt_lt {j : Nat} (hij : i < j) (hj : j ≤ units.length) : offAt units i < offAt units j := by
  induction j with
  | zero => omega
  | succ j ih =>
    have hstep := offAt_lt_succ hunits (show j < units.length by omega)
    rcases Nat.lt_succ_iff_lt_or_eq.mp hij with hlt | rfl
    · exact (ih hlt (by omega)).trans hstep
    · exact hstep

theorem le_offAt (hi : i ≤ units.length) : i ≤ offAt units i := by
  induction i with
  | zero => exact Nat.zero_le _
  | succ i ih =>
    have hstep := offAt_lt_succ hunits (show i < units.length by omega)
    omega

theorem offAt_inj {j : Nat} (hi : i ≤ units.length) (hj : j ≤ units.length)
    (h : offAt units i = offAt units j) : i = j := by
  rcases Nat.lt_trichotomy i j with hlt | heq | hlt
  · exact absurd h (Nat.ne_of_lt (offAt_lt hunits hlt hj))
  · exact heq
  · exact absurd h.symm (Nat.ne_of_lt (offAt_lt hunits hlt hi))

end

/-- A unit of the same length in the place of another one leaves the offsets. -/
theorem offAt_set {k : Nat} {bad : List U8} (hk : units[k]? = some bs) (hlen : bad.length = bs.length) (i : Nat) :
    offAt (units.set k bad) i = offAt units i := by
  obtain ⟨hlt, rfl⟩ := List.getElem?_eq_some_iff.mp hk
  have hlengths : (units.set k bad).map length = units.map length := by
    have hself := @set_getElem_self _ (units.map length) k (by rwa [length_map])
    rwa [getElem_map, ← hlen, ← map_set] at hself
  rw [offAt, offAt, length_flatten, length_flatten, map_take, map_take, hlengths]

end

/-! ## The index -/

section

variable {o : Opened} {lossy : List U8 → List U8} {units : List (List U8)} {r : Range}

/-- The ranges of the unit at an offset. -/
def unitRanges (sec : Sections) (lossy : List U8 → List U8) (off : Nat) : List Range :=
  (Unit.parse sec lossy off).elim [] (Unit.indexRanges sec off)

theorem unit_of_mem_unitRanges {sec : Sections} {off : Nat} (h : r ∈ unitRanges sec lossy off) :
    r.unit = off := by
  rw [unitRanges] at h
  cases hu : Unit.parse sec lossy off with
  | none =>
    rw [hu] at h
    cases h
  | some u =>
    rw [hu] at h
    obtain ⟨_, _, rfl⟩ := mem_map.mp h
    rfl

/-- The header of a unit says where the next one begins. -/
theorem header_end (hunits : ∀ bs ∈ units, UnitBytes bs) (hinfo : o.sec.info = units.flatten) (hi : i < units.length)
    {h : Header} (hh : parseHeader o.sec.info (offAt units i) = some h) : h.endOff = offAt units (i + 1) := by
  have hget := getElem?_eq_getElem hi
  have hfound := found_unit hget
  obtain ⟨format64, body, hlen, hbytes⟩ := hunits _ (mem_of_getElem? hget)
  rw [offAt_succ hget]
  rw [hbytes] at hfound ⊢
  obtain ⟨_, _, initial, c, hread, hend⟩ := parseHeader_inv hh
  have hlength := (reads_lengthBytes hlen).runs hfound.left
  rw [Runs, ← hinfo, hread] at hlength
  obtain ⟨rfl, rfl⟩ := Prod.mk.inj (Option.some.inj hlength)
  rw [hend, length_append, Nat.add_assoc]

theorem mem_takeWhile_range' {p : Nat → Bool} {n s : Nat} :
    i ∈ (List.range' s n).takeWhile p ↔ (s ≤ i ∧ i < s + n) ∧ ∀ j, s ≤ j → j ≤ i → p j = true := by
  induction n generalizing s with
  | zero => simp only [range'_zero, takeWhile_nil, not_mem_nil, false_iff]; omega
  | succ n ih =>
    rw [range'_succ, takeWhile_cons]
    by_cases hp : p s = true
    · rw [if_pos hp, mem_cons, ih]
      constructor
      · rintro (rfl | ⟨hi, hall⟩)
        · refine ⟨by omega, fun j hj hji => ?_⟩
          rwa [Nat.le_antisymm hji hj]
        · refine ⟨by omega, fun j hj hji => ?_⟩
          rcases Nat.eq_or_lt_of_le hj with rfl | hlt
          · exact hp
          · exact hall j hlt hji
      · rintro ⟨hi, hall⟩
        rcases Nat.eq_or_lt_of_le hi.1 with rfl | hlt
        · exact Or.inl rfl
        · exact Or.inr ⟨by omega, fun j hj => hall j (by omega)⟩
    · rw [if_neg hp]
      exact ⟨fun h => (not_mem_nil h).elim, fun h => absurd (h.2 s (Nat.le_refl s) h.1.1) hp⟩

section

variable (hunits : ∀ bs ∈ units, UnitBytes bs) (hinfo : o.sec.info = units.flatten)
include hunits hinfo

/-- The index has the ranges of the units up to the first without a header. -/
theorem indexFrom_units (n : Nat)
    (hi : i + n = units.length) (fuel : Nat) (hfuel : n < fuel) :
    indexFrom o lossy fuel (offAt units i) =
      ((List.range' i n).takeWhile fun j => (parseHeader o.sec.info (offAt units j)).isSome).flatMap fun j =>
        unitRanges o.sec lossy (offAt units j) := by
  induction n generalizing i fuel with
  | zero =>
    obtain ⟨fuel, rfl⟩ : ∃ k, fuel = k + 1 := ⟨fuel - 1, by omega⟩
    obtain rfl : i = units.length := hi
    rw [indexFrom, offAt_length, hinfo, if_neg (Nat.lt_irrefl _)]
    rfl
  | succ n ih =>
    obtain ⟨fuel, rfl⟩ : ∃ k, fuel = k + 1 := ⟨fuel - 1, by omega⟩
    have hlt := offAt_lt hunits (show i < units.length by omega) (Nat.le_refl _)
    rw [offAt_length, ← hinfo] at hlt
    rw [indexFrom, if_pos hlt, range'_succ, takeWhile_cons]
    cases hh : parseHeader o.sec.info (offAt units i) with
    | none => rfl
    | some h =>
      rw [Option.elim_some, header_end hunits hinfo (by omega) hh, ih (by omega) fuel (by omega)]
      rfl

theorem index_units :
    index o lossy = (((List.range' 0 units.length).takeWhile fun j => (parseHeader o.sec.info (offAt units j)).isSome).flatMap
      fun j => unitRanges o.sec lossy (offAt units j)).mergeSort Range.le := by
  have hcount := le_offAt hunits (Nat.le_refl _)
  rw [offAt_length, ← hinfo] at hcount
  exact congrArg (mergeSort · Range.le)
    (indexFrom_units hunits hinfo units.length (Nat.zero_add _) (o.sec.info.length + 1) (by omega))

/-- A range is in the index where it is one of a unit, and all headers up to the unit can be read. -/
theorem mem_index_iff :
    r ∈ index o lossy ↔ ∃ i < units.length, r ∈ unitRanges o.sec lossy (offAt units i) ∧
      ∀ j ≤ i, (parseHeader o.sec.info (offAt units j)).isSome := by
  rw [index_units hunits hinfo, mem_mergeSort, mem_flatMap]
  constructor
  · rintro ⟨i, hi, hr⟩
    obtain ⟨hlt, hheaders⟩ := mem_takeWhile_range'.mp hi
    exact ⟨i, by omega, hr, fun j hj => hheaders j (Nat.zero_le j) hj⟩
  · rintro ⟨i, hlt, hr, hheaders⟩
    exact ⟨i, mem_takeWhile_range'.mpr ⟨by omega, fun j _ hj => hheaders j hj⟩, hr⟩

end

end

end Vock.Dwarf
