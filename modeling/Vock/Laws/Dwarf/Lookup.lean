import Vock.Laws.Dwarf.Aranges

/-!
# Looking up ranges

The two searches over ranges, `find_range` and `FuncTable::find`, go back from the place of the PC by three and by four
entries. Among nested ranges that is enough only where few enough siblings stand between the PC and the start of the
range around it (`lookups_enclose_iff`). In the subprogram that it takes, `FuncTable::find` tells the name of a most
deeply nested inlined subroutine at the PC (`find_deepest`).

The tables are any sorted ones; that `walk` fills them as the entries of the unit say is not shown here.
-/

namespace Vock.Dwarf

open Library.Interval

variable {pc : U64}

/-- The range of a subprogram that `FuncTable::find` takes. -/
def FuncTable.selected (ft : FuncTable) (pc : U64) : Option (U64 × U64 × Nat) :=
  lookBack Prod.fst (fun r => r.2.1) 4 ft.ranges pc

/-- What `FuncTable::find` tells for the range it takes. -/
def FuncTable.nameAt (ft : FuncTable) (pc : U64) (r : U64 × U64 × Nat) : Option Name :=
  ft.subs[r.2.2]?.map fun sub => ((innermost pc sub.inlines).map Inl.name).getD sub.name

theorem find_eq_lookBack (ft : FuncTable) (pc : U64) :
    ft.find pc = ((lookBack Prod.fst (fun r => r.2.1) 4 ft.ranges pc).bind fun r => ft.subs[r.2.2]?).map fun sub =>
      ((innermost pc sub.inlines).map Inl.name).getD sub.name := rfl

theorem find_eq_nameAt (ft : FuncTable) (pc : U64) : ft.find pc = (ft.selected pc).bind (ft.nameAt pc) := by
  rw [find_eq_lookBack, Option.map_bind]
  rfl

/-- An inlined subroutine at an address that none there is nested more deeply than, or none where there is none. -/
def Deepest (pc : U64) (l : List Inl) : Option Inl → Prop
  | none => ∀ i ∈ l, ¬ Covers Inl.start Inl.stop i pc
  | some i => i ∈ l ∧ Covers Inl.start Inl.stop i pc ∧ ∀ j ∈ l, Covers Inl.start Inl.stop j pc → j.depth ≤ i.depth

/-- One more inlined subroutine, where it is not at the address or not nested more deeply. -/
theorem Deepest.skip {l : List Inl} {inner : Option Inl} {i : Inl} (h : Deepest pc l inner)
    (hi : Covers Inl.start Inl.stop i pc → ∃ j, inner = some j ∧ i.depth ≤ j.depth) : Deepest pc (l ++ [i]) inner := by
  cases inner with
  | none =>
    intro j hj hcovers
    rcases List.mem_append.mp hj with hj | hj
    · exact h j hj hcovers
    · obtain ⟨_, hnone, _⟩ := hi (List.mem_singleton.mp hj ▸ hcovers)
      cases hnone
  | some k =>
    obtain ⟨hmem, hk, hmax⟩ := h
    refine ⟨List.mem_append_left _ hmem, hk, fun j hj hcovers => ?_⟩
    rcases List.mem_append.mp hj with hj | hj
    · exact hmax j hj hcovers
    · obtain rfl := List.mem_singleton.mp hj
      obtain ⟨_, hsome, hle⟩ := hi hcovers
      cases hsome
      exact hle

/-- The fold over the inlined subroutines keeps a most deeply nested one. -/
theorem innermost_deepest (pc : U64) (l : List Inl) : Deepest pc l (innermost pc l) := by
  induction l using List.reverseRecOn with
  | nil => exact nofun
  | append_singleton l i ih =>
    rw [innermost, List.foldl_concat]
    change Deepest pc (l ++ [i]) (if i.start ≤ pc ∧ pc < i.stop ∧ (innermost pc l).all (·.depth < i.depth) then some i
      else innermost pc l)
    split
    next h =>
      obtain ⟨hstart, hstop, hdeeper⟩ := h
      refine ⟨List.mem_append_right _ (List.mem_singleton_self i), ⟨hstart, hstop⟩, fun j hj hcovers => ?_⟩
      rcases List.mem_append.mp hj with hj | hj
      · cases hinner : innermost pc l with
        | none =>
          rw [hinner] at ih
          exact absurd hcovers (ih j hj)
        | some k =>
          rw [hinner] at ih hdeeper
          exact (ih.2.2 j hj hcovers).trans (of_decide_eq_true hdeeper).le
      · rw [List.mem_singleton.mp hj]
    next h =>
      refine ih.skip fun hcovers => ?_
      cases hinner : innermost pc l with
      | none => exact absurd ⟨hcovers.1, hcovers.2, by rw [hinner]; rfl⟩ h
      | some k =>
        refine ⟨k, rfl, Nat.le_of_not_lt fun hlt => h ⟨hcovers.1, hcovers.2, ?_⟩⟩
        rw [hinner]
        exact decide_eq_true hlt

/-- What `FuncTable::find` tells is the name of a most deeply nested inlined subroutine at the PC in the subprogram it
takes, or the name of the subprogram where none is there. -/
theorem find_deepest {ft : FuncTable} {n : Name} (h : ft.find pc = some n) :
    ∃ r sub inner, ft.selected pc = some r ∧ ft.subs[r.2.2]? = some sub ∧ Deepest pc sub.inlines inner ∧
      n = (inner.map Inl.name).getD sub.name := by
  rw [find_eq_nameAt] at h
  obtain ⟨r, hr, hname⟩ := Option.bind_eq_some_iff.mp h
  obtain ⟨sub, hsub, rfl⟩ := Option.map_eq_some_iff.mp hname
  exact ⟨r, sub, _, hr, hsub, innermost_deepest pc sub.inlines, rfl⟩

/-- A unit of a range around the PC is found just if the search gets to one. -/
theorem findRange_encloses_iff {ranges : List Range} {pc : U64}
    (hsorted : ranges.Pairwise fun r s => r.start ≤ s.start) {r : Range} (hr : r ∈ ranges)
    (hcovers : Covers Range.start Range.stop r pc) :
    (∃ s ∈ ranges, Covers Range.start Range.stop s pc ∧ findRange ranges pc = some s.unit) ↔
      skipped Range.start Range.stop ranges pc < 3 := by
  obtain ⟨z, hz⟩ := Option.isSome_iff_exists.mp (lastCovering_isSome_iff.mpr ⟨r, hr, hcovers⟩)
  rw [findRange_eq]
  constructor
  · rintro ⟨s, -, -, hfound⟩
    obtain ⟨t, ht, -⟩ := Option.map_eq_some_iff.mp hfound
    exact ((lookBack_eq_some_iff_skipped hsorted).mp ht).2
  · intro hskipped
    have hfound := (lookBack_eq_some_iff_skipped hsorted).mpr ⟨hz, hskipped⟩
    obtain ⟨hmem, hz⟩ := mem_of_lookBack hfound
    exact ⟨z, hmem, hz, by rw [hfound, Option.map_some]⟩

/-- The innermost range around the PC is taken just if the search gets to the last one around the PC, and none that
starts with it is shorter. -/
theorem selected_innermost_iff {ft : FuncTable} {pc : U64} (hsorted : ft.ranges.Pairwise fun r s => r.1 ≤ s.1)
    (hlaminar : ∀ r ∈ ft.ranges, ∀ s ∈ ft.ranges, Laminar Prod.fst (fun r => r.2.1) r s) {r : U64 × U64 × Nat}
    (hr : r ∈ ft.ranges) (hcovers : Covers Prod.fst (fun r => r.2.1) r pc) :
    (∃ s, Innermost Prod.fst (fun r => r.2.1) ft.ranges pc s ∧ ft.selected pc = some s) ↔
      skipped Prod.fst (fun r => r.2.1) ft.ranges pc < 4 ∧
        ∀ z, lastCovering Prod.fst (fun r => r.2.1) ft.ranges pc = some z →
          ∀ s ∈ ft.ranges, Covers Prod.fst (fun r => r.2.1) s pc → s.1 = z.1 → z.2.1 ≤ s.2.1 := by
  obtain ⟨z, hz⟩ := Option.isSome_iff_exists.mp (lastCovering_isSome_iff.mpr ⟨r, hr, hcovers⟩)
  constructor
  · rintro ⟨s, hinner, hselected⟩
    obtain ⟨hlast, hskipped⟩ := (lookBack_eq_some_iff_skipped hsorted).mp hselected
    refine ⟨hskipped, ?_⟩
    intro z hz
    obtain rfl : s = z := Option.some.inj (hlast.symm.trans hz)
    exact (innermost_lastCovering_iff hsorted hlaminar hz).mp hinner
  · rintro ⟨hskipped, hshortest⟩
    refine ⟨z, (innermost_lastCovering_iff hsorted hlaminar hz).mpr (hshortest z hz), ?_⟩
    exact (lookBack_eq_some_iff_skipped hsorted).mpr ⟨hz, hskipped⟩

/-- Both searches: they find the unit of a range around the PC, and the innermost subprogram around it, just where
fewer than three and four entries stand behind the last one around the PC and, for subprograms, none that starts with it
is shorter. -/
theorem lookups_enclose_iff (ranges : List Range) (ft : FuncTable) (pc : U64)
    (hranges : ranges.Pairwise fun r s => r.start ≤ s.start) (hsubs : ft.ranges.Pairwise fun r s => r.1 ≤ s.1)
    (hlaminar : ∀ r ∈ ft.ranges, ∀ s ∈ ft.ranges, Laminar Prod.fst (fun r => r.2.1) r s) :
    ((∀ r ∈ ranges, Covers Range.start Range.stop r pc →
        ∃ s ∈ ranges, Covers Range.start Range.stop s pc ∧ findRange ranges pc = some s.unit) ↔
      ∀ r ∈ ranges, Covers Range.start Range.stop r pc → skipped Range.start Range.stop ranges pc < 3) ∧
    ft.find pc = (ft.selected pc).bind (ft.nameAt pc) ∧
    ((∀ r ∈ ft.ranges, Covers Prod.fst (fun r => r.2.1) r pc →
        ∃ s, Innermost Prod.fst (fun r => r.2.1) ft.ranges pc s ∧ ft.selected pc = some s) ↔
      ∀ r ∈ ft.ranges, Covers Prod.fst (fun r => r.2.1) r pc →
        skipped Prod.fst (fun r => r.2.1) ft.ranges pc < 4 ∧
          ∀ z, lastCovering Prod.fst (fun r => r.2.1) ft.ranges pc = some z →
            ∀ s ∈ ft.ranges, Covers Prod.fst (fun r => r.2.1) s pc → s.1 = z.1 → z.2.1 ≤ s.2.1) := by
  refine ⟨?_, find_eq_nameAt ft pc, ?_⟩
  · apply forall_congr'
    intro r
    apply forall_congr'
    intro hr
    exact forall_congr' fun hcovers => findRange_encloses_iff hranges hr hcovers
  · apply forall_congr'
    intro r
    apply forall_congr'
    intro hr
    exact forall_congr' fun hcovers => selected_innermost_iff hsubs hlaminar hr hcovers

instance (r s : Range) : Decidable (Laminar Range.start Range.stop r s) :=
  inferInstanceAs (Decidable ((_ ∨ _) ∨ (_ ∧ _) ∨ _ ∧ _))

instance (r s : U64 × U64 × Nat) : Decidable (Laminar Prod.fst (fun r => r.2.1) r s) :=
  inferInstanceAs (Decidable ((_ ∨ _) ∨ (_ ∧ _) ∨ _ ∧ _))

/-- A range around siblings of ten addresses each. -/
def parentRanges (siblings : List U64) : List Range := ⟨0#64, 1000#64, 7⟩ :: siblings.map fun a => ⟨a, a + 10#64, 1⟩

/-- A function around nested functions of ten addresses each. -/
def parentFunction (nested : List U64) : FuncTable :=
  ⟨(0#64, 1000#64, 0) :: nested.map fun a => (a, a + 10#64, 1), [⟨.direct [0x61#8], []⟩, ⟨.direct [0x62#8], []⟩], []⟩

/-- With few siblings both searches find what is around the PC. -/
theorem lookups_enclose_few :
    (∃ s ∈ parentRanges [100#64, 200#64], Covers Range.start Range.stop s 700#64 ∧
        findRange (parentRanges [100#64, 200#64]) 700#64 = some s.unit) ∧
      ∃ s, Innermost Prod.fst (fun r => r.2.1) (parentFunction [100#64]).ranges 700#64 s ∧
        (parentFunction [100#64]).selected 700#64 = some s := by
  obtain ⟨hunit, -, hfunction⟩ := lookups_enclose_iff (parentRanges [100#64, 200#64]) (parentFunction [100#64]) 700#64
    (by decide) (by decide) (by decide)
  have hlast : lastCovering Prod.fst (fun r => r.2.1) (parentFunction [100#64]).ranges 700#64 =
      some (0#64, 1000#64, 0) := by decide
  constructor
  · exact hunit.mpr (fun _ _ _ => by decide) ⟨0#64, 1000#64, 7⟩ List.mem_cons_self (by decide)
  · refine hfunction.mpr ?_ (0#64, 1000#64, 0) List.mem_cons_self (by decide)
    intro _ _ _
    refine ⟨by decide, ?_⟩
    intro z hz
    obtain rfl : (0#64, 1000#64, 0) = z := Option.some.inj (hlast.symm.trans hz)
    decide

/-- Three siblings hide the unit around the PC, and four nested functions the function around it. -/
theorem lookups_miss :
    ((parentRanges [100#64, 200#64, 300#64]).Pairwise fun r s => r.start ≤ s.start) ∧
      (∀ r ∈ parentRanges [100#64, 200#64, 300#64], ∀ s ∈ parentRanges [100#64, 200#64, 300#64],
        Laminar Range.start Range.stop r s) ∧
      (∃ r ∈ parentRanges [100#64, 200#64, 300#64], Covers Range.start Range.stop r 700#64) ∧
      findRange (parentRanges [100#64, 200#64, 300#64]) 700#64 = none ∧
      (∃ r ∈ (parentFunction [100#64, 200#64, 300#64, 400#64]).ranges, Covers Prod.fst (fun r => r.2.1) r 700#64) ∧
      (parentFunction [100#64, 200#64, 300#64, 400#64]).find 700#64 = none := by
  refine ⟨?_, ?_, ?_, ?_, ?_, ?_⟩ <;> decide +kernel

end Vock.Dwarf
