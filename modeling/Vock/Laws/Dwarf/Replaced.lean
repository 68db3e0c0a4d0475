import Vock.Laws.Dwarf.Aranges

/-!
# A bad unit

One unit of `.debug_info` is replaced by another one of the same length. The ranges of the others are in the index where
the scan still comes to them (`keepsOthers_iff`): it stops at the first header that cannot be read, also where the
initial length says where the next unit begins, so that a unit of an unknown version takes those behind it with it.

`unit_replaced_iff` says of the PCs of the other units what becomes of their answers, where the new unit has no root
entry that can be read. The unit of such a PC is found as before (`unitOf_replaced`), also where ranges overlap, as the
search passes less ranges than before; but a name that refers to an entry of the replaced unit is lost.

That the other units are read from their own bytes is assumed of them there (`Undisturbed`), as a unit whose entries run
over its end reads bytes of its neighbour. So is that the header of the replaced unit could be read before, and that
`.debug_aranges` lists offsets of units.
-/

namespace Vock.Dwarf

open Library Library.Interval List

section

variable {o : Opened} {lossy : List U8 → List U8} {units : List (List U8)} {k : Nat} {bs bad : List U8} {r : Range} {pc : U64}

/-! ## The index -/

variable (o lossy) in
/-- The index of a symbolizer that was asked nothing before. -/
def indexed : List Range := (fullIndex o lossy Caches.empty).1.getD []

theorem indexed_eq : indexed o lossy = index o lossy := by
  obtain ⟨s, hs, _⟩ := gives_fullIndex _ (@valid_empty o lossy)
  rw [indexed, hs]
  rfl

/-- The file with another `.debug_info`. -/
def Opened.withInfo (o : Opened) (info : List U8) : Opened := { o with sec := { o.sec with info } }

/-- The file with the replaced unit. -/
abbrev replacedIn (o : Opened) (units : List (List U8)) (k : Nat) (bad : List U8) : Opened :=
  o.withInfo (units.set k bad).flatten

/-- The index keeps the ranges of all units but one. -/
def KeepsOthers (o : Opened) (lossy : List U8 → List U8) (units : List (List U8)) (k : Nat) (bad : List U8) : Prop :=
  ∀ r ∈ indexed o lossy, r.unit ≠ offAt units k → r ∈ indexed (replacedIn o units k bad) lossy

/-- A unit of `.debug_info` is replaced by another one of the same length, with a correct initial length too. -/
structure Replaced (o : Opened) (units : List (List U8)) (k : Nat) (bs bad : List U8) : Prop where
  old : ∀ bs ∈ units, UnitBytes bs
  info : o.sec.info = units.flatten
  position : units[k]? = some bs
  new : UnitBytes bad
  length : bad.length = bs.length

theorem Replaced.set (h : Replaced o units k bs bad) : ∀ bs ∈ units.set k bad, UnitBytes bs := by
  intro bs hbs
  rcases List.mem_or_eq_of_mem_set hbs with hmem | rfl
  · exact h.old bs hmem
  · exact h.new

theorem Replaced.lt (h : Replaced o units k bs bad) : k < units.length := (List.getElem?_eq_some_iff.mp h.position).1

theorem Replaced.unit_ne {i : Nat} (h : Replaced o units k bs bad) (hi : i < units.length) (hik : i ≠ k) :
    offAt units i ≠ offAt units k := fun heq => hik (offAt_inj h.old hi.le h.lt.le heq)

theorem mem_index_replaced (h : Replaced o units k bs bad) :
    r ∈ index (replacedIn o units k bad) lossy ↔ ∃ i < units.length,
      r ∈ unitRanges (replacedIn o units k bad).sec lossy (offAt units i) ∧
        ∀ j ≤ i, (parseHeader (units.set k bad).flatten (offAt units j)).isSome := by
  rw [mem_index_iff h.set rfl, length_set]
  simp only [offAt_set h.position h.length]
  rfl

/-- The ranges of the others are kept where they can still be read, and the scan comes to them: all headers in front of
them can be read, that of the replaced unit too. -/
theorem keepsOthers_iff (h : Replaced o units k bs bad) :
    KeepsOthers o lossy units k bad ↔
      ∀ i < units.length, i ≠ k → ∀ r ∈ unitRanges o.sec lossy (offAt units i), r ∈ indexed o lossy →
        r ∈ unitRanges (replacedIn o units k bad).sec lossy (offAt units i) ∧
          ∀ j ≤ i, (parseHeader (units.set k bad).flatten (offAt units j)).isSome := by
  rw [KeepsOthers, indexed_eq, indexed_eq]
  constructor
  · intro hkept i hi hik r hr hmem
    have hunit := unit_of_mem_unitRanges hr
    obtain ⟨i', hi', hr', hheaders⟩ := (mem_index_replaced h).mp (hkept r hmem (hunit ▸ h.unit_ne hi hik))
    obtain rfl : i' = i := offAt_inj h.old hi'.le hi.le ((unit_of_mem_unitRanges hr').symm.trans hunit)
    exact ⟨hr', hheaders⟩
  · intro hkept r hr hunit
    obtain ⟨i, hi, hri, _⟩ := (mem_index_iff h.old h.info).mp hr
    have hik : i ≠ k := by
      rintro rfl
      exact hunit (unit_of_mem_unitRanges hri)
    obtain ⟨hkeeps, hheaders⟩ := hkept i hi hik r hri hr
    exact (mem_index_replaced h).mpr ⟨i, hi, hkeeps, hheaders⟩

end

/-! ## What is not read from `.debug_info` -/

section

variable {o : Opened} {info : List U8} {lossy : List U8 → List U8} (u : Unit)

theorem readEntryV5_withInfo (shape : UnitShape) (fmts : List (U64 × Nat)) (entry : List U8 × U64) :
    readEntryV5 (o.withInfo info).sec lossy u shape fmts entry = readEntryV5 o.sec lossy u shape fmts entry := by
  induction fmts generalizing entry with
  | nil => rfl
  | cons fmt fmts ih =>
    rw [readEntryV5, readEntryV5]
    simp only [ih]
    rfl

theorem readTables_withInfo (shape : UnitShape) :
    readTables (o.withInfo info).sec lossy u shape = readTables o.sec lossy u shape := by
  simp only [readTables, readEntriesV5, readEntryV5_withInfo]
  rfl

theorem lineTable_withInfo : u.lineTable (o.withInfo info).sec lossy = u.lineTable o.sec lossy := by
  have hparams : readLineParams (o.withInfo info).sec lossy u = readLineParams o.sec lossy u := by
    funext shape progStart stop
    simp only [readLineParams, readTables_withInfo]
  simp only [Unit.lineTable]
  refine congrArg u.stmtList.bind (funext fun off => ?_)
  simp only [LineTable.parse, readLineHeader, hparams]
  rfl

theorem rnglistsLoop_withInfo (fuel : Nat) (c : Cur) (base : U64) :
    rnglistsLoop (o.withInfo info).sec u fuel c base = rnglistsLoop o.sec u fuel c base := by
  have hentry : readRngEntry (o.withInfo info).sec u = readRngEntry o.sec u := rfl
  induction fuel generalizing c base with
  | zero => rfl
  | succ fuel ih =>
    rw [rnglistsLoop, rnglistsLoop, hentry]
    simp only [ih]

theorem indexRanges_withInfo (off : Nat) : u.indexRanges (o.withInfo info).sec off = u.indexRanges o.sec off := by
  simp only [Unit.indexRanges, Unit.addressRanges, Unit.dieRanges, Unit.rangeList, rnglistsLoop_withInfo]
  rfl
end

/-! ## The other units -/

/-- A unit of the file, but not that at a position. -/
def Other (o : Opened) (lossy : List U8 → List U8) (units : List (List U8)) (k : Nat) (u : Unit) : Prop :=
  ∃ i < units.length, i ≠ k ∧ Unit.parse o.sec lossy (offAt units i) = some u

/-- From another `.debug_info` all units but one are read as they were: their headers, their root entries, their
functions and each of their entries. -/
structure Undisturbed (o : Opened) (lossy : List U8 → List U8) (units : List (List U8)) (k : Nat) (info : List U8) :
    Prop where
  headers : ∀ i < units.length, i ≠ k → parseHeader info (offAt units i) = parseHeader o.sec.info (offAt units i)
  roots : ∀ i < units.length, i ≠ k →
    Unit.parse (o.withInfo info).sec lossy (offAt units i) = Unit.parse o.sec lossy (offAt units i)
  walks : ∀ u, Other o lossy units k u → u.walk (o.withInfo info).sec lossy = u.walk o.sec lossy
  entries : ∀ u, Other o lossy units k u → ∀ off, u.dieOff ≤ off → off < u.endOff →
    u.entryAt (o.withInfo info).sec off = u.entryAt o.sec off

section

variable {o : Opened} {lossy : List U8 → List U8} {units : List (List U8)} {k : Nat} {info bs bad : List U8} {r : Range}
  {pc : U64} {u : Unit}

/-- Along the entries of other units a name is what it was. -/
theorem nameFrom_undisturbed (h : Undisturbed o lossy units k info) {recorded : Unit → Nat → Option (List U8)}
    {find : Nat → Option Unit} (hfind : ∀ off v, find off = some v → Other o lossy units k v) (fuel : Nat) {u : Unit}
    (hu : Other o lossy units k u) (off hops : Nat) :
    nameFrom (o.withInfo info) lossy recorded find fuel u off hops = nameFrom o lossy recorded find fuel u off hops := by
  induction fuel generalizing u off hops with
  | zero => rfl
  | succ fuel ih =>
    rw [nameFrom, nameFrom]
    refine congrArg _ ?_
    split
    · rfl
    next hin =>
      rw [h.entries u hu off (by omega) (by omega)]
      refine congrArg _ (funext fun e => ?_)
      refine congrArg _ (congrArg _ (funext fun next => ?_))
      cases hv : find next with
      | none => rw [Option.bind_none, Option.bind_none]
      | some v => rw [Option.bind_some, Option.bind_some, ih (hfind next v hv)]

theorem nameOf_undisturbed (h : Undisturbed o lossy units k info) {recorded : Unit → Nat → Option (List U8)}
    {find : Nat → Option Unit} (hfind : ∀ off v, find off = some v → Other o lossy units k v)
    (hu : Other o lossy units k u) (name : Name) :
    nameOf (o.withInfo info) lossy recorded find u name = nameOf o lossy recorded find u name := by
  cases name with
  | none | direct s => rfl
  | die off =>
    rw [nameOf, nameOf]
    cases hv : startOf find u off with
    | none => rw [Option.bind_none, Option.bind_none]
    | some v =>
      rw [Option.bind_some, Option.bind_some]
      refine nameFrom_undisturbed h hfind 6 ?_ off 0
      rw [startOf] at hv
      split at hv
      · exact Option.some.inj hv ▸ hu
      · exact hfind off v hv

theorem unitRanges_undisturbed (h : Undisturbed o lossy units k info) {i : Nat} (hi : i < units.length) (hik : i ≠ k) :
    unitRanges (o.withInfo info).sec lossy (offAt units i) = unitRanges o.sec lossy (offAt units i) := by
  rw [unitRanges, unitRanges, h.roots i hi hik]
  refine congrArg _ (funext fun u => ?_)
  exact indexRanges_withInfo u _

/-- What is asked of a file for the replaced unit to be found missing only where its entries are asked for: it could be
read before, it cannot be read now, all others are read as they were, and what is listed are units. -/
structure Isolated (o : Opened) (lossy : List U8 → List U8) (units : List (List U8)) (k : Nat) (bad : List U8) : Prop where
  listed : ∀ off ∈ o.unitOffsets, ∃ i < units.length, off = offAt units i
  header : (parseHeader o.sec.info (offAt units k)).isSome
  unread : Unit.parse (replacedIn o units k bad).sec lossy (offAt units k) = none
  others : Undisturbed o lossy units k (units.set k bad).flatten

theorem mem_of_listedBefore {l : List Nat} {off uoff : Nat} (h : listedBefore l off = some uoff) : uoff ∈ l := by
  rw [listedBefore_eq] at h
  exact (List.takeWhile_sublist _).subset (mem_of_getLast? h)

/-- The units up to the first whose header cannot be read. -/
def scan (units : List (List U8)) (info : List U8) : List Nat :=
  (range' 0 units.length).takeWhile fun j => (parseHeader info (offAt units j)).isSome

theorem mem_scan_iff {i : Nat} :
    i ∈ scan units info ↔ i < units.length ∧ ∀ j ≤ i, (parseHeader info (offAt units j)).isSome := by
  rw [scan, mem_takeWhile_range', Nat.zero_add, and_iff_right (Nat.zero_le i)]
  exact and_congr_right fun _ => forall_congr' fun j => imp_iff_right (Nat.zero_le j)

theorem scan_isPrefix (units : List (List U8)) (info : List U8) : scan units info <+: range' 0 units.length :=
  List.takeWhile_prefix _

theorem nodup_scan (units : List (List U8)) (info : List U8) : (scan units info).Nodup :=
  (nodup_range' 1).sublist (scan_isPrefix units info).sublist

section

variable (h : Replaced o units k bs bad) (hiso : Isolated o lossy units k bad)
include h hiso

/-- Only the replaced unit is not found any more. -/
theorem containing_replaced : containing (replacedIn o units k bad) lossy = fun off =>
    (containing o lossy off).filter fun u => decide (u.shape.off ≠ offAt units k) := by
  funext off
  rw [containing, containing]
  change (listedBefore o.unitOffsets off).bind _ = _
  cases hbefore : listedBefore o.unitOffsets off with
  | none => rfl
  | some uoff =>
    obtain ⟨i, hi, rfl⟩ := hiso.listed uoff (mem_of_listedBefore hbefore)
    rw [Option.bind_some, Option.bind_some]
    by_cases hik : i = k
    · rw [hik, hiso.unread, Option.filter_none, Option.filter_filter]
      refine (Option.filter_eq_none_iff.mpr fun u hu => ?_).symm
      simp [parse_off hu]
    · have hne := h.unit_ne hi hik
      rw [hiso.others.roots i hi hik]
      cases hu : Unit.parse o.sec lossy (offAt units i) with
      | none => rfl
      | some u =>
        rw [← parse_off hu] at hne
        by_cases hend : off < u.endOff
        · simp [Option.filter_some, hend, hne]
        · simp [Option.filter_some, hend]

theorem unitRanges_replaced {i : Nat} (hi : i < units.length) :
    (unitRanges o.sec lossy (offAt units i)).filter (fun r => decide (r.unit ≠ offAt units k)) =
      unitRanges (replacedIn o units k bad).sec lossy (offAt units i) := by
  by_cases hik : i = k
  · have hnone : unitRanges (replacedIn o units k bad).sec lossy (offAt units k) = [] := by
      rw [unitRanges, hiso.unread, Option.elim_none]
    rw [hik, hnone]
    refine filter_eq_nil_iff.mpr fun r hr => ?_
    simp [unit_of_mem_unitRanges hr]
  · rw [unitRanges_undisturbed hiso.others hi hik]
    refine filter_eq_self.mpr fun r hr => decide_eq_true ?_
    rw [unit_of_mem_unitRanges hr]
    exact h.unit_ne hi hik

omit h in
/-- What the scan comes to in the new file it came to in the old one. -/
theorem header_of_replaced {i : Nat} (hi : i < units.length)
    (hheader : (parseHeader (units.set k bad).flatten (offAt units i)).isSome) :
    (parseHeader o.sec.info (offAt units i)).isSome := by
  by_cases hik : i = k
  · exact hik ▸ hiso.header
  · rwa [← hiso.others.headers i hi hik]

/-- The scan of the new file ends where that of the old one does, or in front of units without ranges. -/
theorem scan_replaced (hkept : KeepsOthers o lossy units k bad) :
    (scan units (units.set k bad).flatten).flatMap
        (fun j => unitRanges (replacedIn o units k bad).sec lossy (offAt units j)) =
      (scan units o.sec.info).flatMap fun j => unitRanges (replacedIn o units k bad).sec lossy (offAt units j) := by
  have hnodup := nodup_scan units
  rcases prefix_or_prefix_of_prefix (scan_isPrefix units (units.set k bad).flatten) (scan_isPrefix units o.sec.info)
    with ⟨rest, hrest⟩ | ⟨rest, hrest⟩
  · -- a range behind the end of the new scan would be kept, so that the scan comes to its unit
    have hempty : ∀ j ∈ rest, unitRanges (replacedIn o units k bad).sec lossy (offAt units j) = [] := by
      intro j hj
      have hold : j ∈ scan units o.sec.info := hrest ▸ mem_append_right _ hj
      obtain ⟨hlt, hheaders⟩ := mem_scan_iff.mp hold
      refine eq_nil_iff_forall_not_mem.mpr fun r hr => ?_
      rw [← unitRanges_replaced h hiso hlt] at hr
      obtain ⟨hr, hunit⟩ := mem_filter.mp hr
      have hmem : r ∈ indexed o lossy := by
        rw [indexed_eq]
        exact (mem_index_iff h.old h.info).mpr ⟨j, hlt, hr, hheaders⟩
      have hkeeps := hkept r hmem (of_decide_eq_true hunit)
      rw [indexed_eq] at hkeeps
      obtain ⟨i, hi, hr', hheaders'⟩ := (mem_index_replaced h).mp hkeeps
      obtain rfl : i = j :=
        offAt_inj h.old hi.le hlt.le ((unit_of_mem_unitRanges hr').symm.trans (unit_of_mem_unitRanges hr))
      have hnodup := hnodup o.sec.info
      rw [← hrest] at hnodup
      exact (nodup_append.mp hnodup).2.2 i (mem_scan_iff.mpr ⟨hi, hheaders'⟩) i hj rfl
    rw [← hrest, flatMap_append, flatMap_eq_nil_iff.mpr hempty, append_nil]
  · have hempty : rest = [] := by
      refine eq_nil_iff_forall_not_mem.mpr fun j hj => ?_
      have hnew : j ∈ scan units (units.set k bad).flatten := hrest ▸ mem_append_right _ hj
      obtain ⟨hlt, hheaders⟩ := mem_scan_iff.mp hnew
      have hold : j ∈ scan units o.sec.info :=
        mem_scan_iff.mpr ⟨hlt, fun i hi => header_of_replaced hiso (by omega) (hheaders i hi)⟩
      have hnodup := hnodup (units.set k bad).flatten
      rw [← hrest] at hnodup
      exact (nodup_append.mp hnodup).2.2 j hold j hj rfl
    rw [← hrest, hempty, append_nil]

/-- Where the ranges of the others are kept, the index is what it was without those of the replaced unit. -/
theorem index_replaced (hkept : KeepsOthers o lossy units k bad) :
    index (replacedIn o units k bad) lossy = (index o lossy).filter fun r => decide (r.unit ≠ offAt units k) := by
  have htrans : ∀ a b c : Range, a.le b = true → b.le c = true → a.le c = true := fun a b c hab hbc =>
    decide_eq_true ((of_decide_eq_true hab).trans (of_decide_eq_true hbc))
  have htotal : ∀ a b : Range, (a.le b || b.le a) = true := fun a b => by
    simpa [Range.le] using le_total a.start b.start
  rw [index_units (h.set) rfl, index_units h.old h.info, ← mergeSort_filter htrans htotal,
    filter_flatMap, length_set]
  simp only [offAt_set h.position h.length]
  refine congrArg (mergeSort · Range.le) ((scan_replaced h hiso hkept).trans ?_)
  exact flatMap_congr fun j hj => (unitRanges_replaced h hiso (mem_scan_iff.mp hj).1).symm

/-- The unit of a PC is what it was, if it is not the replaced one. -/
theorem unitOf_replaced (hkept : KeepsOthers o lossy units k bad) (hu : unitOf o lossy pc = some u)
    (hother : Other o lossy units k u) : unitOf (replacedIn o units k bad) lossy pc = some u := by
  obtain ⟨i, hi, hik, hparse⟩ := hother
  obtain ⟨off, hoff, hroot⟩ := Option.bind_eq_some_iff.mp hu
  obtain rfl : off = offAt units i := (parse_off hroot).symm.trans (parse_off hparse)
  refine Option.bind_eq_some_iff.mpr ⟨offAt units i, ?_, (hiso.others.roots i hi hik).trans hparse⟩
  rw [Option.or_eq_some_iff] at hoff ⊢
  refine hoff.imp_right fun ⟨hlisted, hindex⟩ => ⟨hlisted, ?_⟩
  obtain ⟨r, hr, hunit⟩ := Option.map_eq_some_iff.mp hindex
  refine Option.map_eq_some_iff.mpr ⟨r, ?_, hunit⟩
  rw [index_replaced h hiso hkept]
  refine lookBack_filter ?_ (decide_eq_true (hunit ▸ h.unit_ne hi hik)) hr
  exact (pairwise_mergeSort' (fun r s : Range => r.start ≤ s.start) _)

theorem readsAlike_replaced (hother : Other o lossy units k u) :
    ReadsAlike (replacedIn o units k bad) o lossy (fun v => decide (v.shape.off ≠ offAt units k)) u where
  walk := hiso.others.walks u hother
  lines := lineTable_withInfo u
  names := by
    intro recorded name
    rw [containing_replaced h hiso, nameOf_undisturbed hiso.others ?_ hother, nameOf_filter]
    intro off v hv
    obtain ⟨hv, hne⟩ := Option.filter_eq_some_iff.mp hv
    obtain ⟨uoff, hbefore, hv⟩ := Option.bind_eq_some_iff.mp hv
    obtain ⟨i, hi, rfl⟩ := hiso.listed uoff (mem_of_listedBefore hbefore)
    have hparse := (Option.filter_eq_some_iff.mp hv).1
    refine ⟨i, hi, fun hik => of_decide_eq_true hne ?_, hparse⟩
    rw [parse_off hparse, hik]

end

end

/-! ## One of two units -/

section

/-- A unit of `acrossInfo` with a byte changed. -/
def badUnit (k i : Nat) : List U8 := (acrossUnits.getD k []).set i 9#8

def badAcross (k i : Nat) : Opened := replacedIn (across false) acrossUnits k (badUnit k i)

/-- The byte 4 is the version, the byte 11 is the number of the root entry. -/
theorem replaced_across :
    ∀ k < 2, ∀ i ∈ [4, 11], Replaced (across false) acrossUnits k (acrossUnits.getD k []) (badUnit k i) := by
  intro k hk i hi
  have hbytes : UnitBytes (badUnit k i) := by
    refine ⟨false, (badUnit k i).drop 4, ?_⟩
    revert k i
    decide
  have hposition : ∀ k < 2, acrossUnits[k]? = some (acrossUnits.getD k []) := by decide
  exact ⟨acrossUnits_bytes, by decide, hposition k hk, hbytes, length_set⟩

theorem unit_across {k : Nat} (hk : k < 2) {u : Unit} (hu : Other (across false) id acrossUnits k u) :
    (k = 1 ∧ u = acrossFirst false) ∨ (k = 0 ∧ u = acrossSecond false) := by
  obtain ⟨i, hi, hik, hu⟩ := hu
  have hlt : i < 2 := hi
  obtain rfl | rfl : i = 0 ∨ i = 1 := by omega
  · exact .inl ⟨by omega, Option.some.inj (hu.symm.trans (parse_acrossFirst false))⟩
  · exact .inr ⟨by omega, Option.some.inj (hu.symm.trans (parse_acrossSecond false))⟩

theorem walk_congr {sec sec' : Sections} {lossy : List U8 → List U8} {u : Unit}
    (h : walkLoop sec lossy u (sec.info.length + 1) WalkState.start ⟨sec.info, u.dieOff⟩ =
      walkLoop sec' lossy u (sec'.info.length + 1) WalkState.start ⟨sec'.info, u.dieOff⟩) :
    u.walk sec lossy = u.walk sec' lossy := by
  rw [Unit.walk, Unit.walk, h]

/-- Each unit is read from its own bytes. -/
theorem undisturbed_across : ∀ k < 2, Undisturbed (across false) id acrossUnits k (acrossUnits.set k (badUnit k 11)).flatten := by
  intro k hk
  refine ⟨?_, ?_, fun u hu => ?_, fun u hu => ?_⟩
  · revert k
    decide +kernel
  · revert k
    decide +kernel
  · rcases unit_across hk hu with ⟨rfl, hunit⟩ | ⟨rfl, hunit⟩
    · rw [hunit]
      exact walk_congr (by decide +kernel)
    · rw [hunit]
      exact walk_congr (by decide +kernel)
  · rcases unit_across hk hu with ⟨rfl, hunit⟩ | ⟨rfl, hunit⟩
    · have hends : (acrossFirst false).dieOff = 11 ∧ (acrossFirst false).endOff = 39 := by decide +kernel
      have hentries : ∀ off ∈ range' 11 28,
          (acrossFirst false).entryAt (badAcross 1 11).sec off = (acrossFirst false).entryAt (across false).sec off := by
        decide +kernel
      rw [hunit, hends.1, hends.2]
      exact fun off hle hlt => hentries off (mem_range'_1.mpr (by omega))
    · have hends : (acrossSecond false).dieOff = 50 ∧ (acrossSecond false).endOff = 76 := by decide +kernel
      have hentries : ∀ off ∈ range' 50 26,
          (acrossSecond false).entryAt (badAcross 0 11).sec off = (acrossSecond false).entryAt (across false).sec off := by
        decide +kernel
      rw [hunit, hends.1, hends.2]
      exact fun off hle hlt => hentries off (mem_range'_1.mpr (by omega))

theorem isolated_across : ∀ k < 2, Isolated (across false) id acrossUnits k (badUnit k 11) := by
  intro k hk
  refine ⟨?_, ?_, ?_, undisturbed_across k hk⟩
  · rw [across_unitOffsets]
    decide
  · revert k
    decide +kernel
  · revert k
    decide +kernel

theorem keepsOthers_across : ∀ k < 2, ∀ i < acrossUnits.length, i ≠ k →
    ∀ r ∈ unitRanges (across false).sec id (offAt acrossUnits i), r ∈ indexed (across false) id →
      r ∈ unitRanges (badAcross k 11).sec id (offAt acrossUnits i) ∧
        ∀ j ≤ i, (parseHeader (badAcross k 11).sec.info (offAt acrossUnits j)).isSome := by
  have hkept : ∀ k < 2, ∀ i < acrossUnits.length, i ≠ k →
      ∀ r ∈ unitRanges (across false).sec id (offAt acrossUnits i),
        r ∈ unitRanges (badAcross k 11).sec id (offAt acrossUnits i) ∧
          ∀ j ≤ i, (parseHeader (badAcross k 11).sec.info (offAt acrossUnits j)).isSome := by decide +kernel
  exact fun k hk i hi hik r hr _ => hkept k hk i hi hik r hr

/-- The name of the second function is in the first unit. -/
theorem first_mem_passes : acrossFirst false ∈ passes (across false) id 0x20#64 := by
  obtain ⟨-, ⟨hout, -⟩, -⟩ := across_read false
  have hstart := startOf_across false
  rw [startOf, if_neg hout] at hstart
  rw [passes, unitOf_acrossSecond, Option.elim_some, find_acrossSecond, Option.elim_some, passedBy, if_neg hout, hstart]
  exact mem_cons_self

end

end Vock.Dwarf
