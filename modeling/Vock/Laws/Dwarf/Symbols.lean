import Vock.Dwarf.Symbolizer
import Vock.Laws.Dwarf.Line

/-!
# The symbol before an address

`SymTab::before` sorts the symbols by address, functions first and then symbols with a size, and looks back from the
address to the first symbol of its run. Of the symbols of the table, in the order in which it has them, that is the
preferred one (`Preferred`, `before_preferred`).
-/

namespace Vock.Dwarf

open Library List

variable {syms : List Symbol} {a b s t : Symbol} {pc : U64} {symtab strtab ent : List U8} {l : List (U64 × List U8)}

/-! ## Symbols -/

/-- An entry that names code, and the symbol it is: a function or an entry without a type, defined, at an address,
with a name that is not that of a local label. -/
structure Eligible (strtab ent : List U8) (s : Symbol) : Prop where
  kind : leValue ((ent.drop 4).take 1) &&& 0xf#64 = if s.func then 2#64 else 0#64
  defined : leValue ((ent.drop 6).take 2) ≠ 0#64
  value : leValue ((ent.drop 8).take 8) = s.value
  nonzero : s.value ≠ 0#64
  sized : s.sized = true ↔ leValue ((ent.drop 16).take 8) ≠ 0#64
  name : cstrAt strtab (leValue (ent.take 4)).toNat = some s.name
  named : s.name ≠ []
  notLocal : ¬ utf8 ".L" <+: s.name
  notMapping : ¬ utf8 "$" <+: s.name

theorem symbolOf_eq_some_iff : symbolOf strtab ent = some s ↔ Eligible strtab ent s := by
  rw [symbolOf]
  simp only [Option.ite_none_left_eq_some, Option.bind_eq_some_iff, not_or, List.isPrefixOf_iff_prefix, drop_zero,
    Option.some.injEq]
  constructor
  · rintro ⟨⟨hdefined, hnonzero, hkind⟩, n, hname, ⟨hnamed, hlocal, hmapping⟩, rfl⟩
    exact ⟨by grind, hdefined, rfl, hnonzero, decide_eq_true_iff, hname, hnamed, hlocal, hmapping⟩
  · rintro ⟨hkind, hdefined, hvalue, hnonzero, hsized, hname, hnamed, hlocal, hmapping⟩
    obtain ⟨value, func, sized, name⟩ := s
    cases func <;> cases sized <;> simp_all

/-- The symbols of the table, in its order. -/
def symbols (symtab strtab : List U8) : List Symbol :=
  ((List.range (symtab.length / 24)).map fun i => (symtab.drop (24 * i)).take 24).filterMap (symbolOf strtab)

/-! ## The order -/

/-- The order as one of numbers. -/
def Symbol.rank (s : Symbol) : Nat :=
  4 * s.value.toNat + ((if s.func then 0 else 2) + if s.sized then 0 else 1)

theorem Symbol.le_iff : a.le b = true ↔ a.rank ≤ b.rank := by
  have hlt := @BitVec.lt_def 64 a.value b.value
  have heq := @BitVec.toNat_inj 64 a.value b.value
  rw [Symbol.le, rank, rank]
  cases a.func <;> cases b.func <;> cases a.sized <;> cases b.sized <;> simp [hlt, ← heq] <;> omega

theorem Symbol.le_trans (a b c : Symbol) (hab : a.le b = true) (hbc : b.le c = true) : a.le c = true := by
  rw [le_iff] at *
  exact hab.trans hbc

theorem Symbol.le_total (a b : Symbol) : (a.le b || b.le a) = true := by
  rw [Bool.or_eq_true, le_iff, le_iff]
  exact Nat.le_total _ _

theorem Symbol.value_le_of_le (h : a.le b = true) : a.value ≤ b.value := by
  rw [le_iff, rank, rank] at h
  rw [BitVec.le_def]
  grind

/-! ## The search -/

/-- Looking back over the run of an address leads to the first symbol there. -/
theorem getElem?_run (hsorted : l.Pairwise fun x y => x.1 ≤ y.1) {j : Nat}
    {z : U64 × List U8} (hz : l[j]? = some z) :
    l[((l.take j).reverse.dropWhile (·.1 = z.1)).length]? = l.find? (·.1 = z.1) := by
  induction l generalizing j with
  | nil => cases hz
  | cons x l ih =>
    obtain ⟨hx, hl⟩ := pairwise_cons.mp hsorted
    cases j with
    | zero =>
      obtain rfl : x = z := Option.some.inj hz
      simp
    | succ j =>
      rw [getElem?_cons_succ] at hz
      rw [take_succ_cons, reverse_cons, dropWhile_append]
      by_cases hxz : x.1 = z.1
      · -- sorted between two symbols of the address, all others are at it too
        have hrun : (l.take j).reverse.dropWhile (·.1 = z.1) = [] := by
          refine dropWhile_eq_nil_iff.mpr fun y hy => decide_eq_true ?_
          obtain ⟨i, hi, hget⟩ := mem_take_iff_getElem.mp (mem_reverse.mp hy)
          obtain ⟨hj, hgetj⟩ := List.getElem?_eq_some_iff.mp hz
          have hyz := pairwise_iff_getElem.mp hl i j (by omega) hj (by omega)
          rw [hget, hgetj] at hyz
          exact le_antisymm hyz (hxz ▸ hx y (hget ▸ getElem_mem _))
        simp [hrun, hxz]
      · rw [find?_cons_of_neg (by simpa using hxz), ← ih hl hz]
        split
        · rename_i hempty
          simp [isEmpty_iff.mp hempty, hxz]
        · simp

theorem symbolBefore_eq (hsorted : l.Pairwise fun x y => x.1 ≤ y.1) (pc : U64) :
    symbolBefore l pc = (l.takeWhile (·.1 ≤ pc)).getLast?.bind fun z => (l.find? (·.1 = z.1)).map Prod.snd := by
  rw [symbolBefore, getLast?_takeWhile]
  split
  · simp_all
  · rename_i j hlen
    rw [hlen, if_neg (Nat.succ_ne_zero j), Nat.succ_sub_one]
    cases hz : l[j]? with
    | none => rfl
    | some z => rw [Option.bind_some, Option.bind_some, getElem?_run hsorted hz]

/-! ## The preferred symbol -/

/-- The symbol `s` at place `i` of the table is the one to take at an address: it is at the greatest address up to it,
and there a function if there is one, then a symbol with a size, then the first. -/
structure Preferred (syms : List Symbol) (pc : U64) (i : Nat) (s : Symbol) : Prop where
  place : syms[i]? = some s
  le : s.value ≤ pc
  greatest : ∀ t ∈ syms, t.value ≤ pc → t.value ≤ s.value
  func : ∀ t ∈ syms, t.value = s.value → t.func = true → s.func = true
  sized : ∀ t ∈ syms, t.value = s.value → t.func = s.func → t.sized = true → s.sized = true
  first : ∀ (j : Nat) (t : Symbol), syms[j]? = some t → t.value = s.value → t.func = s.func → t.sized = s.sized → i ≤ j

theorem Preferred.unique {i j : Nat} (h : Preferred syms pc i s) (h' : Preferred syms pc j t) : s = t := by
  have hs := mem_of_getElem? h.place
  have ht := mem_of_getElem? h'.place
  have hvalue : s.value = t.value := le_antisymm (h'.greatest s hs h.le) (h.greatest t ht h'.le)
  have hfunc : s.func = t.func := Bool.eq_iff_iff.mpr ⟨h'.func s hs hvalue, h.func t ht hvalue.symm⟩
  have hsized : s.sized = t.sized :=
    Bool.eq_iff_iff.mpr ⟨h'.sized s hs hvalue hfunc, h.sized t ht hvalue.symm hfunc.symm⟩
  have hplace : i = j := Nat.le_antisymm (h.first j t h'.place hvalue.symm hfunc.symm hsized.symm)
    (h'.first i s h.place hvalue hfunc hsized)
  exact Option.some.inj (h.place.symm.trans (hplace ▸ h'.place))

/-- The first of the least symbols of an address. -/
theorem preferred_of_find? (hle : s.value ≤ pc) (hgreatest : ∀ t ∈ syms, t.value ≤ pc → t.value ≤ s.value)
    (hfind : (syms.mergeSort Symbol.le).find? (·.value = s.value) = some s) : ∃ i, Preferred syms pc i s := by
  obtain ⟨hleast, hfirst⟩ := find?_mergeSort Symbol.le_trans Symbol.le_total hfind
  obtain ⟨-, i, hi, hget, hbefore⟩ := find?_eq_some_iff_getElem.mp hfirst
  have hrank : ∀ t ∈ syms, t.value = s.value → s.rank ≤ t.rank := fun t ht hvalue =>
    Symbol.le_iff.mp (hleast t ht (decide_eq_true hvalue))
  refine ⟨i, List.getElem?_eq_some_iff.mpr ⟨hi, hget⟩, hle, hgreatest, ?_, ?_, ?_⟩
  · intro t ht hvalue hfunc
    grind [Symbol.rank]
  · intro t ht hvalue hfunc hsized
    grind [Symbol.rank]
  · intro j t ht hvalue hfunc hsized
    by_contra hlt
    obtain ⟨hj, rfl⟩ := List.getElem?_eq_some_iff.mp ht
    have htied : syms[j].le s = true := Symbol.le_iff.mpr (by rw [Symbol.rank, Symbol.rank, hvalue, hfunc, hsized])
    simpa [hvalue, htied] using hbefore j (Nat.lt_of_not_le hlt)

theorem before_of_le (h : ∃ t ∈ symbols symtab strtab, t.value ≤ pc) :
    ∃ i s, Preferred (symbols symtab strtab) pc i s ∧ symbolBefore (parseSymTab symtab strtab) pc = some s.name := by
  change ∃ i s, _ ∧ symbolBefore (((symbols symtab strtab).mergeSort Symbol.le).map fun s => (s.value, s.name)) pc = _
  generalize symbols symtab strtab = syms at h
  obtain ⟨t, ht, htpc⟩ := h
  have hsorted : ((syms.mergeSort Symbol.le).map fun s => (s.value, s.name)).Pairwise fun x y => x.1 ≤ y.1 :=
    pairwise_map.mpr ((pairwise_mergeSort Symbol.le_trans Symbol.le_total syms).imp Symbol.value_le_of_le)
  have hmem : ∀ t ∈ syms, (t.value, t.name) ∈ (syms.mergeSort Symbol.le).map fun s => (s.value, s.name) := fun t ht =>
    mem_map.mpr ⟨t, mem_mergeSort.mpr ht, rfl⟩
  obtain ⟨z, hz⟩ := exists_getLast?_takeWhile hsorted (hmem t ht) htpc
  obtain ⟨⟨hzmem, hzpc⟩, hmax⟩ := getLast?_takeWhile_le hsorted hz
  obtain ⟨y, hy, rfl⟩ := mem_map.mp hzmem
  obtain ⟨s, hs⟩ : ∃ s, (syms.mergeSort Symbol.le).find? (·.value = y.value) = some s :=
    Option.isSome_iff_exists.mp (find?_isSome.mpr ⟨y, hy, decide_eq_true rfl⟩)
  have hvalue : s.value = y.value := by simpa using find?_some hs
  rw [← hvalue] at hs hzpc hmax
  obtain ⟨i, hi⟩ := preferred_of_find? hzpc (fun t ht htpc => hmax _ (hmem t ht) htpc) hs
  refine ⟨i, s, hi, ?_⟩
  simp [symbolBefore_eq hsorted, hz, ← hvalue, hs]

theorem before_eq_none (h : ∀ s ∈ symbols symtab strtab, pc < s.value) :
    symbolBefore (parseSymTab symtab strtab) pc = none := by
  have hnil : (parseSymTab symtab strtab).takeWhile (·.1 ≤ pc) = [] := by
    refine eq_nil_iff_forall_not_mem.mpr fun x hx => ?_
    obtain ⟨s, hs, rfl⟩ := mem_map.mp ((List.takeWhile_prefix _).subset hx)
    have hle := mem_takeWhile_imp hx
    exact absurd (of_decide_eq_true hle) (not_le.mpr (h s (mem_mergeSort.mp hs)))
  rw [symbolBefore, hnil]
  rfl

/-- For every table and every address, `SymTab::before` names the preferred one of the symbols that name code, and
gives none exactly where all of them are behind the address. -/
theorem before_preferred (symtab strtab : List U8) (pc : U64) :
    (∀ ent s, symbolOf strtab ent = some s ↔ Eligible strtab ent s) ∧
      (∀ name, symbolBefore (parseSymTab symtab strtab) pc = some name ↔
        ∃ i s, Preferred (symbols symtab strtab) pc i s ∧ s.name = name) ∧
      (symbolBefore (parseSymTab symtab strtab) pc = none ↔ ∀ s ∈ symbols symtab strtab, pc < s.value) := by
  refine ⟨fun ent s => symbolOf_eq_some_iff, fun name => ⟨fun h => ?_, ?_⟩, fun h s hs => ?_, before_eq_none⟩
  · have hle : ∃ t ∈ symbols symtab strtab, t.value ≤ pc := by
      by_contra hnot
      rw [before_eq_none fun s hs => not_le.mp fun hle => hnot ⟨s, hs, hle⟩] at h
      cases h
    obtain ⟨i, s, hi, hs⟩ := before_of_le hle
    exact ⟨i, s, hi, Option.some.inj (hs.symm.trans h)⟩
  · rintro ⟨i, s, hi, rfl⟩
    obtain ⟨j, t, hj, ht⟩ := before_of_le ⟨s, mem_of_getElem? hi.place, hi.le⟩
    rw [ht, hi.unique hj]
  · by_contra hle
    obtain ⟨_, t, _, ht⟩ := before_of_le ⟨s, hs, not_lt.mp hle⟩
    rw [h] at ht
    cases ht

end Vock.Dwarf
