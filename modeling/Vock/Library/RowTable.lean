import Mathlib.Data.Set.Finite.Lemmas
import Vock.Library.Sorted

/-!
# Tables of rows in sequences

A table is a list of sequences: rows at addresses that do not descend, and behind them the end of the
sequence. A row holds from its address up to the next row of its sequence (`lookup`). A reader may put the
rows and ends of all sequences into one list, sort it by address with the ends in front of the rows, and take
the last element at or before an address (`search`). The two agree but where rows stand at the ends of
sequences (`search_lookup_iff`).
-/

namespace Vock.Library

open List

/-! ## Sorted lists -/

section

variable {A : Type} [LinearOrder A] {l : List A}

theorem eraseRepsBy_loop_sublist (l acc : List A) (a : A) :
    (List.eraseRepsBy.loop (· == ·) a l acc).Sublist (acc.reverse ++ a :: l) := by
  induction l generalizing a acc with
  | nil =>
    rw [eraseRepsBy.loop, reverse_cons]
  | cons b l ih =>
    rw [eraseRepsBy.loop]
    split
    next => exact (ih acc a).trans ((((sublist_cons_self b l).cons_cons a)).append_left _)
    next =>
      have hrest := ih (a :: acc) b
      rwa [reverse_cons, append_assoc] at hrest

theorem mem_eraseRepsBy_loop {acc : List A} {a x : A} (h : x ∈ acc ∨ x ∈ a :: l) :
    x ∈ List.eraseRepsBy.loop (· == ·) a l acc := by
  induction l generalizing a acc with
  | nil =>
    rw [eraseRepsBy.loop, mem_reverse, mem_cons]
    exact h.symm.imp_left mem_singleton.mp
  | cons b l ih =>
    rw [eraseRepsBy.loop]
    split
    next heq =>
      have hab : a = b := eq_of_beq heq
      subst hab
      refine ih (h.imp_right fun hx => ?_)
      rcases mem_cons.mp hx with rfl | hx
      · exact mem_cons_self
      · exact hx
    next =>
      refine ih ?_
      rcases h with h | h
      · exact .inl (mem_cons_of_mem a h)
      · rcases mem_cons.mp h with rfl | h
        · exact .inl mem_cons_self
        · exact .inr h

theorem eraseReps_sublist (l : List A) : l.eraseReps.Sublist l := by
  cases l with
  | nil => exact .slnil
  | cons a l => exact eraseRepsBy_loop_sublist l [] a

/-- What is repeated is kept once. -/
theorem mem_eraseReps {x : A} : x ∈ l.eraseReps ↔ x ∈ l := by
  refine ⟨fun h => (eraseReps_sublist l).subset h, fun h => ?_⟩
  cases l with
  | nil => cases h
  | cons a l => exact mem_eraseRepsBy_loop (.inr h)

end

/-! ## Sequences -/

/-- A sequence: its rows in order, and its end. -/
structure Sequence (ε : Type) where
  rows : List ε
  last : ε

def Sequence.entries {ε : Type} (s : Sequence ε) : List ε := s.rows ++ [s.last]

section

variable {ε A : Type} [LinearOrder A] (addr : ε → A) (stop : ε → Bool)

/-- An address is in the sequence, from its first row up to its end. -/
def Sequence.covers (s : Sequence ε) (a : A) : Bool :=
  s.rows.head?.any (fun r => addr r ≤ a) && decide (a < addr s.last)

/-- The row of the sequence that holds at an address. -/
def Sequence.rowAt (s : Sequence ε) (a : A) : Option ε := s.rows.reverse.find? fun r => addr r ≤ a

/-- The row that holds at an address, in the sequence that covers it. -/
def lookup (seqs : List (Sequence ε)) (a : A) : Option ε :=
  (seqs.find? fun s => s.covers addr a).bind fun s => s.rowAt addr a

/-- The order of the one list: by address, the ends in front. -/
def rowLe (x y : ε) : Bool := addr x < addr y || (addr x = addr y && (stop x || !stop y))

/-- The last element at or before an address in the sorted list, if it is a row. -/
def search (entries : List ε) (a : A) : Option ε :=
  ((entries.mergeSort (rowLe addr stop)).takeWhile fun e => addr e ≤ a).getLast?.filter fun e => !stop e

/-- The last row that stands at an address, in the order of the sequences. -/
def lastRow (entries : List ε) (a : A) : Option ε := entries.reverse.find? fun e => addr e = a && !stop e

/-- The sequences of a table: ends stand at the ends only, addresses do not descend in a sequence, and no
address is in two of them. -/
structure WellSequenced (seqs : List (Sequence ε)) : Prop where
  rows : ∀ s ∈ seqs, ∀ r ∈ s.rows, stop r = false
  last : ∀ s ∈ seqs, stop s.last = true
  ascending : ∀ s ∈ seqs, s.entries.Pairwise fun x y => addr x ≤ addr y
  disjoint : seqs.Pairwise fun s t => ∀ a, ¬ (s.covers addr a = true ∧ t.covers addr a = true)

variable {addr stop} {x : ε} {entries : List ε} {s : Sequence ε} {seqs : List (Sequence ε)}

theorem rowLe_iff {y : ε} :
    rowLe addr stop x y = true ↔ addr x < addr y ∨ addr x = addr y ∧ (stop x = true ∨ stop y = false) := by
  simp [rowLe]

theorem rowLe_trans (x y z : ε) (hxy : rowLe addr stop x y = true) (hyz : rowLe addr stop y z = true) :
    rowLe addr stop x z = true := by
  rw [rowLe_iff] at hxy hyz ⊢
  rcases hxy with hxy | ⟨hxy, hx⟩
  · rcases hyz with hyz | ⟨hyz, _⟩
    · exact .inl (hxy.trans hyz)
    · exact .inl (hyz ▸ hxy)
  · rcases hyz with hyz | ⟨hyz, hy⟩
    · exact .inl (hxy ▸ hyz)
    · refine .inr ⟨hxy.trans hyz, ?_⟩
      rcases hx with hx | hx
      · exact .inl hx
      · exact hy.imp_left fun hy => absurd hy (by rw [hx]; decide)

theorem rowLe_total (x y : ε) : (rowLe addr stop x y || rowLe addr stop y x) = true := by
  rw [Bool.or_eq_true, rowLe_iff, rowLe_iff]
  rcases lt_trichotomy (addr x) (addr y) with h | h | h
  · exact .inl (.inl h)
  · cases hx : stop x with
    | true => exact .inl (.inr ⟨h, .inl rfl⟩)
    | false => exact .inr (.inr ⟨h.symm, .inr rfl⟩)
  · exact .inr (.inl h)

theorem addr_le_of_rowLe {y : ε} (h : rowLe addr stop x y = true) : addr x ≤ addr y := by
  rcases rowLe_iff.mp h with h | ⟨h, _⟩
  · exact h.le
  · exact h.le

/-- An element that no later one and no larger one follows is found. -/
theorem getLast?_sorted {front back : List ε} {a : A} (hx : addr x ≤ a)
    (hmax : ∀ y ∈ front ++ x :: back, addr y ≤ a → rowLe addr stop y x = true)
    (hlast : ∀ y ∈ back, addr y ≤ a → ¬ rowLe addr stop x y = true) :
    (((front ++ x :: back).mergeSort (rowLe addr stop)).takeWhile fun e => addr e ≤ a).getLast? = some x := by
  apply getLast?_takeWhile_mergeSort rowLe_trans rowLe_total
  · exact fun y z hyz hz => decide_eq_true ((addr_le_of_rowLe hyz).trans (of_decide_eq_true hz))
  · exact decide_eq_true hx
  · exact fun y hy hle => hmax y hy (of_decide_eq_true hle)
  · exact fun y hy hle => hlast y hy (of_decide_eq_true hle)

/-- The element in front of which the reverse search stops. -/
theorem exists_last_of_find?_reverse {l : List ε} {q : ε → Bool} (h : l.reverse.find? q = some x) :
    q x = true ∧ ∃ front back, l = front ++ x :: back ∧ ∀ y ∈ back, q y = false := by
  obtain ⟨hx, as, bs, hl, has⟩ := find?_eq_some_iff_append.mp h
  refine ⟨hx, bs.reverse, as.reverse, ?_, fun y hy => ?_⟩
  · rw [reverse_eq_append_iff] at hl
    rw [hl, reverse_cons, append_assoc, singleton_append]
  · have := has y (mem_reverse.mp hy)
    rwa [Bool.not_eq_true'] at this

/-- Where nothing stands behind an address up to another, the search finds the last row there. -/
theorem search_eq_lastRow {a b : A} (hb : ∃ e ∈ entries, addr e = b) (hba : b ≤ a)
    (hgap : ∀ e ∈ entries, addr e ≤ a → addr e ≤ b) : search addr stop entries a = lastRow addr stop entries b := by
  rw [search]
  cases hrow : lastRow addr stop entries b with
  | some x =>
    obtain ⟨hx, front, back, rfl, hback⟩ := exists_last_of_find?_reverse hrow
    rw [Bool.and_eq_true, decide_eq_true_eq, Bool.not_eq_true'] at hx
    rw [getLast?_sorted (hx.1.trans_le hba)]
    · rw [Option.filter_some, hx.2]
      rfl
    · intro y hy hle
      rw [rowLe_iff, hx.1]
      exact (hgap y hy hle).lt_or_eq.imp_right fun heq => ⟨heq, .inr hx.2⟩
    · intro y hy hle hxy
      have hyb : addr y = b := le_antisymm
        (hgap y (mem_append_right front (mem_cons_of_mem x hy)) hle) (hx.1 ▸ addr_le_of_rowLe hxy)
      have hstop := hback y hy
      rw [decide_eq_true hyb, Bool.true_and, Bool.not_eq_false'] at hstop
      rcases rowLe_iff.mp hxy with h | ⟨_, h | h⟩
      · exact absurd (hx.1.trans hyb.symm) h.ne
      · rw [hx.2] at h; cases h
      · rw [hstop] at h; cases h
  | none =>
    -- only ends stand there
    have hends : ∀ e ∈ entries, addr e = b → stop e = true := by
      intro e he heq
      have hnone := find?_eq_none.mp hrow e (mem_reverse.mpr he)
      rwa [decide_eq_true heq, Bool.true_and, Bool.not_eq_true, Bool.not_eq_false'] at hnone
    obtain ⟨x, hfind⟩ : ∃ x, entries.reverse.find? (fun e => addr e = b) = some x := by
      rw [← Option.isSome_iff_exists, find?_isSome]
      obtain ⟨e, he, heq⟩ := hb
      exact ⟨e, mem_reverse.mpr he, decide_eq_true heq⟩
    obtain ⟨hx, front, back, rfl, hback⟩ := exists_last_of_find?_reverse hfind
    rw [decide_eq_true_eq] at hx
    have hstop := hends x (mem_append_right front mem_cons_self) hx
    rw [getLast?_sorted (hx.trans_le hba)]
    · rw [Option.filter_some, hstop]
      rfl
    · intro y hy hle
      rw [rowLe_iff, hx]
      exact (hgap y hy hle).lt_or_eq.imp_right fun heq => ⟨heq, .inl (hends y hy heq)⟩
    · intro y hy hle hxy
      have hyb : addr y = b := le_antisymm
        (hgap y (mem_append_right front (mem_cons_of_mem x hy)) hle) (hx ▸ addr_le_of_rowLe hxy)
      exact absurd hyb (of_decide_eq_false (hback y hy))

theorem search_eq_none {a : A} (h : ∀ e ∈ entries, ¬ addr e ≤ a) :
    search addr stop entries a = none := by
  have hnil : (entries.mergeSort (rowLe addr stop)).takeWhile (fun e => decide (addr e ≤ a)) = [] := by
    refine eq_nil_iff_forall_not_mem.mpr fun e he => ?_
    have hle := mem_takeWhile_imp he
    rw [decide_eq_true_eq] at hle
    exact h e ((mergeSort_perm _ _).mem_iff.mp ((takeWhile_sublist _).mem he)) hle
  rw [search, hnil]
  rfl

/-- The search in a list of images, by the elements they are of. -/
theorem search_map {δ : Type} (f : δ → ε) (entries : List δ) (a : A) :
    search addr stop (entries.map f) a = (search (fun x => addr (f x)) (fun x => stop (f x)) entries a).map f := by
  have hsort : (entries.map f).mergeSort (rowLe addr stop) =
      (entries.mergeSort (rowLe (fun x => addr (f x)) (fun x => stop (f x)))).map f := by
    symm
    apply map_mergeSort
    intro x _ y _
    rfl
  rw [search, hsort, takeWhile_map, getLast?_map, Option.filter_map]
  rfl

/-! ## Lookup -/

theorem covers_iff {a : A} :
    s.covers addr a = true ↔ (∃ r, s.rows.head? = some r ∧ addr r ≤ a) ∧ a < addr s.last := by
  rw [Sequence.covers, Bool.and_eq_true, Option.any_eq_true]
  simp

/-- Lookup gives the same from an address on up to the next one of the table. -/
theorem lookup_eq_of_gap {a b : A} (hba : b ≤ a)
    (hgap : ∀ s ∈ seqs, ∀ e ∈ s.entries, addr e ≤ a → addr e ≤ b) : lookup addr seqs a = lookup addr seqs b := by
  have hiff : ∀ s ∈ seqs, ∀ e ∈ s.entries, (addr e ≤ a ↔ addr e ≤ b) := fun s hs e he =>
    ⟨hgap s hs e he, fun h => h.trans hba⟩
  have hcovers : ∀ s ∈ seqs, s.covers addr a = s.covers addr b := by
    intro s hs
    have hlast := hiff s hs s.last (mem_append_right _ mem_cons_self)
    have hhead : ∀ r, s.rows.head? = some r → (addr r ≤ a ↔ addr r ≤ b) := fun r hr =>
      hiff s hs r (mem_append_left _ (mem_of_mem_head? hr))
    rw [Bool.eq_iff_iff, covers_iff, covers_iff, ← not_le, ← not_le, hlast]
    exact and_congr_left fun _ => exists_congr fun r => and_congr_right (hhead r)
  have hrowAt : ∀ s ∈ seqs, s.rowAt addr a = s.rowAt addr b := by
    intro s hs
    refine find?_congr fun r hr => ?_
    rw [decide_eq_decide]
    exact hiff s hs r (mem_append_left _ (mem_reverse.mp hr))
  rw [lookup, lookup, find?_congr hcovers]
  cases hfind : seqs.find? fun s => s.covers addr b with
  | none => rfl
  | some s => exact hrowAt s (mem_of_find?_eq_some hfind)

theorem lookup_eq_none {a : A} (h : ∀ s ∈ seqs, ∀ e ∈ s.entries, ¬ addr e ≤ a) :
    lookup addr seqs a = none := by
  have hfind : seqs.find? (fun s => s.covers addr a) = none := by
    refine find?_eq_none.mpr fun s hs hcovers => ?_
    obtain ⟨⟨r, hr, hle⟩, _⟩ := covers_iff.mp hcovers
    exact h s hs r (mem_append_left _ (mem_of_mem_head? hr)) hle
  rw [lookup, hfind]
  rfl

section

variable {seqs : List (Sequence ε)} (hseqs : WellSequenced addr stop seqs) {r : ε}
include hseqs

/-- A sequence covers the address of a row of it that is not its end. -/
theorem covers_row (hs : s ∈ seqs) (hr : r ∈ s.rows) (hne : addr r ≠ addr s.last) :
    s.covers addr (addr r) = true := by
  have hasc := hseqs.ascending s hs
  have hlast := (pairwise_append.mp hasc).2.2 r hr s.last mem_cons_self
  refine covers_iff.mpr ⟨?_, hlast.lt_of_ne hne⟩
  cases hrows : s.rows with
  | nil => rw [hrows] at hr; cases hr
  | cons first rest =>
    rw [Sequence.entries, hrows, cons_append, pairwise_cons] at hasc
    refine ⟨first, rfl, ?_⟩
    rw [hrows] at hr
    rcases mem_cons.mp hr with rfl | hrest
    · exact le_refl _
    · exact hasc.1 r (mem_append_left _ hrest)

theorem lookup_of_covers (hs : s ∈ seqs) {a : A} (hcovers : s.covers addr a = true) :
    lookup addr seqs a = s.rowAt addr a := by
  obtain ⟨t, hfind⟩ : ∃ t, seqs.find? (fun s => s.covers addr a) = some t :=
    Option.isSome_iff_exists.mp (find?_isSome.mpr ⟨s, hs, hcovers⟩)
  have ht := find?_some hfind
  have heq : t = s := by
    by_contra hne
    obtain ⟨front, back, rfl⟩ := append_of_mem hs
    obtain ⟨_, hback, hcross⟩ := pairwise_append.mp hseqs.disjoint
    rcases mem_append.mp (mem_of_find?_eq_some hfind) with hin | hin
    · exact hcross t hin s mem_cons_self a ⟨ht, hcovers⟩
    · rcases mem_cons.mp hin with rfl | hin
      · exact hne rfl
      · exact (pairwise_cons.mp hback).1 t hin a ⟨hcovers, ht⟩
  rw [lookup, hfind, heq]
  rfl

/-- The last row at the address of a row is the one that holds there. -/
theorem find?_addr_eq_rowAt (hs : s ∈ seqs) (hr : r ∈ s.rows) :
    (s.rows.reverse.find? fun x => addr x = addr r) = s.rowAt addr (addr r) := by
  obtain ⟨x, hx⟩ : ∃ x, s.rowAt addr (addr r) = some x :=
    Option.isSome_iff_exists.mp (find?_isSome.mpr ⟨r, mem_reverse.mpr hr, decide_eq_true (le_refl _)⟩)
  obtain ⟨hle, as, bs, hsplit, has⟩ := find?_eq_some_iff_append.mp hx
  rw [decide_eq_true_eq] at hle
  have hdesc : s.rows.reverse.Pairwise fun x y => addr y ≤ addr x :=
    pairwise_reverse.mpr (pairwise_append.mp (hseqs.ascending s hs)).1
  have habove : ∀ y ∈ as, ¬ addr y ≤ addr r := fun y hy => by
    have := has y hy
    rwa [Bool.not_eq_true', decide_eq_false_iff_not] at this
  have hxr : addr x = addr r := by
    have hmem : r ∈ as ++ x :: bs := hsplit ▸ mem_reverse.mpr hr
    rcases mem_append.mp hmem with hin | hin
    · exact absurd (le_refl _) (habove r hin)
    · rcases mem_cons.mp hin with rfl | hin
      · rfl
      · rw [hsplit] at hdesc
        exact le_antisymm hle ((pairwise_cons.mp (pairwise_append.mp hdesc).2.1).1 r hin)
  rw [hx, find?_eq_some_iff_append]
  refine ⟨decide_eq_true hxr, as, bs, hsplit, fun y hy => ?_⟩
  rw [Bool.not_eq_true', decide_eq_false_iff_not]
  exact fun heq => habove y hy heq.le

/-- A sequence that does not cover an address that is no end has no row there. -/
theorem no_row_of_not_covers (hs : s ∈ seqs) {a : A} (hinner : a ≠ addr s.last)
    (hnot : ¬ s.covers addr a = true) {e : ε} (he : e ∈ s.entries) : ¬ (decide (addr e = a) && !stop e) = true := by
  rw [Bool.and_eq_true, decide_eq_true_eq]
  rintro ⟨rfl, _⟩
  rcases mem_append.mp he with hin | hin
  · exact hnot (covers_row hseqs hs hin hinner)
  · rw [mem_singleton.mp hin] at hinner
    exact hinner rfl

/-- At an address of a row that is no end, the last row is the one that holds there. -/
theorem lastRow_of_inner (hs : s ∈ seqs) (hr : r ∈ s.rows)
    (hinner : ∀ t ∈ seqs, addr r ≠ addr t.last) :
    lastRow addr stop (seqs.flatMap Sequence.entries) (addr r) = s.rowAt addr (addr r) := by
  have hcovers := covers_row hseqs hs hr (hinner s hs)
  have hnone := fun t (ht : t ∈ seqs) (hnot : ¬ t.covers addr (addr r) = true) e (he : e ∈ t.entries) =>
    no_row_of_not_covers hseqs ht (hinner t ht) hnot he
  have hlast : (decide (addr s.last = addr r) && !stop s.last) = false := by
    rw [hseqs.last s hs, Bool.not_true, Bool.and_false]
  have hrows : (s.rows.reverse.find? fun e => decide (addr e = addr r) && !stop e) = s.rowAt addr (addr r) := by
    rw [← find?_addr_eq_rowAt hseqs hs hr]
    refine find?_congr fun x hx => ?_
    rw [hseqs.rows s hs x (mem_reverse.mp hx), Bool.not_false, Bool.and_true]
  have hsome : (s.rowAt addr (addr r)).isSome := by
    exact find?_isSome.mpr ⟨r, mem_reverse.mpr hr, decide_eq_true (le_refl _)⟩
  obtain ⟨front, back, rfl⟩ := append_of_mem hs
  have hback : ((back.flatMap Sequence.entries).reverse.find? fun e => decide (addr e = addr r) && !stop e) = none := by
    refine find?_eq_none.mpr fun e he => ?_
    obtain ⟨t, ht, he⟩ := mem_flatMap.mp (mem_reverse.mp he)
    refine hnone t (mem_append_right front (mem_cons_of_mem s ht)) (fun hboth => ?_) e he
    exact (pairwise_cons.mp (pairwise_append.mp hseqs.disjoint).2.1).1 t ht (addr r) ⟨hcovers, hboth⟩
  rw [lastRow, flatMap_append, flatMap_cons, reverse_append, reverse_append, find?_append,
    find?_append, hback, Option.none_or, Sequence.entries, reverse_append, reverse_singleton,
    singleton_append, find?_cons_of_neg (by rw [hlast]; decide), hrows]
  exact Option.or_of_isSome hsome

/-- The search and the lookup lead to the same answers exactly if they do so at the rows that stand at no
end, and at every end the last row that stands there leads to the answer of the table. -/
theorem search_lookup_iff {B : Type} (f g : ε → Option B) :
    (∀ a, (search addr stop (seqs.flatMap Sequence.entries) a).bind f = (lookup addr seqs a).bind g) ↔
      (∀ s ∈ seqs, ∀ r ∈ s.rows, (∀ t ∈ seqs, addr r ≠ addr t.last) →
        (s.rowAt addr (addr r)).bind f = (s.rowAt addr (addr r)).bind g) ∧
      ∀ s ∈ seqs, (lastRow addr stop (seqs.flatMap Sequence.entries) (addr s.last)).bind f =
        (lookup addr seqs (addr s.last)).bind g := by
  have hat : ∀ s ∈ seqs, ∀ e ∈ s.entries, search addr stop (seqs.flatMap Sequence.entries) (addr e) =
      lastRow addr stop (seqs.flatMap Sequence.entries) (addr e) := fun s hs e he =>
    search_eq_lastRow ⟨e, mem_flatMap.mpr ⟨s, hs, he⟩, rfl⟩ (le_refl _) fun _ _ h => h
  constructor
  · intro h
    refine ⟨fun s hs r hr hinner => ?_, fun s hs => ?_⟩
    · have hrow := h (addr r)
      rwa [hat s hs r (mem_append_left _ hr), lastRow_of_inner hseqs hs hr hinner,
        lookup_of_covers hseqs hs (covers_row hseqs hs hr (hinner s hs))] at hrow
    · rw [← hat s hs s.last (mem_append_right _ mem_cons_self)]
      exact h (addr s.last)
  · rintro ⟨hinner, hends⟩ a
    by_cases hany : ∃ e ∈ seqs.flatMap Sequence.entries, addr e ≤ a
    · -- the answers at `a` are those at the greatest address of the table up to it
      obtain ⟨e, ⟨he, hle⟩, hgreatest⟩ := Set.exists_max_image {e | e ∈ seqs.flatMap Sequence.entries ∧ addr e ≤ a} addr
        ((finite_toSet _).subset fun e he => he.1) hany
      have hgap : ∀ x ∈ seqs.flatMap Sequence.entries, addr x ≤ a → addr x ≤ addr e := fun x hx hxa =>
        hgreatest x ⟨hx, hxa⟩
      rw [search_eq_lastRow ⟨e, he, rfl⟩ hle hgap,
        lookup_eq_of_gap hle fun s hs x hx => hgap x (mem_flatMap.mpr ⟨s, hs, hx⟩)]
      obtain ⟨s, hs, hes⟩ := mem_flatMap.mp he
      by_cases hend : ∃ t ∈ seqs, addr e = addr t.last
      · obtain ⟨t, ht, heq⟩ := hend
        rw [heq]
        exact hends t ht
      · have hne : ∀ t ∈ seqs, addr e ≠ addr t.last := fun t ht heq => hend ⟨t, ht, heq⟩
        have hrow : e ∈ s.rows := (mem_append.mp hes).resolve_right fun hin =>
          hne s hs (congrArg addr (mem_singleton.mp hin))
        rw [lastRow_of_inner hseqs hs hrow hne, lookup_of_covers hseqs hs (covers_row hseqs hs hrow (hne s hs))]
        exact hinner s hs e hrow hne
    · have hnone : ∀ e ∈ seqs.flatMap Sequence.entries, ¬ addr e ≤ a := fun e he hle => hany ⟨e, he, hle⟩
      rw [search_eq_none hnone, lookup_eq_none fun s hs e he => hnone e (mem_flatMap.mpr ⟨s, hs, he⟩)]
      rfl

end

end

end Vock.Library
