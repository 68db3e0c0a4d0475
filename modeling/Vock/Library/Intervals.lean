import Vock.Library.Sorted

/-!
# Tables of intervals

A table of half-open intervals that is sorted by their starts. A reader may look for the interval of a point
among the last few that start at or before it (`lookBack`). For intervals that are apart that is the one that
covers the point, however few it looks at (`lookBack_eq_some_iff`). For nested intervals it is the last one that covers
the point, if few enough are skipped on the way to it (`lookBack_eq_some_iff_skipped`).
-/

namespace Vock.Library.Interval

open List

section

variable {ε A : Type} [LinearOrder A] (start stop : ε → A)

/-- The interval covers the point. -/
def Covers (r : ε) (a : A) : Prop := start r ≤ a ∧ a < stop r

instance (r : ε) (a : A) : Decidable (Covers start stop r a) := inferInstanceAs (Decidable (_ ∧ _))

/-- One of the intervals ends before the other starts. -/
def Apart (r s : ε) : Prop := stop r ≤ start s ∨ stop s ≤ start r

instance (r s : ε) : Decidable (Apart start stop r s) := inferInstanceAs (Decidable (_ ∨ _))

/-- The last of at most `n` intervals that start at or before the point which covers it. -/
def lookBack (n : Nat) (l : List ε) (a : A) : Option ε :=
  let i := (l.takeWhile fun r => start r ≤ a).length
  ((l.take i).drop (i - n)).reverse.find? fun r => Covers start stop r a

variable {start stop} {r s : ε} {a : A} {l : List ε} {n : Nat}

theorem Apart.symm (h : Apart start stop r s) : Apart start stop s r := Or.symm h

/-- Intervals that are apart cover no common point. -/
theorem Apart.not_covers (h : Apart start stop r s) (hr : Covers start stop r a) :
    ¬ Covers start stop s a := by
  intro hs
  rcases h with h | h
  · exact absurd (hr.2.trans_le (h.trans hs.1)) (lt_irrefl a)
  · exact absurd (hs.2.trans_le (h.trans hr.1)) (lt_irrefl a)

instance : Std.Symm (Apart start stop) := ⟨fun _ _ => Apart.symm⟩

theorem mem_of_lookBack (h : lookBack start stop n l a = some r) :
    r ∈ l ∧ Covers start stop r a := by
  have hcovers := find?_some h
  refine ⟨?_, of_decide_eq_true hcovers⟩
  exact mem_of_mem_take (mem_of_mem_drop (mem_reverse.mp (mem_of_find?_eq_some h)))

/-- The interval that covers a point is the last one that starts at or before it. -/
theorem getLast?_takeWhile_of_covers (hsorted : l.Pairwise fun r s => start r ≤ start s)
    (happart : l.Pairwise (Apart start stop)) (hne : ∀ r ∈ l, start r < stop r) (hmem : r ∈ l)
    (hr : Covers start stop r a) : (l.takeWhile fun r => start r ≤ a).getLast? = some r := by
  obtain ⟨z, hlast⟩ := exists_getLast?_takeWhile hsorted hmem hr.1
  obtain ⟨⟨hz, hza⟩, hmax⟩ := getLast?_takeWhile_le hsorted hlast
  suffices hzr : z = r by rw [hlast, hzr]
  by_contra hdiffer
  -- an interval in front of the last one ends before that one starts
  rcases happart.forall hmem hz (Ne.symm hdiffer) with hends | hends
  · exact absurd (hr.2.trans_le (hends.trans hza)) (lt_irrefl a)
  · exact absurd ((hne z hz).trans_le (hends.trans (hmax r hmem hr.1))) (lt_irrefl (start z))

/-- Among intervals that are apart the one that covers the point is found. -/
theorem lookBack_eq_some_iff (hn : 0 < n) (hsorted : l.Pairwise fun r s => start r ≤ start s)
    (happart : l.Pairwise (Apart start stop)) (hne : ∀ r ∈ l, start r < stop r) :
    lookBack start stop n l a = some r ↔ r ∈ l ∧ Covers start stop r a := by
  refine ⟨mem_of_lookBack, fun h => ?_⟩
  have hlast := getLast?_takeWhile_of_covers hsorted happart hne h.1 h.2
  obtain ⟨lower, hlower⟩ := getLast?_eq_some_iff.mp hlast
  have htake : l.take (l.takeWhile fun r => start r ≤ a).length = lower ++ [r] := by
    rw [← prefix_iff_eq_take.mp (List.takeWhile_prefix _), hlower]
  rw [lookBack, htake, hlower, length_append, length_singleton, drop_append_of_le_length (by omega),
    reverse_append]
  exact find?_cons_of_pos (decide_eq_true h.2)

/-- The table may be sorted by any sort. -/
theorem lookBack_mergeSort_iff (hn : 0 < n) (happart : l.Pairwise (Apart start stop))
    (hne : ∀ r ∈ l, start r < stop r) :
    lookBack start stop n (l.mergeSort fun r s => start r ≤ start s) a = some r ↔ r ∈ l ∧ Covers start stop r a := by
  have hperm := mergeSort_perm l fun r s => decide (start r ≤ start s)
  rw [lookBack_eq_some_iff hn (pairwise_mergeSort' (fun r s => start r ≤ start s) l) ((hperm.pairwise_iff Apart.symm).mpr happart)
    (fun r hr => hne r (hperm.mem_iff.mp hr)), hperm.mem_iff]

/-! ## Nested intervals -/

variable (start stop) in
/-- The first interval lies within the second. -/
def Within (r s : ε) : Prop := start s ≤ start r ∧ stop r ≤ stop s

variable (start stop) in
/-- Two intervals that are apart or nested. -/
def Laminar (r s : ε) : Prop := Apart start stop r s ∨ Within start stop r s ∨ Within start stop s r

variable (start stop) in
/-- An interval of the table that covers the point and lies within every other one that does. -/
structure Innermost (l : List ε) (a : A) (r : ε) : Prop where
  mem : r ∈ l
  covers : Covers start stop r a
  within : ∀ s ∈ l, Covers start stop s a → Within start stop r s

variable (start stop) in
/-- The last interval of the table that covers the point. -/
def lastCovering (l : List ε) (a : A) : Option ε := l.reverse.find? fun r => Covers start stop r a

variable (start stop) in
/-- How many intervals that start at or before the point are behind the last one that covers it. -/
def skipped (l : List ε) (a : A) : Nat :=
  (l.takeWhile fun r => start r ≤ a).reverse.findIdx fun r => Covers start stop r a

theorem find?_take_eq_some_iff {p : ε → Bool} :
    (l.take n).find? p = some r ↔ l.find? p = some r ∧ l.findIdx p < n := by
  induction l generalizing n with
  | nil => simp
  | cons x l ih =>
    cases n with
    | zero => simp
    | succ n =>
      rw [take_succ_cons, find?_cons, find?_cons, findIdx_cons]
      cases p x with
      | true => simp
      | false => simp [ih]

theorem lookBack_eq_find?_take (n : Nat) (l : List ε) (a : A) :
    lookBack start stop n l a =
      ((l.takeWhile fun r => start r ≤ a).reverse.take n).find? fun r => Covers start stop r a := by
  have htake := prefix_iff_eq_take.mp (List.takeWhile_prefix (l := l) fun r => decide (start r ≤ a))
  unfold lookBack
  dsimp only
  rw [take_reverse, ← htake]

theorem find?_take_filter {p c : ε → Bool} (h : (l.take n).find? c = some r) (hp : p r = true) :
    ((l.filter p).take n).find? c = some r := by
  induction l generalizing n with
  | nil =>
    rw [take_nil] at h
    cases h
  | cons x l ih =>
    cases n with
    | zero => cases h
    | succ n =>
      rw [take_succ_cons, find?_cons] at h
      cases hc : c x with
      | true =>
        rw [hc] at h
        obtain rfl := Option.some.inj h
        rw [filter_cons_of_pos hp, take_succ_cons, find?_cons_of_pos hc]
      | false =>
        rw [hc] at h
        rw [filter_cons]
        split
        · rw [take_succ_cons, find?_cons_of_neg (by simp [hc])]
          exact ih h
        · rw [take_add_one, find?_append, ih h]
          rfl

/-- With some of the intervals gone, what was found is found, if it is not gone itself. -/
theorem lookBack_filter (hsorted : l.Pairwise fun r s => start r ≤ start s) {p : ε → Bool} (hp : p r = true) 
    (h : lookBack start stop n l a = some r) : lookBack start stop n (l.filter p) a = some r := by
  rw [lookBack_eq_find?_take, takeWhile_le_eq_filter hsorted] at h
  rw [lookBack_eq_find?_take, takeWhile_le_eq_filter (hsorted.filter p), filter_comm, ← filter_reverse]
  exact find?_take_filter h hp

variable {l : List ε} {a : A}

theorem lastCovering_isSome_iff : (lastCovering start stop l a).isSome = true ↔ ∃ r ∈ l, Covers start stop r a := by
  unfold lastCovering
  simp

section

variable (hsorted : l.Pairwise fun r s => start r ≤ start s)
include hsorted

/-- What covers the point starts at or before it. -/
theorem find?_takeWhile_eq_lastCovering :
    ((l.takeWhile fun r => start r ≤ a).reverse.find? fun r => Covers start stop r a) = lastCovering start stop l a := by
  rw [takeWhile_le_eq_filter hsorted, ← filter_reverse, find?_filter]
  congr 1
  funext r
  rw [Bool.eq_iff_iff]
  simp only [decide_eq_true_eq]
  exact ⟨And.right, fun h => ⟨h.1, h⟩⟩

/-- The search finds the last interval that covers the point, unless it gives up before. -/
theorem lookBack_eq_some_iff_skipped :
    lookBack start stop n l a = some r ↔ lastCovering start stop l a = some r ∧ skipped start stop l a < n := by
  rw [lookBack_eq_find?_take, find?_take_eq_some_iff, find?_takeWhile_eq_lastCovering hsorted]
  rfl

/-- No interval that covers the point starts behind the last one that does. -/
theorem start_le_of_lastCovering {z : ε}
    (hz : lastCovering start stop l a = some z) : ∀ s ∈ l, Covers start stop s a → start s ≤ start z := by
  intro s hs hcovers
  obtain ⟨-, behind, before, hsplit, hbehind⟩ := find?_eq_some_iff_append.mp hz
  have hl : l = before.reverse ++ z :: behind.reverse := by
    rw [← reverse_reverse l, hsplit]
    simp
  rw [hl] at hs hsorted
  rcases mem_append.mp hs with hbefore | hs
  · exact (pairwise_append.mp hsorted).2.2 s hbefore z mem_cons_self
  · rcases mem_cons.mp hs with rfl | hs
    · exact le_rfl
    · have hnot := hbehind s (mem_reverse.mp hs)
      simp only [Bool.not_eq_eq_eq_not, Bool.not_true, decide_eq_false_iff_not] at hnot
      exact absurd hcovers hnot

end

/-- Among nested intervals the last one that covers the point is an innermost one, unless another one starts where it
does and ends earlier. -/
theorem innermost_lastCovering_iff (hsorted : l.Pairwise fun r s => start r ≤ start s)
    (hlaminar : ∀ r ∈ l, ∀ s ∈ l, Laminar start stop r s) {z : ε} (hz : lastCovering start stop l a = some z) :
    Innermost start stop l a z ↔
      ∀ s ∈ l, Covers start stop s a → start s = start z → stop z ≤ stop s := by
  have hmem : z ∈ l := mem_reverse.mp (mem_of_find?_eq_some hz)
  have hcovers : Covers start stop z a := of_decide_eq_true (find?_some (p := fun r => Covers start stop r a) hz)
  constructor
  · intro h s hs hsa _
    exact (h.within s hs hsa).2
  · intro h
    refine ⟨hmem, hcovers, ?_⟩
    intro s hs hsa
    have hle := start_le_of_lastCovering hsorted hz s hs hsa
    rcases hlaminar z hmem s hs with hapart | hwithin | hwithin
    · exact absurd hsa (hapart.not_covers hcovers)
    · exact hwithin
    · exact ⟨hle, h s hs hsa (le_antisymm hle hwithin.1)⟩

end

end Vock.Library.Interval
