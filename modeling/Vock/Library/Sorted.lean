import Mathlib.Data.List.Find
import Mathlib.Data.List.Pairwise
import Mathlib.Data.List.Sort
import Mathlib.Data.List.TakeWhile

/-!
# Sorted lists

What a binary search finds in a list that has been sorted. A stable sort leaves elements that are tied as they stand
(`filter_mergeSort`), so that the first of an upper part and the last of a lower part are told by the list before it
was sorted (`find?_mergeSort`, `getLast?_takeWhile_mergeSort`). In a list sorted by a key, the last element up to a
bound has the greatest key up to it (`getLast?_takeWhile_le`).
-/

namespace Vock.Library

open List

/-! ## Stable sorts -/

section

variable {α : Type} {le : α → α → Bool} {p q : α → Bool} {l : List α} {a x : α}

theorem takeWhile_eq_filter_of_pairwise (hdown : ∀ a b, le a b = true → p b = true → p a = true)
    (hsorted : l.Pairwise fun a b => le a b = true) : l.takeWhile p = l.filter p := by
  induction l with
  | nil => rfl
  | cons a l ih =>
    obtain ⟨hhead, htail⟩ := pairwise_cons.mp hsorted
    cases ha : p a with
    | true => rw [takeWhile_cons_of_pos ha, filter_cons_of_pos ha, ih htail]
    | false =>
      have hnone : l.filter p = [] := by
        refine filter_eq_nil_iff.mpr fun b hb hpb => ?_
        rw [hdown a b (hhead b hb) hpb] at ha
        cases ha
      rw [takeWhile_cons_of_neg (by rw [ha]; decide), filter_cons_of_neg (by rw [ha]; decide), hnone]

/-- The last element of a front part, by its place. -/
theorem getLast?_takeWhile (p : α → Bool) (l : List α) :
    (l.takeWhile p).getLast? = if (l.takeWhile p).length = 0 then none else l[(l.takeWhile p).length - 1]? := by
  split
  next hnil => rw [length_eq_zero_iff.mp hnil, getLast?_nil]
  next hne =>
    have hlast : (l.takeWhile p).length - 1 < (l.takeWhile p).length := by omega
    rw [getLast?_eq_getElem?, getElem?_eq_getElem hlast,
      prefix_iff_getElem?.mp (List.takeWhile_prefix p) _ hlast]

variable (htrans : ∀ a b c, le a b = true → le b c = true → le a c = true) (htotal : ∀ a b, (le a b || le b a) = true)

include htotal in
theorem refl_of_total (a : α) : le a a = true := by
  have haa := htotal a a
  rwa [Bool.or_self] at haa

include htrans htotal

/-- Elements that are tied keep their order. -/
theorem filter_mergeSort (hties : ∀ a ∈ l, q a = true → ∀ b ∈ l, q b = true → le a b = true) :
    (l.mergeSort le).filter q = l.filter q := by
  have hpair : (l.filter q).Pairwise fun a b => le a b = true := by
    refine pairwise_of_forall_mem_list fun a ha b hb => ?_
    obtain ⟨ha, hqa⟩ := mem_filter.mp ha
    obtain ⟨hb, hqb⟩ := mem_filter.mp hb
    exact hties a ha hqa b hb hqb
  have hsub := (sublist_mergeSort htrans htotal hpair filter_sublist).filter q
  rw [filter_filter] at hsub
  simp only [Bool.and_self] at hsub
  exact (hsub.eq_of_length ((mergeSort_perm l le).filter q).length_eq.symm).symm

/-- The first element of a part is a least one of it, and of those the first in the list before it was sorted. -/
theorem find?_mergeSort (h : (l.mergeSort le).find? p = some a) :
    (∀ b ∈ l, p b = true → le a b = true) ∧ l.find? (fun b => p b && le b a) = some a := by
  obtain ⟨hpa, before, behind, hsplit, hbefore⟩ := find?_eq_some_iff_append.mp h
  have hsorted := pairwise_mergeSort htrans htotal l
  rw [hsplit] at hsorted
  have hleast : ∀ b ∈ l, p b = true → le a b = true := by
    intro b hb hpb
    have hin : b ∈ l.mergeSort le := mem_mergeSort.mpr hb
    rw [hsplit] at hin
    rcases mem_append.mp hin with hin | hin
    · have hnot := hbefore b hin
      rw [hpb] at hnot
      cases hnot
    · rcases mem_cons.mp hin with rfl | hin
      · exact refl_of_total htotal b
      · exact (pairwise_cons.mp (pairwise_append.mp hsorted).2.1).1 b hin
  refine ⟨hleast, ?_⟩
  have hsame : (l.mergeSort le).filter (fun b => p b && le b a) = l.filter fun b => p b && le b a := by
    refine filter_mergeSort htrans htotal fun b _ hb c hc hqc => ?_
    exact htrans b a c (Bool.and_eq_true_iff.mp hb).2 (hleast c hc (Bool.and_eq_true_iff.mp hqc).1)
  rw [← head?_filter, ← hsame, head?_filter, hsplit, find?_eq_some_iff_append]
  refine ⟨by rw [hpa, refl_of_total htotal a]; rfl, before, behind, rfl, fun b hb => ?_⟩
  have hnot := hbefore b hb
  rw [Bool.not_eq_true'] at hnot ⊢
  rw [hnot, Bool.false_and]

/-- The first element is sorted in front of those that it is not above. -/
theorem mergeSort_cons_eq (a : α) (l : List α) :
    (a :: l).mergeSort le = (l.mergeSort le).filter (fun b => !le a b) ++ a :: (l.mergeSort le).filter (le a) := by
  obtain ⟨front, back, hcons, hsplit, hfront⟩ := mergeSort_cons htrans htotal a l
  have hsorted := pairwise_mergeSort htrans htotal (a :: l)
  rw [hcons] at hsorted
  have hback : ∀ b ∈ back, le a b = true := (pairwise_cons.mp (pairwise_append.mp hsorted).2.1).1
  have hfront' : ∀ b ∈ front, ¬ le a b = true := fun b hb => by simpa using hfront b hb
  have hback' : ∀ b ∈ back, ¬ (!le a b) = true := fun b hb => by simp [hback b hb]
  rw [hcons, hsplit, filter_append, filter_append, filter_eq_self.mpr hfront, filter_eq_nil_iff.mpr hback',
    filter_eq_nil_iff.mpr hfront', filter_eq_self.mpr hback, append_nil, nil_append]

/-- What is left of a sorted list is what is left, sorted. -/
theorem mergeSort_filter (p : α → Bool) (l : List α) : (l.filter p).mergeSort le = (l.mergeSort le).filter p := by
  induction l with
  | nil => rw [filter_nil, mergeSort_nil, filter_nil]
  | cons a l ih =>
    by_cases hp : p a = true
    · rw [filter_cons_of_pos hp, mergeSort_cons_eq htrans htotal, ih, mergeSort_cons_eq htrans htotal, filter_append,
        filter_cons_of_pos hp, filter_comm, filter_comm (le a)]
    · obtain ⟨front, back, hcons, hsplit, -⟩ := mergeSort_cons htrans htotal a l
      rw [filter_cons_of_neg hp, ih, hcons, hsplit, filter_append, filter_append, filter_cons_of_neg hp]

/-- Of the elements of a lower part, the last of the largest ones stands last. -/
theorem getLast?_takeWhile_mergeSort (hdown : ∀ a b, le a b = true → p b = true → p a = true)
    {front back : List α} (hx : p x = true) (hmax : ∀ y ∈ front ++ x :: back, p y = true → le y x = true)
    (hlast : ∀ y ∈ back, p y = true → ¬ le x y = true) :
    (((front ++ x :: back).mergeSort le).takeWhile p).getLast? = some x := by
  have hrefl := refl_of_total htotal x
  have hsorted := pairwise_mergeSort htrans htotal (front ++ x :: back)
  rw [takeWhile_eq_filter_of_pairwise hdown hsorted]
  let q : α → Bool := fun y => p y && le x y
  have hq : ∀ y, q y = true ↔ p y = true ∧ le x y = true := fun y => Bool.and_eq_true_iff
  have hlargest : ((front ++ x :: back).mergeSort le).filter q = front.filter q ++ [x] := by
    have hback : back.filter q = [] :=
      filter_eq_nil_iff.mpr fun y hy hqy => hlast y hy ((hq y).mp hqy).1 ((hq y).mp hqy).2
    rw [filter_mergeSort htrans htotal fun a ha hqa b _ hqb => htrans a x b (hmax a ha ((hq a).mp hqa).1) ((hq b).mp hqb).2,
      filter_append, filter_cons_of_pos ((hq x).mpr ⟨hx, hrefl⟩), hback]
  generalize (front ++ x :: back).mergeSort le = m at hsorted hlargest
  -- the last element of the lower part is one of the largest
  have hmem : x ∈ m.filter p := by
    have hxq : x ∈ m.filter q := hlargest ▸ mem_append_right _ mem_cons_self
    exact mem_filter.mpr ⟨(mem_filter.mp hxq).1, hx⟩
  obtain ⟨lower, z, hz⟩ := eq_nil_or_concat (m.filter p) |>.resolve_left (ne_nil_of_mem hmem)
  rw [concat_eq_append] at hz
  rw [hz] at hmem
  have hxz : le x z = true := by
    rcases mem_append.mp hmem with hin | hlastz
    · have hpair := hsorted.filter p
      rw [hz] at hpair
      exact (pairwise_append.mp hpair).2.2 x hin z mem_cons_self
    · rw [← mem_singleton.mp hlastz]
      exact hrefl
  have hsplit : m.filter q = lower.filter (le x) ++ [z] := by
    have hcomm : m.filter q = (m.filter p).filter (le x) := by
      rw [filter_filter]
      exact filter_congr fun y _ => Bool.and_comm _ _
    rw [hcomm, hz, filter_append, filter_cons_of_pos hxz, filter_nil]
  rw [hlargest] at hsplit
  rw [hz, getLast?_concat, (append_inj_right' hsplit rfl |> cons.inj).1]

end

/-! ## Lists sorted by a key -/

section

variable {α A : Type} [LinearOrder A] {f : α → A} {l : List α} {a : A} {z : α}

variable (hsorted : l.Pairwise fun x y => f x ≤ f y)

include hsorted

theorem takeWhile_le_eq_filter (a : A) : (l.takeWhile fun x => f x ≤ a) = l.filter fun x => f x ≤ a := by
  refine takeWhile_eq_filter_of_pairwise (fun x y hxy hy => ?_) (hsorted.imp decide_eq_true)
  exact decide_eq_true ((of_decide_eq_true hxy).trans (of_decide_eq_true hy))

/-- The last element up to a bound has the greatest key up to it. -/
theorem getLast?_takeWhile_le (h : (l.takeWhile fun x => f x ≤ a).getLast? = some z) :
    (z ∈ l ∧ f z ≤ a) ∧ ∀ x ∈ l, f x ≤ a → f x ≤ f z := by
  rw [takeWhile_le_eq_filter hsorted] at h
  obtain ⟨hz, hza⟩ := mem_filter.mp (mem_of_getLast? h)
  refine ⟨⟨hz, of_decide_eq_true hza⟩, fun x hx hxa => ?_⟩
  obtain ⟨lower, hlower⟩ := getLast?_eq_some_iff.mp h
  have hpair := hsorted.filter fun x => f x ≤ a
  have hin : x ∈ l.filter fun x => f x ≤ a := mem_filter.mpr ⟨hx, decide_eq_true hxa⟩
  rw [hlower] at hpair hin
  rcases mem_append.mp hin with hin | hin
  · exact (pairwise_append.mp hpair).2.2 x hin z mem_cons_self
  · rw [mem_singleton.mp hin]

theorem exists_getLast?_takeWhile {x : α} (hx : x ∈ l) (hxa : f x ≤ a) :
    ∃ z, (l.takeWhile fun x => f x ≤ a).getLast? = some z := by
  rw [takeWhile_le_eq_filter hsorted]
  refine Option.ne_none_iff_exists'.mp (mt getLast?_eq_none_iff.mp (ne_nil_of_mem (a := x) ?_))
  exact mem_filter.mpr ⟨hx, decide_eq_true hxa⟩

end

/-- The last element up to a bound is the greatest one. -/
theorem getLast?_takeWhile_le_iff {A : Type} [LinearOrder A] {l : List A} (hsorted : l.Pairwise (· ≤ ·)) {b m : A} :
    (l.takeWhile (· ≤ b)).getLast? = some m ↔ (m ∈ l ∧ m ≤ b) ∧ ∀ x ∈ l, x ≤ b → x ≤ m := by
  refine ⟨getLast?_takeWhile_le hsorted, fun ⟨hm, hmax⟩ => ?_⟩
  obtain ⟨z, hz⟩ := exists_getLast?_takeWhile hsorted hm.1 hm.2
  obtain ⟨hzin, hzmax⟩ := getLast?_takeWhile_le hsorted hz
  exact hz.trans (congrArg some (le_antisymm (hmax z hzin.1 hzin.2) (hzmax m hm.1 hm.2)))

end Vock.Library
