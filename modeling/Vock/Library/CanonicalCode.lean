import Mathlib.Algebra.Order.BigOperators.Group.List
import Vock.Library.Bits

/-!
# Canonical prefix codes

A code is given by the lengths of its words: `lens[s]` is the length of the word of symbol `s`, and
zero where `s` has none. Among words of one length the symbols are in order, and the words of length
`n + 1` begin right after those of length `n`, extended by a zero (`firstCode`). The word of `s` is
therefore its rank among the symbols of its length, counted from the first word of that length
(`codeword`).

Lengths need not leave room for the words they ask for. `Fits` is Kraft's inequality; under it the
words of each length fit in that many bits (`firstCode_add_le`), and no word begins another
(`codeOf_take_ge` is what a reader uses: a proper beginning of a word is past every word of its own
length).
-/

namespace Vock.Library

open List

variable {n s m : Nat}

variable {lens : List Nat} {w : List Bool}

/-- The number of words of length `n`. Length zero stands for no word. -/
def codesOf (lens : List Nat) (n : Nat) : Nat := if n = 0 then 0 else lens.count n

/-- The first word of length `n`, as a number. -/
def firstCode (lens : List Nat) : Nat → Nat
  | 0 => 0
  | n + 1 => 2 * (firstCode lens n + codesOf lens n)

/-- The number of words shorter than `n`. -/
def shorterCodes (lens : List Nat) : Nat → Nat
  | 0 => 0
  | n + 1 => shorterCodes lens n + codesOf lens n

/-- The number of symbols before `s` whose words have length `n`. -/
def rank (lens : List Nat) (n s : Nat) : Nat := (lens.take s).count n

/-- The place of symbol `s` in the list of all symbols with words, ordered by length `n` of the word
and then by symbol. -/
def slot (lens : List Nat) (n s : Nat) : Nat := shorterCodes lens n + rank lens n s

/-- The word of symbol `s`. -/
def codeword (lens : List Nat) (s : Nat) : Option (List Bool) :=
  lens[s]?.bind fun n =>
    if n = 0 then none else some (codeBits n (firstCode lens n + rank lens n s))

/-- The room the words take, in words of length `m`. -/
def kraftSum (m : Nat) (lens : List Nat) : Nat :=
  (lens.map fun n => if n = 0 then 0 else 2 ^ (m - n)).sum

/-- The lengths do not ask for more words of length `m` than there are. -/
abbrev Fits (m : Nat) (lens : List Nat) : Prop := kraftSum m lens ≤ 2 ^ m

/-- They ask for just as many. -/
abbrev Complete (m : Nat) (lens : List Nat) : Prop := kraftSum m lens = 2 ^ m

/-- Lengths of zero take no room. -/
theorem kraftSum_eq_filter (m : Nat) (lens : List Nat) :
    kraftSum m lens = ((lens.filter (· ≠ 0)).map fun n => 2 ^ (m - n)).sum := by
  rw [kraftSum]
  induction lens with
  | nil => rfl
  | cons n lens ih =>
    by_cases hn : n = 0
    · rw [map_cons, sum_cons, ih, if_pos hn, filter_cons_of_neg (by simpa using hn), Nat.zero_add]
    · rw [map_cons, sum_cons, ih, if_neg hn, filter_cons_of_pos (by simpa using hn), map_cons, sum_cons]

theorem codeword_eq_some_iff :
    codeword lens s = some w ↔
      ∃ n, lens[s]? = some n ∧ n ≠ 0 ∧ w = codeBits n (firstCode lens n + rank lens n s) := by
  cases h : lens[s]? with
  | none => simp [codeword, h]
  | some n =>
    by_cases hn : n = 0
    · simp [codeword, h, hn]
    · simp [codeword, h, eq_comm]

/-! ## Ranks and places -/

theorem codesOf_of_ne_zero (hn : n ≠ 0) : codesOf lens n = lens.count n := if_neg hn

/-- A symbol's rank is below the number of symbols of its length. -/
theorem rank_lt_count (h : lens[s]? = some n) : rank lens n s < lens.count n := by
  obtain ⟨hs, hn⟩ := List.getElem?_eq_some_iff.mp h
  have split : lens.count n = rank lens n s + (lens.drop s).count n := by
    rw [rank, ← count_append, take_append_drop]
  have one : 0 < (lens.drop s).count n := by
    rw [count_pos_iff, ← hn, drop_eq_getElem_cons hs]
    exact mem_cons_self
  omega

/-- Every rank below the number of symbols is taken. -/
theorem exists_rank_eq {k : Nat} (h : k < lens.count n) : ∃ s, lens[s]? = some n ∧ rank lens n s = k := by
  induction lens generalizing k with
  | nil => exact absurd h (Nat.not_lt_zero _)
  | cons l lens ih =>
    by_cases hl : l = n
    · subst hl
      cases k with
      | zero => exact ⟨0, rfl, rfl⟩
      | succ k =>
        rw [count_cons_self] at h
        obtain ⟨s, hs, hk⟩ := ih (Nat.lt_of_succ_lt_succ h)
        refine ⟨s + 1, hs, ?_⟩
        rw [rank, take_succ_cons, count_cons_self, ← rank, hk]
    · rw [count_cons_of_ne hl] at h
      obtain ⟨s, hs, hk⟩ := ih h
      refine ⟨s + 1, hs, ?_⟩
      rw [rank, take_succ_cons, count_cons_of_ne hl, ← rank, hk]

/-- Ranks grow with the symbols. -/
theorem rank_lt_rank {t : Nat} (hs : lens[s]? = some n) (hst : s < t) : rank lens n s < rank lens n t := by
  have inside : (lens.take t)[s]? = some n := by rw [getElem?_take_of_lt hst, hs]
  have below := rank_lt_count inside
  rwa [rank, take_take, Nat.min_eq_left hst.le] at below

theorem shorterCodes_mono (h : m ≤ n) : shorterCodes lens m ≤ shorterCodes lens n := by
  induction h with
  | refl => exact Nat.le_refl _
  | step _ ih => exact Nat.le_trans ih (Nat.le_add_right _ _)

theorem shorterCodes_eq_countP (n : Nat) :
    shorterCodes lens n = lens.countP fun l => l ≠ 0 ∧ l < n := by
  induction n with
  | zero => simp [shorterCodes]
  | succ n ih =>
    rw [shorterCodes, ih]
    clear ih
    induction lens with
    | nil => simp [codesOf]
    | cons l lens ih =>
      simp only [codesOf, count_cons] at ih ⊢
      by_cases hn : n = 0
      · simp only [hn] at ih ⊢
        grind
      · simp only [hn] at ih ⊢
        grind

theorem slot_lt_shorterCodes (hs : lens[s]? = some n) (hn : n ≠ 0) : slot lens n s < shorterCodes lens (n + 1) := by
  rw [shorterCodes, codesOf_of_ne_zero hn]
  exact Nat.add_lt_add_left (rank_lt_count hs) _

theorem slot_lt_length (hs : lens[s]? = some n) (hn : n ≠ 0) : slot lens n s < lens.length := by
  refine Nat.lt_of_lt_of_le (slot_lt_shorterCodes hs hn) ?_
  rw [shorterCodes_eq_countP]
  exact countP_le_length

/-- No two symbols share a place. -/
theorem slot_ne {t : Nat} (hs : lens[s]? = some m) (hm : m ≠ 0) (ht : lens[t]? = some n)
    (hn : n ≠ 0) (hst : s < t) : slot lens m s ≠ slot lens n t := by
  rcases Nat.lt_trichotomy m n with hlt | rfl | hlt
  · have below := Nat.lt_of_lt_of_le (slot_lt_shorterCodes hs hm) (shorterCodes_mono hlt)
    exact Nat.ne_of_lt (Nat.lt_of_lt_of_le below (Nat.le_add_right _ _))
  · exact Nat.ne_of_lt (Nat.add_lt_add_left (rank_lt_rank hs hst) _)
  · have below := Nat.lt_of_lt_of_le (slot_lt_shorterCodes ht hn) (shorterCodes_mono hlt)
    exact Nat.ne_of_gt (Nat.lt_of_lt_of_le below (Nat.le_add_right _ _))

/-! ## Room -/

/-- The room of the words shorter than `n`. -/
private def kraftBelow (m n : Nat) (lens : List Nat) : Nat :=
  (lens.map fun l => if l = 0 then 0 else if l < n then 2 ^ (m - l) else 0).sum

private theorem kraftBelow_succ (m n : Nat) (lens : List Nat) :
    kraftBelow m (n + 1) lens = kraftBelow m n lens + codesOf lens n * 2 ^ (m - n) := by
  by_cases hn : n = 0
  · subst hn
    have none_below (k : Nat) (hk : k ≤ 1) : kraftBelow m k lens = 0 := by
      refine sum_eq_zero fun x hx => ?_
      obtain ⟨l, -, rfl⟩ := mem_map.mp hx
      by_cases hl : l = 0
      · rw [if_pos hl]
      · rw [if_neg hl, if_neg (by omega)]
    rw [none_below _ (Nat.le_refl 1), none_below _ (Nat.zero_le 1), codesOf, if_pos rfl, Nat.zero_mul]
  · rw [codesOf_of_ne_zero hn]
    induction lens with
    | nil => rw [count_nil, Nat.zero_mul]; rfl
    | cons l lens ih =>
      have expand (k : Nat) : kraftBelow m k (l :: lens) =
          (if l = 0 then 0 else if l < k then 2 ^ (m - l) else 0) + kraftBelow m k lens := rfl
      rw [expand, expand]
      by_cases hl : l = n
      · subst hl
        rw [count_cons_self, if_neg hn, if_neg hn, if_pos (Nat.lt_succ_self l),
          if_neg (Nat.lt_irrefl l), Nat.succ_mul]
        omega
      · have same : l < n + 1 ↔ l < n := by omega
        simp only [count_cons_of_ne hl, same]
        omega

/-- The first word of length `n` comes right after the room the shorter ones take. -/
private theorem firstCode_mul (hn : n ≤ m) : firstCode lens n * 2 ^ (m - n) = kraftBelow m n lens := by
  induction n with
  | zero =>
    rw [firstCode, Nat.zero_mul, eq_comm]
    refine sum_eq_zero fun x hx => ?_
    obtain ⟨l, -, rfl⟩ := mem_map.mp hx
    rw [if_neg (Nat.not_lt_zero l), ite_self]
  | succ n ih =>
    have double : 2 ^ (m - n) = 2 * 2 ^ (m - (n + 1)) := by
      rw [← Nat.pow_succ']
      congr 1
      omega
    rw [kraftBelow_succ, ← ih (Nat.le_of_succ_le hn), firstCode, double]
    ring

private theorem kraftBelow_le (m n : Nat) (lens : List Nat) : kraftBelow m n lens ≤ kraftSum m lens := by
  refine sum_le_sum fun l _ => ?_
  by_cases hl : l = 0
  · rw [if_pos hl, if_pos hl]
  · rw [if_neg hl]
    split
    · exact Nat.le_refl _
    · exact Nat.zero_le _

/-- Under Kraft's inequality the words of length `n` fit in `n` bits. -/
theorem firstCode_add_le (fits : Fits m lens) (hn : n ≤ m) : firstCode lens n + codesOf lens n ≤ 2 ^ n := by
  have room : (firstCode lens n + codesOf lens n) * 2 ^ (m - n) ≤ 2 ^ n * 2 ^ (m - n) :=
    calc (firstCode lens n + codesOf lens n) * 2 ^ (m - n)
        = kraftBelow m (n + 1) lens := by rw [kraftBelow_succ, ← firstCode_mul hn, Nat.add_mul]
      _ ≤ kraftSum m lens := kraftBelow_le m (n + 1) lens
      _ ≤ 2 ^ m := fits
      _ = 2 ^ n * 2 ^ (m - n) := by rw [← Nat.pow_add, Nat.add_sub_cancel' hn]
  exact Nat.le_of_mul_le_mul_right room (Nat.two_pow_pos _)

/-! ## Words -/

/-- Longer words begin past all the words of length `j`. -/
theorem firstCode_add_mul_le {j : Nat} (h : j < n) :
    (firstCode lens j + codesOf lens j) * 2 ^ (n - j) ≤ firstCode lens n := by
  induction n with
  | zero => exact absurd h (Nat.not_lt_zero j)
  | succ n ih =>
    rcases Nat.lt_or_eq_of_le (Nat.le_of_lt_succ h) with hlt | rfl
    · have double : n + 1 - j = (n - j) + 1 := by omega
      rw [double, Nat.pow_succ', Nat.mul_left_comm]
      exact Nat.mul_le_mul_left 2 (Nat.le_trans (ih hlt) (Nat.le_add_right _ _))
    · rw [Nat.add_sub_cancel_left, Nat.pow_one, firstCode, Nat.mul_comm]

/-- What a word says, where the lengths fit. -/
theorem codeOf_codeword (fits : Fits m lens)
    (hs : lens[s]? = some n) (hn : n ≠ 0) (hm : n ≤ m)
    (hw : w = codeBits n (firstCode lens n + rank lens n s)) :
    codeOf w = firstCode lens n + rank lens n s := by
  have room := firstCode_add_le fits hm
  have below := rank_lt_count hs
  rw [codesOf_of_ne_zero hn] at room
  rw [hw, codeOf_codeBits (by omega)]

/-- A proper beginning of a word is past every word of its own length. -/
theorem codeOf_take_ge {u v : List Bool} (hv : v ≠ [])
    (h : firstCode lens (u ++ v).length ≤ codeOf (u ++ v)) :
    firstCode lens u.length + codesOf lens u.length ≤ codeOf u := by
  have longer : u.length < (u ++ v).length := by
    rw [length_append]
    exact Nat.lt_add_of_pos_right (length_pos_iff.mpr hv)
  have past := Nat.le_trans (firstCode_add_mul_le longer) h
  rw [length_append, Nat.add_sub_cancel_left, codeOf_append] at past
  have small := codeOf_lt v
  refine Nat.le_of_lt_succ (Nat.lt_of_mul_lt_mul_right (a := 2 ^ v.length) ?_)
  rw [Nat.succ_mul]
  omega

end Vock.Library
