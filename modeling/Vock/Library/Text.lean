import Mathlib.Data.Nat.Digits.Lemmas
import Vock.Library.Loop

/-!
# Texts

Numerals and trimming, over any type of characters.

A numeral is the digits of a number, most significant first, each written by one character
(`numeral`); reading goes from left to right (`readNumeral`) and gets the number back
(`readNumeral_numeral`).

Trimming takes characters of given spellings off an end, one after the other. A text that begins or
ends with no character of a spelling is left as it is.
-/

namespace Vock.Library

open List

variable {α : Type*} {c : α} {n : Nat}

/-! ## Numerals -/

section

variable (radix : Nat)

/-- The digits of a number, most significant first, at least one. -/
def numeral (enc : Nat → α) (n : Nat) : List α :=
  if n = 0 then [enc 0] else (Nat.digits radix n).reverse.map enc

/-- The number the digits spell; nothing where a character is no digit. -/
def readNumeral (dec : α → Option Nat) (s : List α) : Option Nat :=
  s.foldlM (fun n c => (dec c).map (n * radix + ·)) 0

variable {radix} {enc : Nat → α} {dec : α → Option Nat}

theorem numeral_ne_nil (n : Nat) : numeral radix enc n ≠ [] := by
  unfold numeral
  split
  next => exact cons_ne_nil _ _
  next h =>
    intro hnil
    exact h (Nat.digits_eq_nil_iff_eq_zero.mp (reverse_eq_nil_iff.mp (map_eq_nil_iff.mp hnil)))

theorem mem_numeral (hradix : 1 < radix) (h : c ∈ numeral radix enc n) :
    ∃ d < radix, enc d = c := by
  unfold numeral at h
  split at h
  · exact ⟨0, by omega, (mem_singleton.mp h).symm⟩
  · obtain ⟨d, hd, hc⟩ := mem_map.mp h
    exact ⟨d, Nat.digits_lt_base hradix (mem_reverse.mp hd), hc⟩

/-- The first digit of a number other than zero is not zero. -/
theorem head?_numeral (hradix : 1 < radix) (hn : n ≠ 0) :
    ∃ d, d ≠ 0 ∧ d < radix ∧ (numeral radix enc n).head? = some (enc d) := by
  have hne : Nat.digits radix n ≠ [] := Nat.digits_ne_nil_iff_ne_zero.mpr hn
  refine ⟨(Nat.digits radix n).getLast hne, Nat.getLast_digit_ne_zero radix hn,
    Nat.digits_lt_base hradix (getLast_mem hne), ?_⟩
  rw [numeral, if_neg hn, head?_map, head?_reverse, getLast?_eq_some_getLast hne]
  rfl

private theorem foldlM_digits {ds : List Nat} (h : ∀ d ∈ ds, dec (enc d) = some d) (n : Nat) :
    (ds.map enc).foldlM (fun n c => (dec c).map (n * radix + ·)) n = some (ds.foldl (fun n d => n * radix + d) n) := by
  induction ds generalizing n with
  | nil => rfl
  | cons d ds ih =>
    rw [map_cons, foldlM_cons, h d mem_cons_self]
    exact ih (fun e he => h e (mem_cons_of_mem d he)) _

/-- A numeral reads as its number. -/
theorem readNumeral_numeral (hradix : 1 < radix)
    (h : ∀ d < radix, dec (enc d) = some d) (n : Nat) :
    readNumeral radix dec (numeral radix enc n) = some n := by
  unfold readNumeral numeral
  split
  next hn => simp [h 0 (by omega), hn]
  next =>
    rw [foldlM_digits fun d hd => h d (Nat.digits_lt_base hradix (mem_reverse.mp hd)), foldl_reverse]
    congr 1
    have hvalue := Nat.ofDigits_digits radix n
    rw [Nat.ofDigits_eq_foldr] at hvalue
    calc (Nat.digits radix n).foldr (fun d n => n * radix + d) 0
        = (Nat.digits radix n).foldr (fun d n => d + radix * n) 0 := by
          congr 1; funext d n; rw [Nat.mul_comm, Nat.add_comm]
      _ = n := hvalue

end

/-! ## Trimming -/

section

variable [BEq α] (spellings : List (List α))

/-- Takes one character off the front. -/
def stripStart (s : List α) : Option (List α) := spellings.findSome? fun w => s.dropPrefix? w

def trimStart (s : List α) : List α := exec (stripStart spellings) s.length s

def trimEnd (s : List α) : List α := (trimStart (spellings.map List.reverse) s.reverse).reverse

/-- No spelling is empty or begins another. -/
structure IsCode : Prop where
  ne_nil : ∀ w ∈ spellings, w ≠ []
  eq_of_isPrefix : ∀ v ∈ spellings, ∀ w ∈ spellings, v <+: w → v = w

variable {spellings} [LawfulBEq α] {s s' : List α} {w : List α}

theorem dropPrefix?_append (w s : List α) : (w ++ s).dropPrefix? w = some s :=
  dropPrefix?_append_of_beq s BEq.rfl

theorem eq_append_of_dropPrefix? (h : s.dropPrefix? w = some s') : s = w ++ s' := by
  obtain ⟨v, rfl, hv⟩ := dropPrefix?_eq_some_iff.mp h
  rw [eq_of_beq hv]

theorem dropPrefix?_eq_none (hc : c ∈ w) (h : c ∉ s) : s.dropPrefix? w = none := by
  cases hdrop : s.dropPrefix? w with
  | none => rfl
  | some s' =>
    rw [eq_append_of_dropPrefix? hdrop] at h
    exact absurd (mem_append_left s' hc) h

theorem stripStart_eq_some (h : stripStart spellings s = some s') : ∃ w ∈ spellings, s = w ++ s' := by
  obtain ⟨w, hw, hdrop⟩ := exists_of_findSome?_eq_some h
  exact ⟨w, hw, eq_append_of_dropPrefix? hdrop⟩

theorem length_trimStart_le (s : List α) : (trimStart spellings s).length ≤ s.length := by
  refine reaches_invariant (P := fun t => t.length ≤ s.length) (fun t t' ht hstrip => ?_) (reaches_exec _ _ s) (Nat.le_refl _)
  obtain ⟨w, -, rfl⟩ := stripStart_eq_some hstrip
  rw [length_append] at ht
  omega

theorem length_trimEnd_le (s : List α) : (trimEnd spellings s).length ≤ s.length := by
  have := @length_trimStart_le _ _ (spellings.map reverse) _ s.reverse
  rw [length_reverse] at this
  rw [trimEnd, length_reverse]
  exact this

section

variable (hcode : IsCode spellings)
include hcode

theorem stripStart_lowers (h : stripStart spellings s = some s') : s'.length < s.length := by
  obtain ⟨w, hw, rfl⟩ := stripStart_eq_some h
  have := length_pos_of_ne_nil (hcode.ne_nil w hw)
  rw [length_append]
  omega

theorem stripStart_append (hw : w ∈ spellings) (s : List α) : stripStart spellings (w ++ s) = some s := by
  cases h : stripStart spellings (w ++ s) with
  | none =>
    have hnone := findSome?_eq_none_iff.mp h w hw
    rw [dropPrefix?_append] at hnone
    cases hnone
  | some s' =>
    obtain ⟨v, hv, heq⟩ := stripStart_eq_some h
    have hprefixes : v <+: w ++ s ∧ w <+: w ++ s := ⟨⟨s', heq.symm⟩, ⟨s, rfl⟩⟩
    obtain rfl : v = w := by
      rcases Nat.le_total v.length w.length with hle | hle
      · exact hcode.eq_of_isPrefix v hv w hw (prefix_of_prefix_length_le hprefixes.1 hprefixes.2 hle)
      · exact (hcode.eq_of_isPrefix w hw v hv (prefix_of_prefix_length_le hprefixes.2 hprefixes.1 hle)).symm
    rw [append_cancel_left heq]

theorem exec_stripStart (hn : s.length ≤ n) : exec (stripStart spellings) n s = trimStart spellings s := by
  obtain ⟨k, rfl⟩ := Nat.exists_eq_add_of_le hn
  have hdone : stripStart spellings (trimStart spellings s) = none :=
    exec_done (P := fun _ => True) (fun _ _ _ _ => trivial) length
      (fun _ _ _ h => stripStart_lowers hcode h) trivial (Nat.le_refl _)
  rw [exec_add]
  exact exec_of_none hdone k

theorem trimStart_append (hw : w ∈ spellings) (s : List α) :
    trimStart spellings (w ++ s) = trimStart spellings s := by
  have hpos := length_pos_of_ne_nil (hcode.ne_nil w hw)
  obtain ⟨n, hn⟩ : ∃ n, (w ++ s).length = n + 1 := ⟨_, (Nat.sub_add_cancel (by rw [length_append]; omega)).symm⟩
  rw [length_append] at hn
  rw [trimStart, length_append, hn, exec_succ_of_some (stripStart_append hcode hw s)]
  exact exec_stripStart hcode (by omega)

/-- All the characters in front go. -/
theorem trimStart_flatten {ws : List (List α)} (hws : ∀ w ∈ ws, w ∈ spellings)
    (s : List α) : trimStart spellings (ws.flatten ++ s) = trimStart spellings s := by
  induction ws with
  | nil => rfl
  | cons w ws ih =>
    rw [flatten_cons, append_assoc, trimStart_append hcode (hws w mem_cons_self)]
    exact ih fun v hv => hws v (mem_cons_of_mem w hv)

end

/-- A text that begins with no character of a spelling stays. -/
theorem trimStart_of_not_isPrefix (h : ∀ w ∈ spellings, ¬ w <+: s) : trimStart spellings s = s := by
  refine exec_of_none ?_ _
  refine findSome?_eq_none_iff.mpr fun w hw => ?_
  cases hdrop : s.dropPrefix? w with
  | none => rfl
  | some s' => exact absurd ⟨s', (eq_append_of_dropPrefix? hdrop).symm⟩ (h w hw)

theorem not_isPrefix_of_stripStart (h : stripStart spellings s = none) : ∀ w ∈ spellings, ¬ w <+: s := by
  rintro w hw ⟨t, rfl⟩
  have hnone := findSome?_eq_none_iff.mp h w hw
  rw [dropPrefix?_append] at hnone
  cases hnone

/-- A character that is in no other spelling than its own, behind a text: it goes with the text, or
it stays behind what is left. -/
theorem trimStart_concat (hcode : IsCode spellings) (hc : [c] ∈ spellings)
    (honly : ∀ w ∈ spellings, c ∈ w → w = [c]) (s : List α) :
    ∃ v, (v = [] ∨ v = [c]) ∧ trimStart spellings (s ++ [c]) = trimStart spellings s ++ v := by
  induction h : s.length using Nat.strong_induction_on generalizing s with
  | _ n ih =>
    cases hstrip : stripStart spellings s with
    | some s' =>
      have hlt := stripStart_lowers hcode hstrip
      obtain ⟨w, hw, rfl⟩ := stripStart_eq_some hstrip
      rw [append_assoc, trimStart_append hcode hw, trimStart_append hcode hw]
      exact ih s'.length (h ▸ hlt) s' rfl
    | none =>
      have hstay := trimStart_of_not_isPrefix (not_isPrefix_of_stripStart hstrip)
      cases s with
      | nil => exact ⟨[], .inl rfl, trimStart_append hcode hc []⟩
      | cons a s =>
        refine ⟨[c], .inr rfl, ?_⟩
        rw [hstay]
        refine trimStart_of_not_isPrefix fun w hw hpre => ?_
        rcases prefix_concat_iff.mp hpre with rfl | hpre
        · have := honly _ hw (mem_append_right _ mem_cons_self)
          simp at this
        · exact not_isPrefix_of_stripStart hstrip w hw hpre

/-- Trimming does not get past a character of no spelling. -/
theorem trimStart_stops {b : α} (hb : ∀ w ∈ spellings, b ∉ w) (s t : List α) :
    ∃ s', trimStart spellings (s ++ b :: t) = s' ++ b :: t := by
  refine reaches_invariant (P := fun u => ∃ s', u = s' ++ b :: t) ?_
    (reaches_exec (stripStart spellings) _ _) ⟨s, rfl⟩
  rintro _ u ⟨s', rfl⟩ hstrip
  obtain ⟨w, hw, heq⟩ := stripStart_eq_some hstrip
  rcases append_eq_append_iff.mp heq with ⟨v, rfl, hv⟩ | ⟨v, rfl, hv⟩
  · cases v with
    | nil => exact ⟨[], by simpa using hv.symm⟩
    | cons c v =>
      injection hv with hbc _
      exact absurd (hbc ▸ mem_append_right _ mem_cons_self) (hb _ hw)
  · exact ⟨v, hv⟩

end

end Vock.Library
