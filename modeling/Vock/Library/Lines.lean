import Mathlib.Data.List.Basic

/-!
# Cutting a stream at its last line end

A reader that hands over whole lines cuts what it has at the last line end: `wholeLines` goes on,
`openLine` waits for more. The laws say that this can be done piece by piece (`cut_append`), and that a parse line by line does not see the cuts (`parseLines_append`,
`parseLines_eq`). Lines are lists over any alphabet, and `p` tells a line end.
-/

namespace Vock.Library

open List

variable {α β : Type*} (p : α → Bool)

/-- The index of the last element that satisfies `p`. -/
def rposition : List α → Option Nat
  | [] => none
  | a :: as =>
    match rposition as with
    | some i => some (i + 1)
    | none => if p a then some 0 else none

/-- Up to the last line end, that one included. -/
def wholeLines (as : List α) : List α :=
  match rposition p as with
  | some i => as.take (i + 1)
  | none => []

/-- What comes after the last line end. -/
def openLine (as : List α) : List α :=
  match rposition p as with
  | some i => as.drop (i + 1)
  | none => as

variable {p}

variable {as : List α}

theorem rposition_none (h : ∀ a ∈ as, p a = false) : rposition p as = none := by
  induction as with
  | nil => rfl
  | cons a as ih =>
    rw [rposition, ih fun b hb => h b (mem_cons_of_mem a hb)]
    simp [h a (mem_cons_self ..)]

variable {s : α} {v : List α} {ls : List (List α)}

theorem rposition_append_cons (hs : p s = true) (hv : ∀ b ∈ v, p b = false)
    (u : List α) : rposition p (u ++ s :: v) = some u.length := by
  induction u with
  | nil =>
    rw [nil_append, rposition, rposition_none hv]
    simp [hs]
  | cons a u ih =>
    rw [cons_append, rposition, ih]
    simp

theorem findIdx?_append_cons {u : List α} (hs : p s = true) (hu : ∀ b ∈ u, p b = false) (v : List α) :
    (u ++ s :: v).findIdx? p = some u.length := by
  rw [findIdx?_append, findIdx?_eq_none_iff.mpr hu, findIdx?_cons, if_pos hs]
  simp

/-- A list has a last line end or none. -/
theorem last_end_cases (as : List α) :
    (∃ u s v, as = u ++ s :: v ∧ p s = true ∧ ∀ b ∈ v, p b = false) ∨ ∀ a ∈ as, p a = false := by
  induction as with
  | nil => exact .inr nofun
  | cons a as ih =>
    rcases ih with ⟨u, s, v, rfl, hs, hv⟩ | hnone
    · exact .inl ⟨a :: u, s, v, rfl, hs, hv⟩
    · cases ha : p a with
      | true => exact .inl ⟨[], a, as, rfl, ha, hnone⟩
      | false =>
        right
        intro b hb
        rcases mem_cons.mp hb with rfl | hb
        · exact ha
        · exact hnone b hb

theorem cut_of_rposition {i : Nat} (h : rposition p as = some i) :
    wholeLines p as = as.take (i + 1) ∧ openLine p as = as.drop (i + 1) := by
  rw [wholeLines, openLine, h]
  exact ⟨rfl, rfl⟩

theorem getElem?_of_rposition {i : Nat} (h : rposition p as = some i) : ∃ a, as[i]? = some a ∧ p a = true := by
  rcases last_end_cases (p := p) as with ⟨u, s, v, rfl, hs, hv⟩ | hnone
  · rw [rposition_append_cons hs hv] at h
    obtain rfl := Option.some.inj h
    refine ⟨s, ?_, hs⟩
    rw [getElem?_append_right (Nat.le_refl _), Nat.sub_self, getElem?_cons_zero]
  · rw [rposition_none hnone] at h
    cases h

theorem cut_of_rposition_none (h : rposition p as = none) :
    wholeLines p as = [] ∧ openLine p as = as := by
  rw [wholeLines, openLine, h]
  exact ⟨rfl, rfl⟩

theorem cut_at_end (hs : p s = true) (hv : ∀ b ∈ v, p b = false) (u : List α) :
    wholeLines p (u ++ s :: v) = u ++ [s] ∧ openLine p (u ++ s :: v) = v := by
  have hsplit : u ++ s :: v = (u ++ [s]) ++ v := by rw [append_assoc]; rfl
  have hlen : u.length + 1 = (u ++ [s]).length := by rw [length_append]; rfl
  obtain ⟨hwhole, hopen⟩ := cut_of_rposition (rposition_append_cons hs hv u)
  rw [hwhole, hopen, hsplit, hlen, take_left, drop_left]
  exact ⟨rfl, rfl⟩

theorem cut_no_end (h : ∀ a ∈ as, p a = false) :
    wholeLines p as = [] ∧ openLine p as = as :=
  cut_of_rposition_none (rposition_none h)

theorem wholeLines_append_openLine (as : List α) : wholeLines p as ++ openLine p as = as := by
  rcases last_end_cases as with ⟨u, s, v, rfl, hs, hv⟩ | h
  · rw [(cut_at_end hs hv u).1, (cut_at_end hs hv u).2, append_assoc]
    rfl
  · rw [(cut_no_end h).1, (cut_no_end h).2, nil_append]

theorem openLine_no_end (as : List α) : ∀ b ∈ openLine p as, p b = false := by
  rcases last_end_cases as with ⟨u, s, v, rfl, hs, hv⟩ | h
  · rw [(cut_at_end hs hv u).2]
    exact hv
  · rw [(cut_no_end h).2]
    exact h

/-- Whole lines are none, or end in a line end. -/
theorem wholeLines_cases (as : List α) :
    wholeLines p as = [] ∨ ∃ u s, p s = true ∧ wholeLines p as = u ++ [s] := by
  rcases last_end_cases as with ⟨u, s, v, rfl, hs, hv⟩ | h
  · exact .inr ⟨u, s, hs, (cut_at_end hs hv u).1⟩
  · exact .inl (cut_no_end h).1

/-- What has been cut off whole stays, and the open line is cut again with what follows it. -/
theorem cut_append (as bs : List α) :
    wholeLines p (as ++ bs) = wholeLines p as ++ wholeLines p (openLine p as ++ bs) ∧
      openLine p (as ++ bs) = openLine p (openLine p as ++ bs) := by
  have hsplit : as ++ bs = wholeLines p as ++ (openLine p as ++ bs) := by
    rw [← append_assoc, wholeLines_append_openLine]
  rw [hsplit]
  rcases last_end_cases (openLine p as ++ bs) with ⟨u, s, v, hcut, hs, hv⟩ | h
  · -- the last line end is in what follows
    rw [hcut, ← append_assoc, (cut_at_end hs hv _).1, (cut_at_end hs hv _).1,
      (cut_at_end hs hv _).2, (cut_at_end hs hv _).2, append_assoc]
    exact ⟨rfl, rfl⟩
  · rw [(cut_no_end h).1, (cut_no_end h).2, append_nil]
    rcases wholeLines_cases as with hnil | ⟨u, s, hs, hwhole⟩
    · rw [hnil]
      exact cut_no_end h
    · have hmove : wholeLines p as ++ (openLine p as ++ bs) = u ++ s :: (openLine p as ++ bs) := by
        rw [hwhole, append_assoc]
        rfl
      rw [hmove, (cut_at_end hs h u).1, (cut_at_end hs h u).2, hwhole]
      exact ⟨rfl, rfl⟩

/-- Whole lines are split into themselves, and nothing is behind the last line end. -/
theorem splitOnP_flatMap_concat (hs : p s = true) (h : ∀ l ∈ ls, ∀ a ∈ l, p a = false) :
    (ls.flatMap (· ++ [s])).splitOnP p = ls ++ [[]] := by
  induction ls with
  | nil => rfl
  | cons l ls ih =>
    have hl := splitOnP_eq_singleton (h l mem_cons_self)
    rw [flatMap_cons, append_assoc, singleton_append, splitOnP_append_cons _ _ hs, hl,
      ih fun l' hl' => h l' (mem_cons_of_mem l hl'), singleton_append, cons_append]

/-! ## Parsing line by line -/

variable (p)

/-- What `f` reads out of each line, in order. -/
def parseLines (f : List α → Option β) (as : List α) : List β := (as.splitOnP p).filterMap f

variable {p} {f : List α → Option β}

theorem parseLines_open (hopen : ∀ a ∈ as, p a = false) :
    parseLines p f as = (f as).toList := by
  rw [parseLines, splitOnP_eq_singleton hopen]
  cases hf : f as with
  | none => rw [filterMap_cons_none hf]; rfl
  | some b => rw [filterMap_cons_some hf]; rfl

theorem parseLines_append_cons (hs : p s = true) (as bs : List α) :
    parseLines p f (as ++ s :: bs) = parseLines p f as ++ parseLines p f bs := by
  rw [parseLines, splitOnP_append_cons as bs hs, filterMap_append]
  rfl

theorem not_mem_intercalate {c : α} {sep : List α} {ts : List (List α)} (hsep : c ∉ sep) (h : ∀ t ∈ ts, c ∉ t) :
    c ∉ sep.intercalate ts := by
  induction ts with
  | nil => exact not_mem_nil
  | cons t ts ih =>
    have hrest := ih fun u hu => h u (mem_cons_of_mem t hu)
    cases ts with
    | nil =>
      rw [intercalate_singleton]
      exact h t mem_cons_self
    | cons u us =>
      rw [intercalate_cons_cons, mem_append, mem_append, not_or, not_or]
      exact ⟨⟨h t mem_cons_self, hsep⟩, hrest⟩

/-- Lines with a line end between them are read one by one. -/
theorem parseLines_intercalate (hs : p s = true) (hnil : f [] = none)
    (h : ∀ l ∈ ls, ∀ a ∈ l, p a = false) : parseLines p f ([s].intercalate ls) = ls.filterMap f := by
  have hopen : ∀ a ∈ ([] : List α), p a = false := nofun
  induction ls with
  | nil =>
    rw [intercalate_nil, parseLines_open hopen, hnil]
    rfl
  | cons l ls ih =>
    have hl := h l mem_cons_self
    have hrest := ih fun l' hl' => h l' (mem_cons_of_mem l hl')
    have hone : (f l).toList ++ ls.filterMap f = (l :: ls).filterMap f := by
      cases hf : f l with
      | none => rw [filterMap_cons_none hf]; rfl
      | some b => rw [filterMap_cons_some hf]; rfl
    cases ls with
    | nil => rw [intercalate_singleton, parseLines_open hl, ← hone, filterMap_nil, append_nil]
    | cons l' ls =>
      rw [intercalate_cons_cons, append_assoc, singleton_append, parseLines_append_cons hs,
        parseLines_open hl, hrest, hone]

/-- A parse does not see a cut at a line end. -/
theorem parseLines_append (h : f [] = none) (as bs : List α) :
    parseLines p f (wholeLines p as ++ bs) =
      parseLines p f (wholeLines p as) ++ parseLines p f bs := by
  have hnil : parseLines p f [] = [] := by
    have hopen : ∀ a ∈ ([] : List α), p a = false := nofun
    rw [parseLines_open hopen, h]
    rfl
  rcases wholeLines_cases as with hempty | ⟨u, s, hs, hwhole⟩
  · rw [hempty, hnil, nil_append, nil_append]
  · rw [hwhole, append_assoc, singleton_append, parseLines_append_cons hs,
      parseLines_append_cons hs, hnil, append_nil]

/-- A parse is that of the whole lines and that of the open one. -/
theorem parseLines_eq (h : f [] = none) (as : List α) :
    parseLines p f as = parseLines p f (wholeLines p as) ++ (f (openLine p as)).toList := by
  have hsplit := parseLines_append (p := p) h as (openLine p as)
  rwa [wholeLines_append_openLine, parseLines_open (openLine_no_end as)] at hsplit

/-- Dropping a part behind each of several lists keeps their sequence only if every part is empty. -/
theorem flatMap_append_eq_iff (xs : List α) (front back : α → List β) :
    xs.flatMap front = xs.flatMap (fun x => front x ++ back x) ↔ ∀ x ∈ xs, back x = [] := by
  have hlen : ∀ xs : List α,
      (xs.flatMap front).length ≤ (xs.flatMap fun x => front x ++ back x).length := by
    intro xs
    induction xs with
    | nil => exact Nat.le_refl 0
    | cons x xs ih =>
      rw [flatMap_cons, flatMap_cons, length_append, length_append,
        length_append]
      omega
  induction xs with
  | nil => exact ⟨fun _ x hx => (nomatch hx), fun _ => rfl⟩
  | cons x xs ih =>
    rw [flatMap_cons, flatMap_cons, append_assoc, append_cancel_left_eq,
      forall_mem_cons]
    constructor
    · intro heq
      have hback : back x = [] := by
        have hle := hlen xs
        rw [heq, length_append] at hle
        exact length_eq_zero_iff.mp (by omega)
      rw [hback] at heq
      exact ⟨hback, ih.mp heq⟩
    · rintro ⟨hback, hrest⟩
      rw [hback]
      exact ih.mpr hrest

end Vock.Library
