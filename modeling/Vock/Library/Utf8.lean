import Vock.Library.Checked

/-!
# Texts in UTF-8

A text is the bytes of its characters, one after the other. A character is a first byte and the continuation bytes
that it announces, so a text can be cut in front of any byte that is no continuation byte, and both parts are texts
(`Utf8.split`). In front of and behind an ASCII byte there is always such a place. `strSlice` is a part of a text, where
a cut inside of a character is a fault.
-/

namespace Vock.Library

/-- The bytes of a character. -/
def charBytes (c : Char) : List (BitVec 8) := (String.utf8EncodeChar c).map UInt8.toBitVec

def isContinuation (b : BitVec 8) : Bool := 0x80#8 ≤ b && b < 0xc0#8

/-- How many continuation bytes a first byte announces. -/
def following (b : BitVec 8) : Nat := if b < 0xc0#8 then 0 else if b < 0xe0#8 then 1 else if b < 0xf0#8 then 2 else 3

/-- The bytes are those of a text. -/
def Utf8 (s : List (BitVec 8)) : Prop := ∃ cs : List Char, s = cs.flatMap charBytes

/-- A first byte and those it announces. -/
structure IsChar (first : BitVec 8) (rest : List (BitVec 8)) : Prop where
  first_not : isContinuation first = false
  rest_length : rest.length = following first
  rest_all : ∀ b ∈ rest, isContinuation b = true

/-- A character by its numbers: that of the first byte, and the six bits of each other. -/
theorem isChar_ofNat {n : Nat} (ms : List Nat) (hn : n < 256) (hfirst : n < 128 ∨ 192 ≤ n)
    (hlen : ms.length = if n < 192 then 0 else if n < 224 then 1 else if n < 240 then 2 else 3)
    (hms : ∀ m ∈ ms, m < 64) : IsChar (BitVec.ofNat 8 n) (ms.map fun m => BitVec.ofNat 8 (m + 128)) := by
  have same : n % 2 ^ 8 = n := Nat.mod_eq_of_lt hn
  refine ⟨?_, ?_, fun b hb => ?_⟩
  · rw [← Bool.not_eq_true]
    simp only [isContinuation, Bool.and_eq_true, decide_eq_true_eq, BitVec.le_def, BitVec.lt_def, BitVec.toNat_ofNat]
    omega
  · simp only [List.length_map, hlen, following, BitVec.lt_def, BitVec.toNat_ofNat, same]
  · obtain ⟨m, hm, rfl⟩ := List.mem_map.mp hb
    have := hms m hm
    simp only [isContinuation, Bool.and_eq_true, decide_eq_true_eq, BitVec.le_def, BitVec.lt_def, BitVec.toNat_ofNat]
    omega

theorem charBytes_eq (c : Char) : ∃ first rest, charBytes c = first :: rest ∧ IsChar first rest := by
  simp only [charBytes, String.utf8EncodeChar]
  generalize c.val.toNat = v
  split
  · exact ⟨_, _, rfl, isChar_ofNat [] (by omega) (by omega) (by rw [if_pos (by omega)]; rfl) nofun⟩
  · split
    · refine ⟨_, _, rfl, isChar_ofNat [v % 64] (by omega) (by omega) ?_ ?_⟩
      · rw [if_neg (by omega), if_pos (by omega)]
        rfl
      · intro m hm
        simp only [List.mem_cons, List.not_mem_nil, or_false] at hm
        omega
    · split
      · refine ⟨_, _, rfl, isChar_ofNat [v / 64 % 64, v % 64]
          (by omega) (by omega) ?_ ?_⟩
        · rw [if_neg (by omega), if_neg (by omega), if_pos (by omega)]
          rfl
        · intro m hm
          simp only [List.mem_cons, List.not_mem_nil, or_false] at hm
          omega
      · refine ⟨_, _, rfl, isChar_ofNat [v / 4096 % 64, v / 64 % 64, v % 64]
          (by omega) (by omega) ?_ ?_⟩
        · rw [if_neg (by omega)]
          rfl
        · intro m hm
          simp only [List.mem_cons, List.not_mem_nil, or_false] at hm
          omega

namespace Utf8

variable {s x y : List (BitVec 8)} {b : BitVec 8} {p : BitVec 8 → Bool}

theorem nil : Utf8 [] := ⟨[], rfl⟩

/-- A text that is not empty begins with a character. -/
theorem uncons (h : Utf8 (b :: s)) : ∃ rest s', s = rest ++ s' ∧ IsChar b rest ∧ Utf8 s' := by
  obtain ⟨cs, hcs⟩ := h
  cases cs with
  | nil => cases hcs
  | cons c cs =>
    obtain ⟨first, rest, hc, hchar⟩ := charBytes_eq c
    rw [List.flatMap_cons, hc] at hcs
    obtain ⟨rfl, rfl⟩ := List.cons.inj hcs
    exact ⟨rest, _, rfl, hchar, cs, rfl⟩

theorem first_not (h : Utf8 (b :: s)) : isContinuation b = false := by
  obtain ⟨_, _, -, hchar, -⟩ := h.uncons
  exact hchar.first_not

/-- A text cut in front of a byte that is no continuation byte. -/
theorem split (h : Utf8 (x ++ y)) (hy : ∀ b ∈ y.head?, isContinuation b = false) : Utf8 x ∧ Utf8 y := by
  obtain ⟨cs, hcs⟩ := h
  induction cs generalizing x with
  | nil =>
    obtain ⟨rfl, rfl⟩ := List.append_eq_nil_iff.mp hcs
    exact ⟨nil, nil⟩
  | cons c cs ih =>
    cases x with
    | nil => exact ⟨nil, c :: cs, hcs⟩
    | cons a x =>
      obtain ⟨first, rest, hc, hchar⟩ := charBytes_eq c
      rw [List.flatMap_cons, hc] at hcs
      obtain ⟨rfl, hrest⟩ := List.cons.inj hcs
      rcases List.append_eq_append_iff.mp hrest with ⟨z, rfl, hz⟩ | ⟨z, rfl, hz⟩
      · -- the cut is inside of the character, or right behind it
        cases z with
        | nil =>
          rw [List.append_nil] at hc
          refine ⟨⟨[c], ?_⟩, ⟨cs, hz⟩⟩
          rw [List.flatMap_cons, List.flatMap_nil, List.append_nil, hc]
        | cons d z =>
          have hd := hy d (by rw [hz]; rfl)
          rw [hchar.rest_all d (List.mem_append_right _ List.mem_cons_self)] at hd
          cases hd
      · obtain ⟨⟨ds, rfl⟩, htail⟩ := ih hz.symm
        refine ⟨⟨c :: ds, ?_⟩, htail⟩
        rw [List.flatMap_cons, hc, List.cons_append]

/-- Behind an ASCII byte a text goes on. -/
theorem tail (h : Utf8 (b :: s)) (hb : b < 0x80#8) : Utf8 s := by
  obtain ⟨rest, s', rfl, hchar, hs⟩ := h.uncons
  have none : rest.length = 0 := by
    rw [hchar.rest_length, following, if_pos]
    exact Nat.lt_trans hb (by decide)
  rw [List.length_eq_zero_iff.mp none]
  exact hs

theorem isContinuation_ascii (hb : b < 0x80#8) : isContinuation b = false := by
  rw [← Bool.not_eq_true]
  simp only [isContinuation, Bool.and_eq_true, decide_eq_true_eq, BitVec.le_def, BitVec.lt_def] at hb ⊢
  omega

/-- What stands in front of an ASCII byte, and behind it. -/
theorem around (h : Utf8 (x ++ b :: y)) (hb : b < 0x80#8) : Utf8 x ∧ Utf8 y := by
  have cut := h.split fun c hc => by
    obtain rfl := Option.some.inj hc
    exact isContinuation_ascii hb
  exact ⟨cut.1, cut.2.tail hb⟩

/-- A text behind ASCII bytes. -/
theorem drop_ascii (h : Utf8 (x ++ y)) (hx : ∀ b ∈ x, b < 0x80#8) : Utf8 y := by
  induction x with
  | nil => exact h
  | cons b x ih => exact ih (h.tail (hx b List.mem_cons_self)) fun c hc => hx c (List.mem_cons_of_mem _ hc)

/-- A text behind a first character. -/
theorem behind {rest : List (BitVec 8)} (h : Utf8 (b :: (rest ++ y))) (hlen : rest.length = following b) : Utf8 y := by
  obtain ⟨rest', s', heq, hchar, hs⟩ := h.uncons
  obtain ⟨-, rfl⟩ := List.append_inj heq (hlen.trans hchar.rest_length.symm)
  exact hs

/-- The parts in front of and behind the bytes that satisfy a predicate up to where it ends. -/
theorem span (h : Utf8 s) (hp : ∀ b, p b = false → isContinuation b = false) :
    Utf8 (s.takeWhile p) ∧ Utf8 (s.dropWhile p) := by
  rw [← List.takeWhile_append_dropWhile (l := s)] at h
  refine h.split fun b hb => hp b ?_
  have := List.head?_dropWhile_not p s
  rw [Option.mem_def.mp hb] at this
  exact this

/-- The parts between ASCII bytes. -/
theorem splitOnP (hp : ∀ b, p b = true → b < 0x80#8) (h : Utf8 s) :
    ∀ part ∈ s.splitOnP p, Utf8 part := by
  induction hn : s.length using Nat.strongRecOn generalizing s with
  | ind n ih =>
    intro part hpart
    by_cases hsome : ∃ b ∈ s, p b = true
    · obtain ⟨b, hb, hpb⟩ := hsome
      obtain ⟨x, y, rfl⟩ := List.append_of_mem hb
      obtain ⟨hx, hy⟩ := h.around (hp b hpb)
      rw [List.splitOnP_append_cons x y hpb, List.mem_append] at hpart
      rw [List.length_append, List.length_cons] at hn
      rcases hpart with hpart | hpart
      · exact ih x.length (by omega) hx rfl part hpart
      · exact ih y.length (by omega) hy rfl part hpart
    · have clear : ∀ b ∈ s, p b = false := fun b hb => by
        rw [← Bool.not_eq_true]
        exact fun hpb => hsome ⟨b, hb, hpb⟩
      rw [List.splitOnP_eq_singleton clear, List.mem_singleton] at hpart
      exact hpart ▸ h

end Utf8

/-! ## Slices -/

/-- There is a cut in front of the byte at `i`, or behind the last one. -/
def isCharBoundary (s : List (BitVec 8)) (i : Nat) : Bool :=
  i == 0 || i == s.length || s[i]?.any fun b => !isContinuation b

open Checked List

/-- A part of a text; a cut inside of a character is a fault. -/
def strSlice (s : List (BitVec 8)) (lo hi : Nat) : Checked (List (BitVec 8)) := do
  let part ← slice s lo hi
  if isCharBoundary s lo && isCharBoundary s hi then pure part else stop .boundary

variable {s : List (BitVec 8)} {lo hi : Nat}

theorem strSlice_eq (hle : lo ≤ hi) (hlen : hi ≤ s.length) (hlo : isCharBoundary s lo) (hhi : isCharBoundary s hi) :
    strSlice s lo hi = pure ((s.drop lo).take (hi - lo)) := by
  rw [strSlice, slice_eq hle hlen, hlo, hhi]
  rfl

theorem isCharBoundary_zero (s : List (BitVec 8)) : isCharBoundary s 0 := rfl

theorem isCharBoundary_length (s : List (BitVec 8)) : isCharBoundary s s.length := by
  simp [isCharBoundary]

/-- In front of a text there is a cut. -/
theorem isCharBoundary_of_drop {i : Nat} (hi : i ≤ s.length) (h : Utf8 (s.drop i)) : isCharBoundary s i := by
  cases hdrop : s.drop i with
  | nil =>
    have := drop_eq_nil_iff.mp hdrop
    rw [Nat.le_antisymm hi this]
    exact isCharBoundary_length s
  | cons b rest =>
    rw [hdrop] at h
    have first : s[i]? = some b := by rw [← head?_drop, hdrop, head?_cons]
    simp [isCharBoundary, first, h.first_not]

variable {x y : List (BitVec 8)}

theorem isCharBoundary_append (h : Utf8 y) : isCharBoundary (x ++ y) x.length :=
  isCharBoundary_of_drop (by rw [length_append]; omega) (by rw [drop_left]; exact h)

theorem strSlice_head (h : Utf8 y) : strSlice (x ++ y) 0 x.length = pure x := by
  rw [strSlice_eq (Nat.zero_le _) (by rw [length_append]; omega) (isCharBoundary_zero _) (isCharBoundary_append h),
    drop_zero, Nat.sub_zero, take_left]

theorem strSlice_tail (h : Utf8 y) : strSlice (x ++ y) x.length (x ++ y).length = pure y := by
  rw [strSlice_eq (by rw [length_append]; omega) (Nat.le_refl _) (isCharBoundary_append h)
    (isCharBoundary_length _), drop_left, length_append, Nat.add_sub_cancel_left, take_length]

section

variable {b c : BitVec 8} {j k : Nat} (h : Utf8 s) (hk : s[k]? = some c) (hc : c < 0x80#8)
include h hk hc

/-- A text around an ASCII byte. -/
theorem Utf8.take_drop : Utf8 (s.take k) ∧ Utf8 (s.drop (k + 1)) := by
  obtain ⟨hlt, rfl⟩ := List.getElem?_eq_some_iff.mp hk
  rw [← take_append_drop k s, drop_eq_getElem_cons hlt] at h
  exact h.around hc

omit h in
theorem isCharBoundary_before : isCharBoundary s k := by
  simp [isCharBoundary, hk, Utf8.isContinuation_ascii hc]

theorem isCharBoundary_behind : isCharBoundary s (k + 1) :=
  isCharBoundary_of_drop (List.getElem?_eq_some_iff.mp hk).1 (h.take_drop hk hc).2

omit h in
theorem strSlice_before : strSlice s 0 k = pure (s.take k) := by
  have hlt := (List.getElem?_eq_some_iff.mp hk).1
  rw [strSlice_eq (Nat.zero_le k) (Nat.le_of_lt hlt) (isCharBoundary_zero s) (isCharBoundary_before hk hc), List.drop_zero,
    Nat.sub_zero]

theorem strSlice_behind : strSlice s (k + 1) s.length = pure (s.drop (k + 1)) := by
  have hlt := (List.getElem?_eq_some_iff.mp hk).1
  rw [strSlice_eq hlt (Nat.le_refl _) (isCharBoundary_behind h hk hc) (isCharBoundary_length s), ← List.length_drop,
    List.take_length]

/-- A text between two ASCII bytes. -/
theorem strSlice_between (hj : s[j]? = some b) (hb : b < 0x80#8) (hjk : j < k) :
    strSlice s (j + 1) k = pure ((s.take k).drop (j + 1)) ∧ Utf8 ((s.take k).drop (j + 1)) := by
  have hlt := (List.getElem?_eq_some_iff.mp hk).1
  constructor
  · rw [strSlice_eq hjk (Nat.le_of_lt hlt) (isCharBoundary_behind h hj hb) (isCharBoundary_before hk hc), List.drop_take]
  · exact ((h.take_drop hk hc).1.take_drop (by rw [getElem?_take_of_lt hjk]; exact hj) hb).2

end

end Vock.Library
