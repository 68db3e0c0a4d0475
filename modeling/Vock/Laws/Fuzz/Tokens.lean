import Vock.Format
import Vock.Fuzz.ProgText

/-!
# Numbers, references and words

How numbers and references are written, and that the parser reads them back: as hexadecimal numbers
(`parseInt_hex`), decimal ones (`fromStrRadix_dec`) and references with their divisor and offset
(`parseResRef_refText`). A word ends in front of a separator (`word_append`), and nothing is trimmed
off a text whose ends are visible characters (`trim_eq`).
-/

namespace Vock.Fuzz

open Library List

variable {b : U8} {s rest w : List U8} {p : U8 → Bool} {radix : Nat} {before t : List U8}

/-! ## Trimming -/

/-- A visible ASCII character. -/
def isVisible (b : U8) : Bool := 0x21#8 ≤ b && b ≤ 0x7e#8

theorem isCode_whiteSpace : IsCode whiteSpace := ⟨by decide, by decide⟩

theorem isCode_reverse_whiteSpace : IsCode (whiteSpace.map List.reverse) := ⟨by decide, by decide⟩

theorem all_whiteSpace (h : whiteSpace.flatten.all p = true) (hw : w ∈ whiteSpace) (hb : b ∈ w) :
    p b = true := all_eq_true.mp h b (mem_flatten.mpr ⟨w, hw, hb⟩)

theorem not_visible_of_whiteSpace : ∀ w ∈ whiteSpace, ∀ b ∈ w, isVisible b = false := fun _ hw _ hb =>
  Bool.not_eq_true' _ ▸ all_whiteSpace (p := (!isVisible ·)) (by decide) hw hb

theorem trimStart_visible {spellings : List (List U8)} (hcode : IsCode spellings)
    (hvis : ∀ w ∈ spellings, ∀ b ∈ w, isVisible b = false) (h : ∀ b ∈ s.head?, isVisible b = true) :
    trimStart spellings s = s := by
  refine trimStart_of_not_isPrefix ?_
  rintro w hw ⟨t, rfl⟩
  cases w with
  | nil => exact hcode.ne_nil [] hw rfl
  | cons b w => exact absurd (h b rfl) (by rw [hvis _ hw b mem_cons_self]; decide)

theorem trimEnd_eq (h : ∀ b ∈ s.getLast?, isVisible b = true) : trimEnd whiteSpace s = s := by
  have hvis : ∀ w ∈ whiteSpace.map reverse, ∀ b ∈ w, isVisible b = false := by
    intro w hw b hb
    obtain ⟨v, hv, rfl⟩ := mem_map.mp hw
    exact not_visible_of_whiteSpace v hv b (mem_reverse.mp hb)
  rw [trimEnd, trimStart_visible isCode_reverse_whiteSpace hvis (by rwa [head?_reverse]), reverse_reverse]

/-- Nothing is trimmed off visible ends. -/
theorem trim_eq (hhead : ∀ b ∈ s.head?, isVisible b = true) (hlast : ∀ b ∈ s.getLast?, isVisible b = true) :
    trim s = s := by
  rw [trim, trimStart_visible isCode_whiteSpace not_visible_of_whiteSpace hhead, trimEnd_eq hlast]

theorem trim_of_visible (h : ∀ b ∈ s, isVisible b = true) : trim s = s :=
  trim_eq (fun b hb => h b (mem_of_mem_head? hb)) fun b hb => h b (mem_of_mem_getLast? hb)

/-- A run of white space. -/
def Spaces (s : List U8) : Prop := ∃ ws : List (List U8), (∀ w ∈ ws, w ∈ whiteSpace) ∧ s = ws.flatten

theorem spaces_nil : Spaces [] := ⟨[], nofun, rfl⟩

theorem spaces_singleton (h : w ∈ whiteSpace) : Spaces w :=
  ⟨[w], forall_mem_singleton.mpr h, by rw [flatten_singleton]⟩

theorem trimStart_spaces (h : Spaces s) (t : List U8) : trimStart whiteSpace (s ++ t) = trimStart whiteSpace t := by
  obtain ⟨ws, hws, rfl⟩ := h
  exact trimStart_flatten isCode_whiteSpace hws t

theorem trimEnd_spaces (h : Spaces s) (t : List U8) : trimEnd whiteSpace (t ++ s) = trimEnd whiteSpace t := by
  obtain ⟨ws, hws, rfl⟩ := h
  have hrev : ∀ w ∈ (ws.map reverse).reverse, w ∈ whiteSpace.map reverse := by
    intro w hw
    obtain ⟨v, hv, rfl⟩ := mem_map.mp (mem_reverse.mp hw)
    exact mem_map_of_mem (hws v hv)
  rw [trimEnd, reverse_append, reverse_flatten, trimStart_flatten isCode_reverse_whiteSpace hrev, trimEnd]

/-- The white space around a text with visible ends is trimmed off. -/
theorem trim_padded {after : List U8} (hbefore : Spaces before) (hafter : Spaces after)
    (hhead : ∀ b ∈ s.head?, isVisible b = true) (hlast : ∀ b ∈ s.getLast?, isVisible b = true) :
    trim (before ++ (s ++ after)) = s := by
  have hstart : trimStart whiteSpace (s ++ after) = s ++ after ∨ s = [] := by
    cases s with
    | nil => exact .inr rfl
    | cons b s => exact .inl (trimStart_visible isCode_whiteSpace not_visible_of_whiteSpace hhead)
  rw [trim, trimStart_spaces hbefore]
  rcases hstart with hstart | rfl
  · rw [hstart, trimEnd_spaces hafter, trimEnd_eq hlast]
  · rw [nil_append, ← append_nil after, trimStart_spaces hafter]
    rfl

/-- What is behind a visible character stays behind it. -/
theorem trim_stops {u : List U8} (hbefore : Spaces before) (hb : isVisible b = true)
    (hhead : ∀ c ∈ u.head?, isVisible c = true) (s : List U8) :
    ∃ s', trim (before ++ (u ++ b :: s)) = u ++ b :: s' := by
  have hhead' : ∀ c ∈ (u ++ b :: s).head?, isVisible c = true := by
    cases u with
    | nil => rintro c ⟨⟩; exact hb
    | cons d u => exact hhead
  have hnot : ∀ w ∈ whiteSpace.map reverse, b ∉ w := by
    intro w hw hmem
    obtain ⟨v, hv, rfl⟩ := mem_map.mp hw
    rw [not_visible_of_whiteSpace v hv b (mem_reverse.mp hmem)] at hb
    cases hb
  obtain ⟨s', hs'⟩ := trimStart_stops hnot s.reverse u.reverse
  have hrev : (u ++ b :: s).reverse = s.reverse ++ b :: u.reverse := by simp
  rw [trim, trimStart_spaces hbefore, trimStart_visible isCode_whiteSpace not_visible_of_whiteSpace hhead', trimEnd,
    hrev, hs']
  simp

/-- A carriage return at the end makes no difference. -/
theorem trim_concat_return (s : List U8) : trim (s ++ ascii ['\r']) = trim s := by
  have honly : ∀ w ∈ whiteSpace, byte '\r' ∈ w → w = [byte '\r'] := by decide
  obtain ⟨v, hv, heq⟩ := trimStart_concat isCode_whiteSpace (by decide) honly s
  rw [trim, show ascii ['\r'] = [byte '\r'] from rfl, heq, trim]
  rcases hv with rfl | rfl
  · rw [append_nil]
  · exact trimEnd_spaces (spaces_singleton (by decide)) _

/-! ## Numbers -/

theorem toDigit_digitByte : ∀ d < 16, toDigit 16 (digitByte d) = some d := by decide

theorem toDigit_digitByte_ten : ∀ d < 10, toDigit 10 (digitByte d) = some d := by decide

theorem isAlphanumeric_digitByte : ∀ d < 16, isAlphanumeric (digitByte d) = true := by decide

theorem isDigit_digitByte : ∀ d < 10, isDigit (digitByte d) = true := by decide

theorem mem_dec {n : Nat} (h : b ∈ dec n) : isDigit b = true := by
  obtain ⟨d, hd, rfl⟩ := mem_numeral (by decide) h
  exact isDigit_digitByte d hd

theorem mem_hex {v : U64} (h : b ∈ hex v) : isAlphanumeric b = true := by
  rcases mem_append.mp h with h | h
  · exact (show ∀ b ∈ ascii ['0', 'x'], isAlphanumeric b = true by decide) b h
  · obtain ⟨d, hd, rfl⟩ := mem_numeral (by decide) h
    exact isAlphanumeric_digitByte d hd

/-- No byte of a text is of a class, where it has none. -/
theorem forall_mem_of_any (h : s.any p = false) : ∀ b ∈ s, p b = false := fun b hb =>
  Bool.eq_false_iff.mpr (any_eq_false.mp h b hb)

/-- A byte of a class is none that is outside of it. -/
theorem ne_of_class {c : U8} (hb : p b = true) (hc : p c = false) : b ≠ c := by
  rintro rfl
  rw [hb] at hc
  cases hc

/-- A byte of a word: of a number, a reference or a name. -/
def isWordByte (b : U8) : Bool :=
  isAlphanumeric b || b == byte '_' || b == byte '$' || b == byte '/' || b == byte '+'

theorem isWordByte_of_isAlphanumeric (h : isAlphanumeric b = true) : isWordByte b = true := by
  simp [isWordByte, h]

theorem isAlphanumeric_of_isDigit (h : isDigit b = true) : isAlphanumeric b = true := by
  simp [isAlphanumeric, h]

theorem isVisible_of_isWordByte : ∀ b : U8, isWordByte b = true → isVisible b = true := by decide +kernel

theorem isSep_of_isWordByte : ∀ b : U8, isWordByte b = true → isSep b = false := by decide +kernel

theorem digitsValue_numeral (hradix : 1 < radix)
    (h : ∀ d < radix, toDigit radix (digitByte d) = some d) (n : Nat) :
    digitsValue radix (numeral radix digitByte n) = some n := by
  rw [digitsValue, if_neg (numeral_ne_nil n), readNumeral_numeral hradix h]

theorem digitByte_ne_plus : ∀ d < 16, digitByte d ≠ byte '+' := by decide

private theorem dropPlus_numeral (hradix : 1 < radix) (hle : radix ≤ 16) (n : Nat) :
    dropPlus (numeral radix digitByte n) = numeral radix digitByte n := by
  have hplus : byte '+' ∉ numeral radix digitByte n := by
    intro hmem
    obtain ⟨d, hd, heq⟩ := mem_numeral hradix hmem
    exact absurd heq (digitByte_ne_plus d (by omega))
  rw [dropPlus, dropPrefix?_eq_none (w := ascii ['+']) mem_cons_self hplus]
  rfl

theorem fromStrRadix_numeral (hradix : 1 < radix) (hle : radix ≤ 16)
    (h : ∀ d < radix, toDigit radix (digitByte d) = some d) (v : U64) :
    fromStrRadix radix (numeral radix digitByte v.toNat) = some v := by
  rw [fromStrRadix, dropPlus_numeral hradix hle, digitsValue_numeral hradix h, Option.filter_some,
    if_pos (decide_eq_true v.isLt), Option.map_some, BitVec.ofNat_toNat, BitVec.setWidth_eq]

theorem fromStrRadix_dec (v : U64) : fromStrRadix 10 (dec v.toNat) = some v :=
  fromStrRadix_numeral (by decide) (by decide) toDigit_digitByte_ten v

theorem trim_hex (v : U64) : trim (hex v) = hex v :=
  trim_of_visible fun b hb => isVisible_of_isWordByte b (isWordByte_of_isAlphanumeric (mem_hex hb))

/-- A hexadecimal number is read back. -/
theorem parseInt_hex (v : U64) : parseInt (hex v) = some v := by
  have hdrop : (hex v).dropPrefix? (ascii ['0', 'x']) = some (numeral 16 digitByte v.toNat) :=
    dropPrefix?_append _ _
  rw [parseInt, trim_hex]
  simp only [hdrop]
  exact fromStrRadix_numeral (by decide) (by decide) toDigit_digitByte v

/-! ## References -/

/-- A divisor or an offset, written where it is not zero. -/
def refTail (c : Char) (v : U64) : List U8 := if v = 0#64 then [] else byte c :: hex v

def refText (idx div add : U64) : List U8 :=
  byte 'r' :: (dec idx.toNat ++ (refTail '/' div ++ refTail '+' add))

theorem takeWhile_append_of (hs : ∀ b ∈ s, p b = true)
    (ht : ∀ b ∈ t.head?, p b = false) : (s ++ t).takeWhile p = s ∧ (s ++ t).dropWhile p = t := by
  rw [takeWhile_append_of_pos hs, dropWhile_append_of_pos hs]
  cases t with
  | nil => simp
  | cons b t => simp [ht b rfl]

/-- What `refTail` writes is read by `refPart`. -/
theorem refPart_refTail {c : Char} {v : U64} (ht : ∀ b ∈ t.head?, isAlphanumeric b = false)
    (hc : ∀ b ∈ t.head?, b ≠ byte c) : refPart c (refTail c v ++ t) = (v, t) := by
  by_cases hv : v = 0#64
  · rw [refTail, if_pos hv, nil_append, refPart]
    cases hdrop : t.dropPrefix? (ascii [c]) with
    | none => rw [hv]
    | some u =>
      rw [eq_append_of_dropPrefix? hdrop] at hc
      exact absurd rfl (hc (byte c) rfl)
  · obtain ⟨htake, hdropw⟩ := takeWhile_append_of (fun b => mem_hex (v := v)) ht
    rw [refTail, if_neg hv, refPart, cons_append,
      show byte c :: (hex v ++ t) = ascii [c] ++ (hex v ++ t) from rfl, dropPrefix?_append]
    simp [htake, hdropw, parseInt_hex]

theorem head?_refTail (c : Char) (v : U64) (t : List U8) :
    (refTail c v ++ t).head? = some (byte c) ∨ (refTail c v ++ t).head? = t.head? := by
  unfold refTail
  split
  · exact .inr rfl
  · exact .inl rfl

/-- A reference is read back. -/
theorem parseResRef_refText (idx div add : U64) : parseResRef (refText idx div add) = some (.res idx div add) := by
  have hadd : refPart '+' (refTail '+' add) = (add, []) := by
    have := refPart_refTail (c := '+') (v := add) (t := []) (by simp) (by simp)
    rwa [append_nil] at this
  have hadds : ∀ b ∈ (refTail '+' add).head?, b = byte '+' := by
    intro b hb
    rcases head?_refTail '+' add [] with h | h <;> rw [append_nil] at h <;> rw [h] at hb <;> cases hb
    rfl
  have hdiv : refPart '/' (refTail '/' div ++ refTail '+' add) = (div, refTail '+' add) := by
    refine refPart_refTail ?_ ?_ <;> intro b hb <;> rw [hadds b hb] <;> decide
  have htail : ∀ b ∈ (refTail '/' div ++ refTail '+' add).head?, isDigit b = false := by
    intro b hb
    rcases head?_refTail '/' div (refTail '+' add) with h | h <;> rw [h] at hb
    · cases hb; decide
    · rw [hadds b hb]; decide
  obtain ⟨htake, hdropw⟩ := takeWhile_append_of (fun b => mem_dec (n := idx.toNat)) htail
  have hdrop : (refText idx div add).dropPrefix? (ascii ['r']) =
      some (dec idx.toNat ++ (refTail '/' div ++ refTail '+' add)) := dropPrefix?_append (ascii ['r']) _
  have hne : dec idx.toNat ≠ [] := numeral_ne_nil _
  rw [parseResRef, hdrop]
  simp only [Option.bind_eq_bind, Option.bind_some, htake, hdropw, if_neg hne, fromStrRadix_dec, hdiv, hadd]
  rfl

theorem mem_refText {idx div add : U64} (h : b ∈ refText idx div add) : isWordByte b = true := by
  have htail : ∀ {c v}, isWordByte (byte c) = true → b ∈ refTail c v → isWordByte b = true := by
    intro c v hc hb
    unfold refTail at hb
    split at hb
    · cases hb
    · rcases mem_cons.mp hb with rfl | hb
      · exact hc
      · exact isWordByte_of_isAlphanumeric (mem_hex hb)
  rcases mem_cons.mp h with rfl | h
  · decide
  rcases mem_append.mp h with h | h
  · exact isWordByte_of_isAlphanumeric (isAlphanumeric_of_isDigit (mem_dec h))
  · rcases mem_append.mp h with h | h
    · exact htail (by decide) h
    · exact htail (by decide) h

/-! ## Words -/

theorem isLatinSpace_of_isVisible : ∀ b : U8, isVisible b = true → isLatinSpace b = false := by decide +kernel

/-- Visible text is not eaten as space. -/
theorem eatWs_cons (h : isVisible b = true) (s : List U8) : eatWs (b :: s) = b :: s := by
  rw [eatWs, dropWhile_cons_of_neg (by rw [isLatinSpace_of_isVisible b h]; decide)]

theorem word_append (hne : w ≠ []) (hw : ∀ b ∈ w, isWordByte b = true)
    (hrest : ∀ b ∈ rest.head?, isSep b = true) :
    word (w ++ rest) =
      (if w = ascii ['n', 'i', 'l'] ∨ w = ascii ['A', 'U', 'T', 'O'] then .nil
        else if (ascii ['c', 's', 'u', 'm']).isPrefixOf w then .csum
        else ((parseResRef w).or ((parseInt w).map .int)).getD .nil, rest) := by
  have heat : eatWs (w ++ rest) = w ++ rest := by
    cases w with
    | nil => exact absurd rfl hne
    | cons b w => exact eatWs_cons (isVisible_of_isWordByte b (hw b mem_cons_self)) _
  obtain ⟨htake, hdrop⟩ : (w ++ rest).takeWhile (!isSep ·) = w ∧ (w ++ rest).dropWhile (!isSep ·) = rest :=
    takeWhile_append_of (fun b hb => by rw [isSep_of_isWordByte b (hw b hb)]; rfl)
      (fun b hb => by rw [hrest b hb]; rfl)
  have htrim : trim w = w := trim_of_visible fun b hb => isVisible_of_isWordByte b (hw b hb)
  unfold word toSep
  simp only [heat, htake, hdrop, htrim, if_neg hne]
  split
  · rfl
  · split <;> rfl

theorem word_hex (v : U64) (hrest : ∀ b ∈ rest.head?, isSep b = true) : word (hex v ++ rest) = (.int v, rest) := by
  have hnil : ¬ (hex v = ascii ['n', 'i', 'l'] ∨ hex v = ascii ['A', 'U', 'T', 'O']) := by
    rintro (h | h)
    · exact absurd (show some (byte '0') = some (byte 'n') from congrArg head? h) (by decide)
    · exact absurd (show some (byte '0') = some (byte 'A') from congrArg head? h) (by decide)
  rw [word_append (w := hex v) (cons_ne_nil _ _) (fun b hb => isWordByte_of_isAlphanumeric (mem_hex hb)) hrest, if_neg hnil, parseInt_hex]
  rfl

theorem word_refText (idx div add : U64) (hrest : ∀ b ∈ rest.head?, isSep b = true) :
    word (refText idx div add ++ rest) = (.res idx div add, rest) := by
  have hnil : ¬ (refText idx div add = ascii ['n', 'i', 'l'] ∨ refText idx div add = ascii ['A', 'U', 'T', 'O']) := by
    rintro (h | h)
    · exact absurd (show some (byte 'r') = some (byte 'n') from congrArg head? h) (by decide)
    · exact absurd (show some (byte 'r') = some (byte 'A') from congrArg head? h) (by decide)
  have hcsum : (ascii ['c', 's', 'u', 'm']).isPrefixOf (refText idx div add) = false := rfl
  rw [word_append (w := refText idx div add) (cons_ne_nil _ _) (fun b => mem_refText) hrest, if_neg hnil, hcsum, if_neg (by decide),
    parseResRef_refText]
  rfl

theorem word_nil (hrest : ∀ b ∈ rest.head?, isSep b = true) : word (ascii ['n', 'i', 'l'] ++ rest) = (.nil, rest) := by
  rw [word_append (w := ascii ['n', 'i', 'l']) (cons_ne_nil _ _) (by decide) hrest, if_pos (.inl rfl)]

theorem word_csum (hrest : ∀ b ∈ rest.head?, isSep b = true) :
    word (ascii ['c', 's', 'u', 'm'] ++ rest) = (.csum, rest) := by
  rw [word_append (w := ascii ['c', 's', 'u', 'm']) (cons_ne_nil _ _) (by decide) hrest, if_neg (by decide), if_pos (by decide)]

end Vock.Fuzz
