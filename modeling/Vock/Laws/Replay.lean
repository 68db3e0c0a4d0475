import Vock.Laws.Fuzz.Tokens
import Vock.Laws.Syscall.Tables
import Vock.Replay
import Vock.Syscall.Decode

/-!
# Replaying a traced call

What the readers of a trace make of a line that `decode_syscall` writes. They read on over the numbers of
a line (`parseLeadingLong_number`), and get stuck at the first position that is no number: from there on
every position is read as 0 (`readArgs_stuck`). A number is read for what it spells where that is in the
range of an `i64`, and as 0 elsewhere (`showI64_number`, `hex_number`).
-/

namespace Vock.Replay

open Library Fuzz List

variable {b : U8} {t r digits : List U8} {hexed : Bool} {s : List U8}

/-! ## Numbers -/

/-- A number with its sign and, in hexadecimal, its `0x`. -/
def numText (neg hexed : Bool) (digits : List U8) : List U8 :=
  (if neg then [byte '-'] else []) ++ ((if hexed then ascii ['0', 'x'] else []) ++ digits)

def radixOf (hexed : Bool) : Nat := if hexed then 16 else 10

/-- A text that is a single number: decimal, octal or hexadecimal digits, or a sign and digits. -/
def IsNumber (t : List U8) : Prop :=
  ∃ neg hexed digits, digits ≠ [] ∧ (∀ b ∈ digits, isDigitOf (radixOf hexed) b = true) ∧ t = numText neg hexed digits

/-- The value that is read for a number. -/
def parsed (t : List U8) : U64 := (parseLeadingLong t).1

/-- A byte that ends a number. -/
def isEnd (b : U8) : Bool := b = byte ',' ∨ b = byte ')' ∨ b = byte '|'

/-- A byte that neither a number nor a separator begins with. -/
def isStop (b : U8) : Bool :=
  isVisible b && !isDigitOf 10 b && b != byte '-' && b != byte '+' && b != byte ','

theorem isDigitOf_of_isEnd : ∀ b : U8, isEnd b = true → isDigitOf 10 b = false ∧ isDigitOf 16 b = false := by
  decide +kernel

theorem isDigitOf_sixteen : ∀ b : U8, isDigitOf 10 b = true → isDigitOf 16 b = true := by decide +kernel

theorem isVisible_of_isDigitOf : ∀ b : U8, isDigitOf 16 b = true → isVisible b = true := by decide +kernel

theorem trimStart_isVisible (hb : isVisible b = true) (s : List U8) : trimStart whiteSpace (b :: s) = b :: s :=
  trimStart_visible isCode_whiteSpace not_visible_of_whiteSpace fun c hc => by cases hc; exact hb

theorem takeSign_digit (hb : isDigitOf 10 b = true) (s : List U8) : takeSign (b :: s) = (false, b :: s) := by
  rw [takeSign, if_neg, if_neg]
  · rintro rfl
    cases hb
  · rintro rfl
    cases hb

section

variable (hne : digits ≠ []) (hall : ∀ b ∈ digits, isDigitOf 10 b = true) (hr : ∀ b ∈ r.head?, isEnd b = true)
include hne hall hr

/-- Digits and what ends them do not begin with a radix. -/
theorem dropPrefix?_radix {c : U8} (hc : isDigitOf 10 c = false)
    (hc' : isEnd c = false) : (digits ++ r).dropPrefix? [byte '0', c] = none := by
  cases hdrop : (digits ++ r).dropPrefix? [byte '0', c] with
  | none => rfl
  | some s =>
    have heq := eq_append_of_dropPrefix? hdrop
    match digits, hne with
    | [d], _ =>
      -- the digit is the 0, and `c` the end of the number
      obtain ⟨-, rfl⟩ := cons.inj heq
      rw [hr c rfl] at hc'
      cases hc'
    | d :: e :: ds, _ =>
      obtain ⟨-, hrest⟩ := cons.inj heq
      obtain ⟨rfl, -⟩ := cons.inj hrest
      rw [hall e (mem_cons_of_mem d mem_cons_self)] at hc
      cases hc

theorem takeRadix_dec : takeRadix (digits ++ r) = (10, digits ++ r) := by
  have hlower : (digits ++ r).dropPrefix? (ascii ['0', 'x']) = none :=
    dropPrefix?_radix hne hall hr (by decide) (by decide)
  have hupper : (digits ++ r).dropPrefix? (ascii ['0', 'X']) = none :=
    dropPrefix?_radix hne hall hr (by decide) (by decide)
  rw [takeRadix, hlower, hupper]
  rfl

end

theorem takeRadix_hex (s : List U8) : takeRadix (ascii ['0', 'x'] ++ s) = (16, s) := by
  rw [takeRadix, dropPrefix?_append]
  rfl

section

variable (neg : Bool) (hne : digits ≠ []) (hall : ∀ b ∈ digits, isDigitOf (radixOf hexed) b = true)
  (hr : ∀ b ∈ r.head?, isEnd b = true)
include hne hall hr

/-- What is left once the sign and the radix are taken. -/
theorem takeSign_takeRadix :
    ∃ u, takeSign (trimStart whiteSpace (numText neg hexed digits ++ r)) = (neg, u) ∧
      takeRadix u = (radixOf hexed, digits ++ r) := by
  -- behind the sign there is a digit, also in front of the `x`
  obtain ⟨b, s, hb, hbody, hradix⟩ : ∃ b s, isDigitOf 10 b = true ∧
      (if hexed then ascii ['0', 'x'] else []) ++ digits ++ r = b :: s ∧
      takeRadix (b :: s) = (radixOf hexed, digits ++ r) := by
    cases hexed with
    | true => exact ⟨byte '0', byte 'x' :: (digits ++ r), by decide, rfl, takeRadix_hex (digits ++ r)⟩
    | false =>
      have hdec := takeRadix_dec hne hall hr
      cases digits with
      | nil => exact absurd rfl hne
      | cons d ds => exact ⟨d, ds ++ r, hall d mem_cons_self, rfl, hdec⟩
  have hvisible := isVisible_of_isDigitOf b (isDigitOf_sixteen b hb)
  refine ⟨b :: s, ?_, hradix⟩
  cases neg with
  | true =>
    have htext : numText true hexed digits ++ r = byte '-' :: b :: s := by
      rw [← hbody]
      rfl
    rw [htext]
    rfl
  | false =>
    have htext : numText false hexed digits ++ r = b :: s := hbody
    rw [htext, trimStart_isVisible hvisible, takeSign_digit hb]

theorem parseLeadingLong_numText :
    parseLeadingLong (numText neg hexed digits ++ r) =
      (if neg then -magnitude (radixOf hexed) digits else magnitude (radixOf hexed) digits, r) := by
  obtain ⟨u, hsign, hradix⟩ := takeSign_takeRadix neg hne hall hr
  have hend : ∀ b ∈ r.head?, isDigitOf (radixOf hexed) b = false := by
    intro b hb
    cases hexed with
    | true => exact (isDigitOf_of_isEnd b (hr b hb)).2
    | false => exact (isDigitOf_of_isEnd b (hr b hb)).1
  obtain ⟨htake, hdrop⟩ := takeWhile_append_of hall hend
  simp [parseLeadingLong, hsign, hradix, htake, hdrop, if_neg hne]

end

/-- A number is read whole, and for the same value whatever ends it. -/
theorem parseLeadingLong_number (ht : IsNumber t) (hr : ∀ b ∈ r.head?, isEnd b = true) :
    parseLeadingLong (t ++ r) = (parsed t, r) := by
  obtain ⟨neg, hexed, digits, hne, hall, rfl⟩ := ht
  have halone := parseLeadingLong_numText neg (r := []) hne hall nofun
  rw [append_nil] at halone
  rw [parseLeadingLong_numText neg hne hall hr, parsed, halone]

/-! ## The numbers that are printed -/

theorem magnitude_numeral (n : Nat) :
    magnitude (radixOf hexed) (numeral (radixOf hexed) digitByte n) =
      if n < 2 ^ 63 then BitVec.ofNat 64 n else 0#64 := by
  have hvalue : digitsValue (radixOf hexed) (numeral (radixOf hexed) digitByte n) = some n := by
    cases hexed with
    | true => exact digitsValue_numeral (by decide) toDigit_digitByte n
    | false => exact digitsValue_numeral (by decide) toDigit_digitByte_ten n
  rw [magnitude, hvalue, Option.filter_some]
  by_cases hn : n < 2 ^ 63
  · rw [if_pos (decide_eq_true hn), if_pos hn]
    rfl
  · rw [if_neg (by rwa [decide_eq_true_iff]), if_neg hn]
    rfl

theorem isDigitOf_numeral (hexed : Bool) (n : Nat) :
    ∀ b ∈ numeral (radixOf hexed) digitByte n, isDigitOf (radixOf hexed) b = true := by
  intro b hb
  cases hexed with
  | true =>
    obtain ⟨d, hd, rfl⟩ := mem_numeral (by decide) hb
    rw [isDigitOf, show radixOf true = 16 from rfl, toDigit_digitByte d hd]
    rfl
  | false =>
    obtain ⟨d, hd, rfl⟩ := mem_numeral (by decide) hb
    rw [isDigitOf, show radixOf false = 10 from rfl, toDigit_digitByte_ten d hd]
    rfl

/-- A numeral with a sign and a radix is a number, read for its value in the range of an `i64`. -/
theorem numText_numeral (neg hexed : Bool) (n : Nat) :
    IsNumber (numText neg hexed (numeral (radixOf hexed) digitByte n)) ∧
      parsed (numText neg hexed (numeral (radixOf hexed) digitByte n)) =
        if n < 2 ^ 63 then (if neg then -BitVec.ofNat 64 n else BitVec.ofNat 64 n) else 0#64 := by
  refine ⟨⟨neg, hexed, _, numeral_ne_nil n, isDigitOf_numeral hexed n, rfl⟩, ?_⟩
  have halone := parseLeadingLong_numText neg (r := []) (numeral_ne_nil n) (isDigitOf_numeral hexed n) nofun
  rw [append_nil] at halone
  rw [parsed, halone, magnitude_numeral]
  by_cases hn : n < 2 ^ 63
  · rw [if_pos hn, if_pos hn]
  · rw [if_neg hn, if_neg hn]
    cases neg <;> rfl

theorem dec_number (n : Nat) :
    IsNumber (dec n) ∧ parsed (dec n) = if n < 2 ^ 63 then BitVec.ofNat 64 n else 0#64 :=
  numText_numeral false false n

theorem hex_number (v : U64) : IsNumber (hex v) ∧ parsed (hex v) = if v.toNat < 2 ^ 63 then v else 0#64 := by
  have h := numText_numeral false true v.toNat
  rw [BitVec.ofNat_toNat] at h
  exact h

/-- The least `i64`, whose magnitude is out of range. -/
def intMin : U64 := 0x8000000000000000#64

theorem showI64_number (v : U64) : IsNumber (showI64 v) ∧ parsed (showI64 v) = if v = intMin then 0#64 else v := by
  rw [showI64]
  have hmsb := BitVec.msb_eq_decide v
  cases hv : v.msb with
  | true =>
    obtain ⟨hnumber, hparsed⟩ := numText_numeral true false (-v).toNat
    refine ⟨hnumber, hparsed.trans ?_⟩
    rw [hv, eq_comm, decide_eq_true_iff] at hmsb
    have hneg : (-v).toNat = 2 ^ 64 - v.toNat := by
      rw [BitVec.toNat_neg, Nat.mod_eq_of_lt (by omega)]
    by_cases hmin : v = intMin
    · rw [hmin]
      rfl
    · have hne : v.toNat ≠ 2 ^ 63 := fun h => hmin (BitVec.eq_of_toNat_eq h)
      rw [if_neg hmin, if_pos (by omega), BitVec.ofNat_toNat]
      exact BitVec.neg_neg
  | false =>
    obtain ⟨hnumber, hparsed⟩ := dec_number v.toNat
    refine ⟨hnumber, hparsed.trans ?_⟩
    rw [hv, eq_comm, decide_eq_false_iff_not] at hmsb
    have hmin : v ≠ intMin := by
      rintro rfl
      exact hmsb (by decide)
    rw [if_neg hmin, if_pos (by omega), BitVec.ofNat_toNat, BitVec.setWidth_eq]

/-! ## Getting stuck -/

theorem isCode_separators : IsCode separators := ⟨by decide, by decide⟩

/-- `trim_start_matches` takes the byte off. -/
def isSeparator (b : U8) : Bool := b == byte ',' || b == byte ' '

theorem trimStart_separators (hb : isSeparator b = false) (s : List U8) : trimStart separators (b :: s) = b :: s := by
  refine trimStart_of_not_isPrefix ?_
  intro w hw hpre
  obtain ⟨c, hc, rfl⟩ : ∃ c, isSeparator c = true ∧ w = [c] := by
    rcases mem_cons.mp hw with rfl | hw
    · exact ⟨byte ',', rfl, rfl⟩
    · exact ⟨byte ' ', rfl, mem_singleton.mp hw⟩
  obtain ⟨rfl, -⟩ := cons_prefix_cons.mp hpre
  rw [hb] at hc
  cases hc

theorem isSeparator_of_isStop : ∀ b : U8, isStop b = true → isSeparator b = false := by decide +kernel

theorem isVisible_of_isStop (h : isStop b = true) : isVisible b = true := by
  simp only [isStop, Bool.and_eq_true] at h
  exact h.1.1.1.1

theorem isDigitOf_of_isStop (h : isStop b = true) : isDigitOf 10 b = false := by
  simp only [isStop, Bool.and_eq_true, Bool.not_eq_true'] at h
  exact h.1.1.1.2

theorem ne_of_isStop (h : isStop b = true) : b ≠ byte '-' ∧ b ≠ byte '+' := by
  simp only [isStop, Bool.and_eq_true, bne_iff_ne] at h
  exact ⟨h.1.1.2, h.1.2⟩

theorem dropPrefix?_of_isStop (h : isStop b = true) (c : U8) (s : List U8) :
    (b :: s).dropPrefix? [byte '0', c] = none := by
  cases hdrop : (b :: s).dropPrefix? [byte '0', c] with
  | none => rfl
  | some s' =>
    obtain ⟨rfl, -⟩ := cons.inj (eq_append_of_dropPrefix? hdrop)
    exact absurd h (by decide)

/-- A stop is not read past. -/
theorem parseLeadingLong_stop (hb : isStop b = true) (s : List U8) : parseLeadingLong (b :: s) = (0#64, b :: s) := by
  have hsign : takeSign (b :: s) = (false, b :: s) := by
    rw [takeSign, if_neg (ne_of_isStop hb).1, if_neg (ne_of_isStop hb).2]
  have hradix : takeRadix (b :: s) = (10, b :: s) := by
    have hlower : (b :: s).dropPrefix? (ascii ['0', 'x']) = none := dropPrefix?_of_isStop hb _ s
    have hupper : (b :: s).dropPrefix? (ascii ['0', 'X']) = none := dropPrefix?_of_isStop hb _ s
    rw [takeRadix, hlower, hupper]
    rfl
  have hdigits : (b :: s).takeWhile (isDigitOf 10) = [] := by
    rw [takeWhile_cons, isDigitOf_of_isStop hb]
    rfl
  simp [parseLeadingLong, trimStart_isVisible (isVisible_of_isStop hb), hsign, hradix, hdigits]

/-- In front of a stop every argument is read as 0. -/
theorem readArgs_stuck (hb : isStop b = true) (n : Nat) (s : List U8) :
    readArgs n (b :: s) = List.replicate n 0#64 := by
  induction n with
  | zero => rfl
  | succ n ih =>
    simp only [readArgs, parseLeadingLong_stop hb, trimStart_separators (isSeparator_of_isStop b hb), ih]
    rfl

/-! ## Positions -/

/-- A position at which the reader gets stuck. -/
structure Words (t : List U8) : Prop where
  not_number : ¬ IsNumber t
  starts : ∃ b s, t = b :: s ∧ isSeparator b = false
  stuck : ∀ n r, (readArgs (n + 1) (t ++ r)).tail = List.replicate n 0#64
  line : byte '\n' ∉ t

/-- The text is all of the value, in the range of an `i64`. -/
def Exact (t : List U8) (v : U64) : Prop := (t = showI64 v ∧ v ≠ intMin) ∨ (t = hex v ∧ v.toNat < 2 ^ 63)

/-- A number is read for the value of its position where the value is 0 or the text is exact. -/
def Told (t : List U8) (v : U64) : Prop := parsed t = v ↔ v = 0#64 ∨ Exact t v

/-- The positions of a line with the values they are printed for. The flag tells that the reader is
stuck already. The last position may be left blank. -/
inductive Rendered : Bool → List (List U8) → List U64 → Prop
  | nil {stuck vs} : Rendered stuck [] vs
  | number {stuck t v ts vs} (h : IsNumber t) (told : stuck = true ∨ Told t v) (rest : Rendered stuck ts vs) :
      Rendered stuck (t :: ts) (v :: vs)
  | words {stuck t v ts vs} (h : Words t) (rest : Rendered true ts vs) : Rendered stuck (t :: ts) (v :: vs)
  | blank {stuck v vs} : Rendered stuck [[]] (v :: vs)

theorem head_number (h : IsNumber t) : ∃ b s, t = b :: s ∧ isStop b = false ∧ isSeparator b = false := by
  obtain ⟨neg, hexed, digits, hne, hall, rfl⟩ := h
  have hdigit : ∀ b : U8, isDigitOf 10 b = true → isStop b = false ∧ isSeparator b = false := by decide +kernel
  cases neg with
  | true => exact ⟨byte '-', _, rfl, by decide, by decide⟩
  | false =>
    cases hexed with
    | true => exact ⟨byte '0', _, rfl, by decide, by decide⟩
    | false =>
      cases digits with
      | nil => exact absurd rfl hne
      | cons d ds => exact ⟨d, ds, rfl, hdigit d (hall d mem_cons_self)⟩

/-- A byte of a number. -/
def isNumberByte (b : U8) : Bool := isDigitOf 16 b || b == byte '-' || b == byte 'x'

theorem mem_number (h : IsNumber t) : ∀ b ∈ t, isNumberByte b = true := by
  obtain ⟨neg, hexed, digits, -, hall, rfl⟩ := h
  have hdigits : ∀ b ∈ digits, isNumberByte b = true := by
    intro b hb
    have h16 : isDigitOf 16 b = true := by
      cases hexed with
      | true => exact hall b hb
      | false => exact isDigitOf_sixteen b (hall b hb)
    rw [isNumberByte, h16]
    rfl
  intro b hb
  rcases mem_append.mp hb with hb | hb
  · cases neg with
    | true => rw [mem_singleton.mp hb]; decide
    | false => exact absurd hb not_mem_nil
  · rcases mem_append.mp hb with hb | hb
    · cases hexed with
      | true => exact (show ∀ b ∈ ascii ['0', 'x'], isNumberByte b = true by decide) b hb
      | false => exact absurd hb not_mem_nil
    · exact hdigits b hb

theorem newline_not_mem_number (h : IsNumber t) : byte '\n' ∉ t :=
  fun hmem => absurd (mem_number h _ hmem) (by decide)

theorem words_of_stop (hb : isStop b = true) (hline : byte '\n' ∉ b :: s) : Words (b :: s) where
  not_number h := by
    obtain ⟨c, u, heq, hc, -⟩ := head_number h
    rw [← (cons.inj heq).1, hb] at hc
    cases hc
  starts := ⟨b, s, rfl, isSeparator_of_isStop b hb⟩
  stuck n r := by
    rw [cons_append, readArgs_stuck hb]
    rfl
  line := hline

theorem words_of_bar (ht : IsNumber t) (hline : byte '\n' ∉ s) : Words (t ++ byte '|' :: s) where
  not_number h := absurd (mem_number h (byte '|') (mem_append_right t mem_cons_self)) (by decide)
  starts := by
    obtain ⟨b, u, rfl, -, hb⟩ := head_number ht
    exact ⟨b, u ++ byte '|' :: s, rfl, hb⟩
  stuck n r := by
    have hbar : isStop (byte '|') = true := by decide
    have hparse : parseLeadingLong (t ++ byte '|' :: (s ++ r)) = (parsed t, byte '|' :: (s ++ r)) :=
      parseLeadingLong_number ht fun b hb => by cases hb; decide
    rw [append_assoc, readArgs]
    simp [hparse, trimStart_separators (isSeparator_of_isStop _ hbar), readArgs_stuck hbar]
  line := by
    intro hmem
    rcases mem_append.mp hmem with hmem | hmem
    · exact newline_not_mem_number ht hmem
    · rcases mem_cons.mp hmem with heq | hmem
      · exact absurd heq (by decide)
      · exact hline hmem

/-! ## The arguments of a line -/

/-- The positions with a comma between them, and what comes behind. -/
def joined (ts : List (List U8)) (tail : List U8) : List U8 := (ascii [',', ' ']).intercalate ts ++ tail

theorem joined_cons_cons (t u : List U8) (us : List (List U8)) (tail : List U8) :
    joined (t :: u :: us) tail = t ++ (ascii [',', ' '] ++ joined (u :: us) tail) := by
  rw [joined, joined, intercalate_cons_cons, append_assoc, append_assoc]

theorem joined_singleton (t tail : List U8) : joined [t] tail = t ++ tail := by
  rw [joined, intercalate_singleton]

section

variable {stuck : Bool} {ts : List (List U8)} {vs : List U64}

theorem Rendered.weaken (h : Rendered stuck ts vs) : Rendered true ts vs := by
  induction h with
  | nil => exact .nil
  | number h _ _ ih => exact .number h (.inl rfl) ih
  | words h rest _ => exact .words h rest
  | blank => exact .blank

theorem Rendered.length_le (h : Rendered stuck ts vs) : ts.length ≤ vs.length := by
  induction h with
  | nil => exact Nat.zero_le _
  | number _ _ _ ih | words _ _ ih => exact Nat.succ_le_succ ih
  | blank => exact Nat.succ_le_succ (Nat.zero_le _)

theorem Rendered.newline_not_mem (h : Rendered stuck ts vs) : ∀ t ∈ ts, byte '\n' ∉ t := by
  induction h with
  | nil => exact fun t ht => absurd ht not_mem_nil
  | number h _ _ ih => exact forall_mem_cons.mpr ⟨newline_not_mem_number h, ih⟩
  | words h _ ih => exact forall_mem_cons.mpr ⟨h.line, ih⟩
  | blank => exact forall_mem_singleton.mpr not_mem_nil

/-- What begins with a position, or with the parenthesis behind an empty one, begins with no
separator. -/
theorem Rendered.starts (h : Rendered stuck (t :: ts) vs) (tail : List U8) :
    ∃ b s, joined (t :: ts) (byte ')' :: tail) = b :: s ∧ isSeparator b = false := by
  have hfront : ∀ {b s}, t = b :: s → ∃ s', joined (t :: ts) (byte ')' :: tail) = b :: s' := by
    rintro b s rfl
    cases ts with
    | nil => exact ⟨_, joined_singleton _ _⟩
    | cons u us => exact ⟨_, joined_cons_cons _ _ _ _⟩
  cases h with
  | number h _ _ =>
    obtain ⟨b, s, rfl, -, hb⟩ := head_number h
    obtain ⟨s', hs'⟩ := hfront rfl
    exact ⟨b, s', hs', hb⟩
  | words h _ =>
    obtain ⟨b, s, rfl, hb⟩ := h.starts
    obtain ⟨s', hs'⟩ := hfront rfl
    exact ⟨b, s', hs', hb⟩
  | blank => exact ⟨byte ')', tail, joined_singleton _ _, by decide⟩

/-- One argument is read, and the rest behind the comma. -/
theorem readArgs_number {u : List U8} {us : List (List U8)} (ht : IsNumber t) (h : Rendered stuck (u :: us) vs)
    (n : Nat) (tail : List U8) :
    readArgs (n + 1) (joined (t :: u :: us) (byte ')' :: tail)) =
      parsed t :: readArgs n (joined (u :: us) (byte ')' :: tail)) := by
  obtain ⟨b, s, hbegin, hb⟩ := h.starts tail
  have hparse : parseLeadingLong (t ++ (ascii [',', ' '] ++ b :: s)) = (parsed t, ascii [',', ' '] ++ b :: s) :=
    parseLeadingLong_number ht fun c hc => by cases hc; decide
  have htrim : trimStart separators (ascii [',', ' '] ++ b :: s) = b :: s :=
    (trimStart_flatten isCode_separators (show ∀ w ∈ [ascii [','], ascii [' ']], w ∈ separators by decide)
      (b :: s)).trans (trimStart_separators hb s)
  rw [joined_cons_cons, hbegin, readArgs]
  simp [hparse, htrim]

theorem head_readArgs_number (ht : IsNumber t) (ts : List (List U8)) (n : Nat) (tail : List U8) :
    (readArgs (n + 1) (joined (t :: ts) (byte ')' :: tail)))[0]? = some (parsed t) := by
  have hparse : (parseLeadingLong (joined (t :: ts) (byte ')' :: tail))).1 = parsed t := by
    cases ts with
    | nil => rw [joined_singleton, parseLeadingLong_number ht fun b hb => by cases hb; decide]
    | cons u us => rw [joined_cons_cons, parseLeadingLong_number ht fun b hb => by cases hb; decide]
  rw [readArgs, getElem?_cons_zero, hparse]

/-- A position that is a number is read for its value exactly where the value is 0, or where all the
positions in front are numbers and the text is exact. -/
theorem readArgs_rendered (h : Rendered false ts vs) {n : Nat} (hn : ts.length ≤ n) (tail : List U8) {i : Nat} {v : U64}
    (ht : ts[i]? = some t) (hv : vs[i]? = some v) (hnum : IsNumber t) :
    (readArgs n (joined ts (byte ')' :: tail)))[i]?.getD 0#64 = v ↔
      v = 0#64 ∨ (∀ u ∈ ts.take i, IsNumber u) ∧ Exact t v := by
  generalize hfree : false = stuck at h
  induction h generalizing n i with
  | nil => cases ht
  | blank =>
    -- an empty text is no number
    cases i with
    | zero =>
      cases ht
      obtain ⟨b, s, hbs, -⟩ := head_number hnum
      cases hbs
    | succ i => cases ht
  | @number stuck t' v' ts vs h told rest ih =>
    obtain ⟨n, rfl⟩ : ∃ m, n = m + 1 := ⟨n - 1, by rw [length_cons] at hn; omega⟩
    cases i with
    | zero =>
      cases ht
      cases hv
      have htold : Told t v := told.resolve_left (by rw [← hfree]; decide)
      rw [head_readArgs_number h]
      exact htold.trans (or_congr_right ⟨fun he => ⟨fun u hu => absurd hu not_mem_nil, he⟩, fun he => he.2⟩)
    | succ i =>
      cases ts with
      | nil => cases ht
      | cons u us =>
        rw [readArgs_number h rest, getElem?_cons_succ, ih (Nat.le_of_succ_le_succ hn) ht hv hfree]
        exact or_congr_right (and_congr_left fun _ =>
          ⟨fun hall => forall_mem_cons.mpr ⟨h, hall⟩, fun hall => (forall_mem_cons.mp hall).2⟩)
  | @words stuck t' v' ts vs h rest ih =>
    obtain ⟨n, rfl⟩ : ∃ m, n = m + 1 := ⟨n - 1, by rw [length_cons] at hn; omega⟩
    cases i with
    | zero =>
      cases ht
      exact absurd hnum h.not_number
    | succ i =>
      have hzero : (readArgs (n + 1) (joined (t' :: ts) (byte ')' :: tail)))[i + 1]?.getD 0#64 = 0#64 := by
        have htail : (readArgs (n + 1) (joined (t' :: ts) (byte ')' :: tail))).tail = replicate n 0#64 := by
          cases ts with
          | nil => rw [joined_singleton, h.stuck]
          | cons u us => rw [joined_cons_cons, h.stuck]
        rw [← getElem?_tail, htail, getElem?_replicate]
        split <;> rfl
      rw [hzero]
      constructor
      · exact fun h0 => .inl h0.symm
      · rintro (h0 | ⟨hall, -⟩)
        · exact h0.symm
        · exact absurd (hall t' mem_cons_self) h.not_number

end

end Vock.Replay
