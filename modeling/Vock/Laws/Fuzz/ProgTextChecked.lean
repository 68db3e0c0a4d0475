import Mathlib.Data.List.TakeWhile
import Vock.Fuzz.ProgTextChecked
import Vock.Laws.Fuzz.InflateChecked

/-!
# Reading an argument is not stopped

The functions of `P` stay between characters: `At s i rest` says that the position `i` of the text `s` is in front of the
characters `rest`, and each function goes from one such place to another, with the argument that `Vock.Fuzz.ProgText`
finds in `rest`. An argument is not left where it begins, unless that is a separator (`Takes`); so each round of `list`
gets on, and the levels below `arg` are enough (`takes_arg`).
-/

namespace Vock.Fuzz.Machine

open Library Checked List

variable {b close : U8} {c : Char} {r : Arg × List U8} {w s rest : List U8} {p : U8 → Bool}
  {lossy : List U8 → List U8} {i : Nat} {arg' : List U8 → Arg × List U8}

/-! ## Texts -/

theorem byte_lt (hc : c.toNat < 128) : byte c < 0x80#8 := by
  rw [byte, BitVec.lt_def, BitVec.toNat_ofNat, BitVec.toNat_ofNat]
  omega

/-- A character of white space is a first byte and those it announces. -/
theorem whiteSpace_eq (hw : w ∈ whiteSpace) :
    ∃ b rest, w = b :: rest ∧ rest.length = following b ∧ isContinuation b = false := by
  have all : whiteSpace.all (fun w => w.head?.any fun b => w.tail.length == following b && !isContinuation b) = true := rfl
  obtain ⟨b, hb, hchar⟩ := (Option.any_eq_true _ _).mp (all_eq_true.mp all w hw)
  rw [Bool.and_eq_true, Bool.not_eq_true'] at hchar
  exact ⟨b, w.tail, (cons_head?_tail hb).symm, eq_of_beq hchar.1, hchar.2⟩

theorem utf8_trimStart (h : Utf8 s) : Utf8 (trimStart whiteSpace s) := by
  refine reaches_invariant (P := Utf8) (fun s s' hs hstrip => ?_) (reaches_exec _ s.length s) h
  obtain ⟨w, hw, rfl⟩ := stripStart_eq_some hstrip
  obtain ⟨b, rest, rfl, hlen, -⟩ := whiteSpace_eq hw
  exact hs.behind hlen

theorem utf8_trimEnd (h : Utf8 s) : Utf8 (trimEnd whiteSpace s) := by
  refine reaches_invariant (P := fun t => Utf8 t.reverse) (fun s s' hs hstrip => ?_)
    (reaches_exec _ s.reverse.length s.reverse) (by rw [reverse_reverse]; exact h)
  obtain ⟨w, hw, rfl⟩ := stripStart_eq_some hstrip
  obtain ⟨v, hv, rfl⟩ := mem_map.mp hw
  obtain ⟨b, rest, rfl, -, hfirst⟩ := whiteSpace_eq hv
  rw [reverse_append, reverse_reverse] at hs
  refine (hs.split fun c hc => ?_).1
  rw [← Option.some.inj hc]
  exact hfirst

theorem utf8_trim (h : Utf8 s) : Utf8 (trim s) := utf8_trimEnd (utf8_trimStart h)

/-! ## Numbers -/

/-- A text cut behind its first ASCII bytes. -/
theorem splitAt_span (h : Utf8 s) (hp : ∀ b, p b = true → b < 0x80#8) :
    splitAt s (s.takeWhile p).length = pure (s.takeWhile p, s.dropWhile p) ∧ Utf8 (s.dropWhile p) := by
  have whole : s.takeWhile p ++ s.dropWhile p = s := takeWhile_append_dropWhile
  have htail : Utf8 (s.dropWhile p) := by
    rw [← whole] at h
    exact h.drop_ascii fun b hb => hp b (mem_takeWhile_imp hb)
  have head := strSlice_head (x := s.takeWhile p) htail
  have tail := strSlice_tail (x := s.takeWhile p) htail
  rw [whole] at head tail
  rw [splitAt, head, tail]
  exact ⟨rfl, htail⟩

theorem lt_of_le_byte (hc : c.toNat < 128) (h : b ≤ byte c) : b < 0x80#8 :=
  BitVec.lt_def.mpr (Nat.lt_of_le_of_lt (BitVec.le_def.mp h) (BitVec.lt_def.mp (byte_lt hc)))

/-- A byte between two characters of which the greater one is ASCII. -/
theorem lt_of_between {lo : U8} (hc : c.toNat < 128) (h : (decide (lo ≤ b) && decide (b ≤ byte c)) = true) :
    b < 0x80#8 := by
  rw [Bool.and_eq_true, decide_eq_true_eq, decide_eq_true_eq] at h
  exact lt_of_le_byte hc h.2

theorem isDigit_lt (h : isDigit b = true) : b < 0x80#8 := lt_of_between (by decide) h

theorem isAlphanumeric_lt (h : isAlphanumeric b = true) : b < 0x80#8 := by
  rw [isAlphanumeric, Bool.or_eq_true, Bool.or_eq_true] at h
  rcases h with (h | h) | h
  · exact isDigit_lt h
  · exact lt_of_between (by decide) h
  · exact lt_of_between (by decide) h

/-- Octal digits can be cut anywhere. -/
theorem strSlice_octal (h : 1 < s.length ∧ s.head? = some (byte '0') ∧ s.all isOctal = true) :
    strSlice s 1 s.length = pure (s.drop 1) := by
  obtain ⟨hlen, -, hall⟩ := h
  match s with
  | a :: b :: rest =>
    have hb : isContinuation b = false :=
      Utf8.isContinuation_ascii (lt_of_between (by decide) (all_eq_true.mp hall b (by simp)))
    have cut : isCharBoundary (a :: b :: rest) 1 := by
      simp [isCharBoundary, hb]
    rw [strSlice_eq (Nat.le_of_lt hlen) (Nat.le_refl _) cut (isCharBoundary_length _)]
    exact congrArg pure take_length

theorem parseInt_eq (s : List U8) : parseInt s = of (Fuzz.parseInt s) := by
  unfold parseInt Fuzz.parseInt
  dsimp only
  generalize trim s = s
  split
  · rfl
  · cases (s.dropPrefix? (ascii ['0', 'x'])).or (s.dropPrefix? (ascii ['0', 'X'])) with
    | some h => rfl
    | none =>
      cases s.dropPrefix? (ascii ['-']) with
      | some neg => rfl
      | none =>
        dsimp only
        split
        · rw [strSlice_octal ‹_›, pure_bind]
        · rfl

theorem refPart_eq (c : Char) {tail : List U8} (hc : c.toNat < 128) (h : Utf8 tail) :
    refPart c tail = pure (Fuzz.refPart c tail) ∧ Utf8 (Fuzz.refPart c tail).2 := by
  unfold refPart Fuzz.refPart
  cases ht : tail.dropPrefix? (ascii [c]) with
  | some t =>
    have hrest : Utf8 t := by
      rw [eq_append_of_dropPrefix? ht] at h
      exact h.tail (byte_lt hc)
    obtain ⟨cut, hbehind⟩ := splitAt_span hrest fun _ => isAlphanumeric_lt
    refine ⟨?_, hbehind⟩
    simp [cut, parseInt_eq]
  | none => exact ⟨rfl, h⟩

theorem parseResRef_eq (h : Utf8 w) : parseResRef w = of (Fuzz.parseResRef w) := by
  unfold parseResRef Fuzz.parseResRef
  cases ht : w.dropPrefix? (ascii ['r']) with
  | none => rfl
  | some rest =>
    have hrest : Utf8 rest := by
      rw [eq_append_of_dropPrefix? ht] at h
      exact h.tail (byte_lt (by decide))
    obtain ⟨cut, hnum⟩ := splitAt_span hrest fun _ => isDigit_lt
    obtain ⟨div, hdiv⟩ := refPart_eq '/' (by decide) hnum
    obtain ⟨add, -⟩ := refPart_eq '+' (by decide) hdiv
    simp only [of_some, pure_bind, cut, div, add, Option.bind_eq_bind, Option.bind_some]
    split
    · rfl
    · cases fromStrRadix 10 (rest.takeWhile isDigit) with
      | none => rfl
      | some idx =>
        split
        · rfl
        · rfl

/-! ## Literals -/

/-- The end of a text, by its length. -/
theorem length_of_drop {b rest : List U8} {i : Nat} (h : b.drop i = rest) (hi : i ≤ b.length) :
    b.length = i + rest.length := by
  rw [← h, length_drop]
  omega

theorem unescapeStep_eq (b out : List U8) (i : Nat) :
    unescapeStep b (out, i) = pure (.inr (out ++ Fuzz.unescape (b.drop i))) ∨
      ∃ st', unescapeStep b (out, i) = pure (.inl st') ∧
        st'.1 ++ Fuzz.unescape (b.drop st'.2) = out ++ Fuzz.unescape (b.drop i) ∧ i < st'.2 ∧ i < b.length := by
  unfold unescapeStep
  match h : b.drop i with
  | [] =>
    rw [if_neg (Nat.not_lt.mpr (drop_eq_nil_iff.mp h)), Fuzz.unescape, append_nil]
    exact .inl rfl
  | [c] =>
    have hlt := lt_of_drop h
    have hlen := length_of_drop h (Nat.le_of_lt hlt)
    have last : ¬ (c = byte '\\' ∧ i + 1 < b.length) := fun h => by
      rw [hlen] at h
      exact Nat.lt_irrefl _ h.2
    rw [if_pos hlt, get_of_drop h, pure_bind, if_neg last]
    refine .inr ⟨_, rfl, ?_, Nat.lt_succ_self i, hlt⟩
    rw [drop_succ_of_drop h, Fuzz.unescape, append_nil, Fuzz.unescape]
  | c :: d :: rest =>
    have hlt := lt_of_drop h
    have next := drop_succ_of_drop h
    have hlt' := lt_of_drop next
    have behind : b.drop (i + 2) = rest := drop_succ_of_drop next
    rw [if_pos hlt, get_of_drop h, pure_bind, Fuzz.unescape.eq_def (c :: d :: rest)]
    dsimp only
    by_cases hc : c = byte '\\'
    · rw [if_pos ⟨hc, hlt'⟩, if_pos hc, get_of_drop next, pure_bind]
      by_cases hd : d = byte 'x'
      · rw [if_pos hd]
        match rest with
        | hi :: lo :: rest' =>
          have third : b.drop (i + 3) = lo :: rest' := drop_succ_of_drop behind
          rw [if_pos ⟨hd, lt_of_drop third⟩, get_of_drop behind, pure_bind, get_of_drop third, pure_bind]
          dsimp only
          cases hexEscaped hi lo with
          | some v =>
            refine .inr ⟨_, rfl, ?_, by dsimp only; omega, hlt⟩
            rw [drop_succ_of_drop third, append_assoc, singleton_append]
          | none =>
            refine .inr ⟨_, rfl, ?_, by dsimp only; omega, hlt⟩
            rw [behind, hd, append_assoc, singleton_append]
        | [] | [_] =>
          have hlen := length_of_drop behind hlt'
          have few : ¬ (d = byte 'x' ∧ i + 3 < b.length) := by
            simp only [length_cons, length_nil] at hlen
            omega
          rw [if_neg few]
          refine .inr ⟨_, rfl, ?_, by dsimp only; omega, hlt⟩
          rw [behind, hd, append_assoc]
          rfl
      · rw [if_neg (fun h => hd h.1), if_neg hd]
        refine .inr ⟨_, rfl, ?_, by dsimp only; omega, hlt⟩
        rw [behind, append_assoc, singleton_append]
    · rw [if_neg (fun h => hc h.1), if_neg hc]
      refine .inr ⟨_, rfl, ?_, Nat.lt_succ_self i, hlt⟩
      rw [next, append_assoc, singleton_append]

theorem unescape_eq (s : List U8) : unescape s = pure (Fuzz.unescape s) := by
  refine repeatFor_eq (fun st : List U8 × Nat => st.1 ++ Fuzz.unescape (s.drop st.2)) (fun st => s.length - st.2) (fun st => ?_)
    (Nat.lt_succ_of_le (Nat.sub_le _ _))
  rcases unescapeStep_eq s st.1 st.2 with leaves | ⟨st', goes, same, hlt, hlen⟩
  · exact .inl leaves
  · exact .inr ⟨st', goes, same, by omega⟩

theorem isHexDigit_lt (h : isHexDigit b = true) : b < 0x80#8 := by
  by_cases hdigit : byte '0' ≤ b ∧ b ≤ byte '9'
  · exact lt_of_le_byte (by decide) hdigit.2
  · by_cases hlower : byte 'a' ≤ b ∧ b ≤ byte 'z'
    · exact lt_of_le_byte (by decide) hlower.2
    · by_cases hupper : byte 'A' ≤ b ∧ b ≤ byte 'Z'
      · exact lt_of_le_byte (by decide) hupper.2
      · rw [isHexDigit, toDigit, if_neg hdigit, if_neg hlower, if_neg hupper] at h
        cases h

/-- Hex digits can be cut anywhere. -/
theorem isCharBoundary_hex (hall : s.all isHexDigit = true) {i : Nat} (hi : i ≤ s.length) : isCharBoundary s i := by
  rcases Nat.lt_or_eq_of_le hi with hlt | rfl
  · have hget : s[i]? = some s[i] := getElem?_eq_getElem hlt
    have hhex := all_eq_true.mp hall s[i] (getElem_mem hlt)
    simp [isCharBoundary, hget, Utf8.isContinuation_ascii (isHexDigit_lt hhex)]
  · exact isCharBoundary_length s

theorem hexPair_foldlM (hall : s.all isHexDigit = true) (n i : Nat) (out : List U8)
    (hn : i + 2 * n = s.length) :
    (List.range' i n 2).foldlM (hexPair s) out = pure (out ++ Fuzz.hexPairs (s.drop i)) := by
  induction n generalizing i out with
  | zero =>
    rw [drop_of_length_le (by omega), Fuzz.hexPairs, append_nil]
    · rfl
    · nofun
  | succ n ih =>
    have hcut : strSlice s i (i + 2) = pure ((s.drop i).take (i + 2 - i)) :=
      strSlice_eq (by omega) (by omega) (isCharBoundary_hex hall (by omega)) (isCharBoundary_hex hall (by omega))
    rw [range'_succ, foldlM_cons, hexPair, hcut, pure_bind, pure_bind, ih (i + 2) _ (by omega)]
    match h : s.drop i with
    | hi :: lo :: rest =>
      have behind : s.drop (i + 2) = rest := drop_succ_of_drop (drop_succ_of_drop h)
      rw [behind]
      simp [Fuzz.hexPairs]
    | [] | [_] =>
      have := length_of_drop h (by omega)
      simp only [length_cons, length_nil] at this
      omega

theorem decodeHexBytes_eq (s : List U8) : decodeHexBytes s = pure (Fuzz.decodeHexBytes s) := by
  unfold decodeHexBytes Fuzz.decodeHexBytes
  cases s.dropPrefix? (ascii ['$']) with
  | some b64 =>
    have hmax : maxImage < 2 ^ 63 := by decide
    simp [decodeCompressedImage_eq hmax]
  | none =>
    dsimp only
    split
    next hex =>
      have hn : 0 + 2 * (s.length / 2) = s.length := by omega
      rw [hexPair_foldlM hex.2.2 _ 0 [] hn]
      rfl
    next => exact unescape_eq s

/-! ## Positions -/

/-- The position `i` in `s` is in front of the characters `rest`. -/
structure At (s : List U8) (i : Nat) (rest : List U8) : Prop where
  le : i ≤ s.length
  drop_eq : s.drop i = rest
  utf8 : Utf8 rest

theorem isSep_lt (h : isSep b = true) : b < 0x80#8 := by
  simp only [isSep, Bool.or_eq_true, beq_iff_eq] at h
  rcases h with ((((((rfl | rfl) | rfl) | rfl) | rfl) | rfl) | rfl) | rfl <;> decide

/-- The next byte is a separator, or there is none. -/
def AtSep (rest : List U8) : Prop := ∀ b ∈ rest.head?, isSep b = true

section

variable {x y : List U8}

theorem At.length (h : At s i rest) : s.length = i + rest.length := length_of_drop h.drop_eq h.le

theorem At.skip (h : At s i (x ++ y)) (hy : Utf8 y) : At s (i + x.length) y := by
  refine ⟨?_, ?_, hy⟩
  · have := h.length
    rw [length_append] at this
    omega
  · rw [← drop_drop, h.drop_eq, drop_left]

/-- Past an ASCII byte. -/
theorem At.succ (h : At s i (b :: rest)) (hb : b < 0x80#8) : At s (i + 1) rest :=
  At.skip (x := [b]) h (h.utf8.tail hb)

theorem peek_eq (h : At s i rest) : peek s i = pure (Fuzz.peek rest) := by
  unfold peek Fuzz.peek
  cases rest with
  | nil =>
    have := drop_eq_nil_iff.mp h.drop_eq
    rw [if_neg (Nat.not_lt.mpr this)]
    rfl
  | cons b rest => rw [if_pos (lt_of_drop h.drop_eq), get_of_drop h.drop_eq, headD_cons]

/-- A byte that is looked for is there. -/
theorem eq_cons_of_peek {c : U8} (hc : c ≠ 0#8) (h : Fuzz.peek rest = c) : rest = c :: rest.drop 1 := by
  cases rest with
  | nil => exact absurd h.symm hc
  | cons b rest => rw [← h]; rfl

/-- Past the ASCII byte that was looked for. -/
theorem At.next {c : U8} (h : At s i rest) (hc : c ≠ 0#8) (hlt : c < 0x80#8) (hpeek : Fuzz.peek rest = c) :
    At s (i + 1) (rest.drop 1) := by
  rw [eq_cons_of_peek hc hpeek] at h
  exact h.succ hlt

/-- Past a separator, if there is one. -/
theorem At.pastSep (h : At s i rest) (hsep : AtSep rest) :
    At s (if i < s.length then i + 1 else i) (rest.drop 1) ∧ i ≤ if i < s.length then i + 1 else i := by
  cases rest with
  | nil =>
    rw [if_neg (Nat.not_lt.mpr (drop_eq_nil_iff.mp h.drop_eq))]
    exact ⟨h, Nat.le_refl i⟩
  | cons b rest =>
    rw [if_pos (lt_of_drop h.drop_eq)]
    exact ⟨h.succ (isSep_lt (hsep b rfl)), Nat.le_succ i⟩

/-- Past the character that was looked for. -/
theorem At.past (h : At s i rest) (hc : 0 < c.toNat ∧ c.toNat < 128) (hpeek : Fuzz.peek rest = byte c) :
    At s (i + 1) (rest.drop 1) := by
  refine h.next (fun hzero => ?_) (byte_lt hc.2) hpeek
  have := congrArg BitVec.toNat hzero
  rw [byte, BitVec.toNat_ofNat, BitVec.toNat_ofNat] at this
  omega

theorem skipWhile_eq (p : U8 → Bool) (i : Nat) : skipWhile s p i = pure (i + ((s.drop i).takeWhile p).length) := by
  refine repeatFor_eq (fun i : Nat => i + ((s.drop i).takeWhile p).length) (fun i => s.length - i) (fun i => ?_)
    (Nat.lt_succ_of_le (Nat.sub_le _ _))
  unfold skipStep
  cases h : s.drop i with
  | nil =>
    rw [if_neg (Nat.not_lt.mpr (drop_eq_nil_iff.mp h))]
    exact .inl rfl
  | cons c rest =>
    have hlt := lt_of_drop h
    rw [if_pos hlt, get_of_drop h, pure_bind, takeWhile_cons]
    split
    · refine .inr ⟨i + 1, rfl, ?_, by omega⟩
      rw [drop_succ_of_drop h, length_cons]
      omega
    · exact .inl rfl

/-- A loop that goes past bytes gets to a place again, and on where the first byte is one of them. -/
theorem skipWhile_at (h : At s i rest) (hrest : Utf8 (rest.dropWhile p)) :
    Answers (skipWhile s p i) fun j => At s j (rest.dropWhile p) ∧ i ≤ j ∧ (j = i → rest.dropWhile p = rest) := by
  refine ⟨_, skipWhile_eq p i, ?_⟩
  rw [h.drop_eq]
  rw [← takeWhile_append_dropWhile (l := rest)] at h
  refine ⟨h.skip hrest, Nat.le_add_right _ _, fun hj => ?_⟩
  have none : rest.takeWhile p = [] := length_eq_zero_iff.mp (by omega)
  have whole := takeWhile_append_dropWhile (p := p) (l := rest)
  rw [none] at whole
  exact whole

/-- The two spaces of Latin-1 outside of ASCII are continuation bytes, which begin no character. -/
theorem isLatinSpace_lt (hb : isContinuation b = false) (h : isLatinSpace b = true) : b < 0x80#8 := by
  simp only [isLatinSpace, Bool.or_eq_true, Bool.and_eq_true, decide_eq_true_eq, beq_iff_eq] at h
  rcases h with ((h | rfl) | rfl) | rfl
  · exact BitVec.lt_def.mpr (Nat.lt_of_le_of_lt (BitVec.le_def.mp h.2) (by decide))
  · decide
  · cases hb
  · cases hb

theorem utf8_eatWs {rest : List U8} (h : Utf8 rest) : Utf8 (Fuzz.eatWs rest) := by
  induction rest with
  | nil => exact h
  | cons b rest ih =>
    rw [Fuzz.eatWs, dropWhile_cons]
    split
    next hb => exact ih (h.tail (isLatinSpace_lt h.first_not hb))
    next => exact h

theorem eatWs_at (h : At s i rest) :
    Answers (eatWs s i) fun j => At s j (Fuzz.eatWs rest) ∧ i ≤ j ∧ (j = i → Fuzz.eatWs rest = rest) :=
  skipWhile_at h (utf8_eatWs h.utf8)

theorem utf8_toSep (h : Utf8 rest) : Utf8 (rest.takeWhile (!isSep ·)) ∧ Utf8 (Fuzz.toSep rest) :=
  h.span fun b hb => Utf8.isContinuation_ascii (isSep_lt (by simpa using hb))

theorem atSep_toSep (rest : List U8) : AtSep (Fuzz.toSep rest) := by
  intro b hb
  have := head?_dropWhile_not (!isSep ·) rest
  rw [Fuzz.toSep] at hb
  rw [Option.mem_def.mp hb] at this
  simpa using this

theorem toSep_at (h : At s i rest) :
    Answers (toSep s i) fun j => At s j (Fuzz.toSep rest) ∧ i ≤ j ∧ (j = i → Fuzz.toSep rest = rest) :=
  skipWhile_at h (utf8_toSep h.utf8).2

/-- A literal of the source in front of the position, or not. -/
theorem startsWith_at (cs : List Char) (hcs : cs.all (·.toNat < 128) = true) (h : At s i rest) :
    (∃ rest', rest.dropPrefix? (ascii cs) = some rest' ∧ startsWith s (ascii cs) i = pure true ∧
      At s (i + (ascii cs).length) rest') ∨
      rest.dropPrefix? (ascii cs) = none ∧ startsWith s (ascii cs) i = pure false := by
  have hw : ∀ b ∈ ascii cs, b < 0x80#8 := fun b hb => by
    obtain ⟨c, hc, rfl⟩ := mem_map.mp hb
    exact byte_lt (of_decide_eq_true (all_eq_true.mp hcs c hc))
  generalize ascii cs = w at hw ⊢
  have hslice : startsWith s w i = pure (w.isPrefixOf rest) := by
    rw [startsWith, Nat.min_eq_left h.le, slice_eq h.le (Nat.le_refl _), pure_bind, ← length_drop, take_length,
      h.drop_eq]
  rw [hslice]
  cases hdrop : rest.dropPrefix? w with
  | some rest' =>
    have whole := eq_append_of_dropPrefix? hdrop
    refine .inl ⟨rest', rfl, ?_, ?_⟩
    · rw [whole, List.isPrefixOf_iff_prefix.mpr (List.prefix_append w rest')]
    · rw [whole] at h
      exact h.skip (h.utf8.drop_ascii hw)
  | none =>
    refine .inr ⟨rfl, congrArg pure ?_⟩
    rw [← Bool.not_eq_true, List.isPrefixOf_iff_prefix]
    rintro ⟨rest', rfl⟩
    rw [dropPrefix?_append] at hdrop
    cases hdrop

/-- What `until` finds stands in front of `close`, or in front of the end. -/
theorem until_eq (close : U8) (rest : List U8) :
    rest = (Fuzz.until' close rest).1 ++ close :: (Fuzz.until' close rest).2 ∨
      rest = (Fuzz.until' close rest).1 ∧ (Fuzz.until' close rest).2 = [] := by
  fun_induction Fuzz.until' close rest with
  | case1 | case3 b hb => exact .inr ⟨rfl, rfl⟩
  | case2 | case4 c rest => exact .inl rfl
  | case5 c rest hb ih =>
    rcases ih with h | ⟨h, hend⟩
    · exact .inl (congrArg (byte '\\' :: c :: ·) h)
    · exact .inr ⟨congrArg (byte '\\' :: c :: ·) h, hend⟩
  | case6 b c rest hb hb' ih =>
    rcases ih with h | ⟨h, hend⟩
    · exact .inl (congrArg (b :: ·) h)
    · exact .inr ⟨congrArg (b :: ·) h, hend⟩

theorem utf8_until (hclose : close < 0x80#8) (h : Utf8 rest) :
    Utf8 (Fuzz.until' close rest).1 ∧ Utf8 (Fuzz.until' close rest).2 := by
  rcases until_eq close rest with heq | ⟨heq, hend⟩
  · rw [heq] at h
    exact h.around hclose
  · rw [hend, ← heq]
    exact ⟨h, Utf8.nil⟩

theorem untilLoop_eq (close : U8) (i : Nat) :
    Checked.repeatFor (untilStep s close) (s.length + 1) i = pure (i + (Fuzz.until' close (s.drop i)).1.length) := by
  refine repeatFor_eq (fun i : Nat => i + (Fuzz.until' close (s.drop i)).1.length) (fun i => s.length - i) (fun i => ?_)
    (Nat.lt_succ_of_le (Nat.sub_le _ _))
  unfold untilStep
  match h : s.drop i with
  | [] =>
    rw [if_neg (Nat.not_lt.mpr (drop_eq_nil_iff.mp h))]
    exact .inl rfl
  | [c] =>
    have hlt := lt_of_drop h
    have hlen := length_of_drop h (Nat.le_of_lt hlt)
    have last : ¬ (c = byte '\\' ∧ i + 1 < s.length) := fun h => by
      rw [hlen] at h
      exact Nat.lt_irrefl _ h.2
    rw [if_pos hlt, get_of_drop h, pure_bind, Fuzz.until']
    split
    · exact .inl rfl
    · refine .inr ⟨i + 1, rfl, ?_, by omega⟩
      rw [drop_succ_of_drop h]
      rfl
  | c :: d :: rest =>
    have hlt := lt_of_drop h
    have next := drop_succ_of_drop h
    rw [if_pos hlt, get_of_drop h, pure_bind, Fuzz.until']
    split
    · exact .inl rfl
    · split
      next both =>
        refine .inr ⟨i + 2, rfl, ?_, by omega⟩
        rw [show s.drop (i + 2) = rest from drop_succ_of_drop next, if_pos both.1]
        exact Nat.add_assoc i 2 _ |>.trans (congrArg (i + ·) (Nat.add_comm 2 _))
      next other =>
        have plain : c ≠ byte '\\' := fun hc => other ⟨hc, lt_of_drop next⟩
        refine .inr ⟨i + 1, rfl, ?_, by omega⟩
        rw [next, if_neg plain]
        exact Nat.add_assoc i 1 _ |>.trans (congrArg (i + ·) (Nat.add_comm 1 _))

theorem optSizeSuffix_at (h : At s i rest) :
    Answers (optSizeSuffix s i) fun j => At s j (Fuzz.optSizeSuffix rest) ∧ i ≤ j := by
  unfold optSizeSuffix Fuzz.optSizeSuffix
  rw [peek_eq h, pure_bind]
  split
  next hslash =>
    have hnext := h.past (by decide) hslash
    exact (toSep_at hnext).weaken fun j ⟨hj, hle, _⟩ => ⟨hj, by omega⟩
  next => exact .of_pure ⟨h, Nat.le_refl i⟩

theorem skipAny_at (h : At s i rest) :
    Answers (skipAny s i) fun j => At s j ((rest.dropPrefix? (ascii ['A', 'N', 'Y', '='])).getD rest) ∧ i ≤ j := by
  unfold skipAny
  rcases startsWith_at ['A', 'N', 'Y', '='] (by decide) h with ⟨rest', hdrop, hpre, hat⟩ | ⟨hdrop, hpre⟩
  · rw [hpre, hdrop]
    exact .of_pure ⟨hat, Nat.le_add_right i 4⟩
  · rw [hpre, hdrop]
    exact .of_pure ⟨h, Nat.le_refl i⟩

theorem slice_at {j : Nat} (h : At s i (x ++ y)) (hj : At s j y) : slice s i j = pure x := by
  have hi := h.length
  rw [length_append] at hi
  have hlen := hj.length
  rw [slice_eq (by omega) hj.le, h.drop_eq, show j - i = x.length by omega, take_left]

end

/-! ## Arguments -/

/-- From `i` on, `x` reads the value of `r`, and gets to what `r` leaves. -/
def Parses {α : Type} (s : List U8) (i : Nat) (x : Checked (α × Nat)) (r : α × List U8) : Prop :=
  Answers x fun p => p.1 = r.1 ∧ i ≤ p.2 ∧ At s p.2 r.2

/-- As `Parses`, for an argument at `rest`: it is not left where it begins, unless that is a separator. -/
def Takes (s : List U8) (i : Nat) (rest : List U8) (x : Checked (Arg × Nat)) (r : Arg × List U8) : Prop :=
  Answers x fun p => p.1 = r.1 ∧ At s p.2 r.2 ∧ i ≤ p.2 ∧ (p.2 = i → AtSep rest)

section

variable {α β : Type} {j : Nat} {x : Checked (α × Nat)} {r : α × List U8}

theorem Parses.of_at {a : α} (h : At s j rest) (hle : i ≤ j) : Parses s i (pure (a, j)) (a, rest) :=
  .of_pure ⟨rfl, hle, h⟩

theorem Parses.bind {x : Checked (β × Nat)} {r : β × List U8} {r' : α × List U8} {k : β × Nat → Checked (α × Nat)}
    (h : Parses s i x r) (hk : ∀ j', i ≤ j' → At s j' r.2 → Parses s j (k (r.1, j')) r') : Parses s j (x >>= k) r' := by
  refine Answers.bind h fun p hp => ?_
  obtain ⟨a, j'⟩ := p
  obtain ⟨rfl, hle, hat⟩ := hp
  exact hk j' hle hat

theorem Parses.map {f : β → α} {x : Checked (β × Nat)} {r : β × List U8} (h : Parses s i x r) :
    Parses s i (x >>= fun p => pure (f p.1, p.2)) (r.map f id) :=
  h.bind fun _ hle hat => .of_at hat hle

theorem Parses.weaken (h : Parses s i x r) (hle : j ≤ i) : Parses s j x r :=
  Answers.weaken h fun _ ⟨hvalue, hi, hat⟩ => ⟨hvalue, Nat.le_trans hle hi, hat⟩

/-- What gets on takes something. -/
theorem Parses.takes {x : Checked (Arg × Nat)} {r : Arg × List U8} (h : Parses s (i + 1) x r) : Takes s i rest x r :=
  Answers.weaken h fun _ ⟨hvalue, hi, hat⟩ => ⟨hvalue, hat, by omega, fun hj => by omega⟩

theorem Takes.parses {x : Checked (Arg × Nat)} {r : Arg × List U8} (h : Takes s i rest x r) : Parses s i x r :=
  Answers.weaken h fun _ ⟨hvalue, hat, hi, _⟩ => ⟨hvalue, hi, hat⟩

end

section

variable {arg : Nat → Checked (Arg × Nat)} (harg : ∀ {i rest}, At s i rest → Takes s i rest (arg i) (arg' rest))
include harg

/-- A round of the loop in `list` leaves it, or goes on with one more argument, past where it began. -/
theorem listStep_at (hclose : close < 0x80#8) (out : List Arg) (h : At s i rest) :
    (∃ args j, listStep s arg close (out, i) = pure (.inr (out ++ args, j)) ∧ ∀ m,
      (listLoop arg' close (m + 1) rest).1 = args ∧
        (close ≠ 0#8 → i ≤ j ∧ At s j (listLoop arg' close (m + 1) rest).2)) ∨
    ∃ a j rest', listStep s arg close (out, i) = pure (.inl (out ++ [a], j)) ∧ i < j ∧ At s j rest' ∧ ∀ m,
      listLoop arg' close (m + 1) rest = (listLoop arg' close m rest').map (a :: ·) id := by
  obtain ⟨before, hws, hbefore, hle, -⟩ := eatWs_at h
  have goes {a : Arg} {j : Nat} (hj : i < j) : goOn i (out ++ [a]) j = pure (.inl (out ++ [a], j)) := if_pos hj
  simp only [listStep, hws, pure_bind, listLoop]
  by_cases hend : Fuzz.eatWs rest = []
  · have hlen := hbefore.drop_eq
    rw [hend] at hlen
    rw [if_pos (drop_eq_nil_iff.mp hlen)]
    refine .inl ⟨[], before, by rw [append_nil], fun m => ?_⟩
    rw [if_pos hend]
    exact ⟨rfl, fun _ => ⟨hle, hbefore⟩⟩
  have inside : before < s.length := by
    have := hbefore.length
    have := length_pos_of_ne_nil hend
    omega
  rw [if_neg (Nat.not_le.mpr inside), peek_eq hbefore, pure_bind]
  simp only [if_neg hend]
  by_cases hfirst : Fuzz.peek (Fuzz.eatWs rest) = close
  · rw [if_pos hfirst]
    refine .inl ⟨[], before + 1, by rw [append_nil], fun m => ?_⟩
    rw [if_pos hfirst]
    exact ⟨rfl, fun hc => ⟨by omega, hbefore.next hc hclose hfirst⟩⟩
  obtain ⟨⟨a, i₁⟩, hx, ha, hat, hle₁, hstay⟩ := harg hbefore
  obtain ⟨i₂, hws₂, hat₂, hle₂, -⟩ := eatWs_at hat
  dsimp only at ha hat hle₁ hstay hws₂ hle₂
  simp only [if_neg hfirst, hx, pure_bind, hws₂, peek_eq hat₂, ha]
  by_cases hcomma : Fuzz.peek (Fuzz.eatWs (arg' (Fuzz.eatWs rest)).2) = byte ','
  · rw [if_pos hcomma, goes (by omega)]
    refine .inr ⟨_, _, _, rfl, by omega, hat₂.past (by decide) hcomma, fun m => ?_⟩
    rw [if_pos hcomma]
  by_cases hlast : Fuzz.peek (Fuzz.eatWs (arg' (Fuzz.eatWs rest)).2) = close
  · rw [if_neg hcomma, if_pos hlast]
    refine .inl ⟨_, _, rfl, fun m => ?_⟩
    rw [if_neg hcomma, if_pos hlast]
    exact ⟨rfl, fun hc => ⟨by omega, hat₂.next hc hclose hlast⟩⟩
  simp only [if_neg hcomma, if_neg hlast]
  have hlen := hbefore.length
  have hlen₂ := hat₂.length
  by_cases hsame : i₂ = before
  · -- nothing was taken: a separator that does not end an argument here, and is passed over
    have here : Fuzz.eatWs (arg' (Fuzz.eatWs rest)).2 = Fuzz.eatWs rest := by
      rw [← hat₂.drop_eq, hsame, hbefore.drop_eq]
    have hpast := (hbefore.pastSep (hstay (by omega))).1
    rw [if_pos inside] at hpast
    rw [if_pos hsame, hsame, goes (by omega)]
    refine .inr ⟨_, _, _, rfl, by omega, hpast, fun m => ?_⟩
    rw [here, if_pos rfl]
  · rw [if_neg hsame, goes (by omega)]
    refine .inr ⟨_, _, _, rfl, by omega, hat₂, fun m => ?_⟩
    rw [if_neg (by omega)]

/-- The loop of `list`. Where it ends with the text, it may end behind it. -/
theorem listLoop_at (hclose : close < 0x80#8) {out : List Arg} {n m : Nat} (h : At s i rest)
    (hn : rest.length < n) (hm : rest.length < m) :
    Answers (Checked.repeatFor (listStep s arg close) n (out, i)) fun p =>
      p.1 = out ++ (listLoop arg' close m rest).1 ∧
        (close ≠ 0#8 → i ≤ p.2 ∧ At s p.2 (listLoop arg' close m rest).2) := by
  induction n generalizing out i rest m with
  | zero => exact absurd hn (Nat.not_lt_zero _)
  | succ n ih =>
    obtain ⟨m, rfl⟩ : ∃ m', m = m' + 1 := ⟨m - 1, by omega⟩
    rw [Checked.repeatFor]
    rcases listStep_at harg hclose out h with ⟨args, j, hstep, hleaves⟩ | ⟨a, j, rest', hstep, hlt, hat, hgoes⟩
    · obtain ⟨hargs, hat⟩ := hleaves m
      rw [hstep, hargs]
      exact .of_pure ⟨rfl, hat⟩
    · have hlen := h.length
      have hlen' := hat.length
      rw [hstep, hgoes]
      have hm' : rest'.length < m := by omega
      refine (ih hat (by omega) hm').weaken fun p hp => ⟨?_, fun hc => ?_⟩
      · rw [hp.1, append_assoc]
        rfl
      · obtain ⟨hle, hend⟩ := hp.2 hc
        exact ⟨by omega, hend⟩

theorem parses_list (hclose : close < 0x80#8) (hzero : close ≠ 0#8) (h : At s i rest) :
    Parses s i (list s arg close i) (Fuzz.list arg' close rest) := by
  have hlen := h.length
  exact (listLoop_at harg hclose h (by omega) (Nat.lt_succ_self _)).weaken fun p ⟨hp, hat⟩ =>
    ⟨hp, (hat hzero).1, (hat hzero).2⟩

theorem parses_union (h : At s (i + 1) (rest.drop 1)) : Parses s (i + 1) (union s arg i) (Fuzz.union arg' rest) := by
  unfold union Fuzz.union
  have stops : ∀ b : U8, (decide (b ≠ byte '=') && !isSep b) = false → isContinuation b = false := fun b hb => by
    rw [Bool.and_eq_false_iff, decide_eq_false_iff_not, Bool.not_eq_false', Decidable.not_not] at hb
    rcases hb with rfl | hb
    · exact Utf8.isContinuation_ascii (byte_lt (by decide))
    · exact Utf8.isContinuation_ascii (isSep_lt hb)
  refine (skipWhile_at h (h.utf8.span stops).2).bind fun j₁ ⟨hat₁, hle₁, _⟩ => ?_
  refine (eatWs_at hat₁).bind fun j₂ ⟨hat₂, hle₂, _⟩ => ?_
  rw [peek_eq hat₂, pure_bind]
  dsimp only
  split
  next heq => exact (harg (hat₂.past (by decide) heq)).parses.map.weaken (by omega)
  next => exact Parses.of_at hat₂ (by omega)

end

section

variable (hlossy : ∀ t, Utf8 t → lossy t = t)
include hlossy

theorem parses_until (hclose : close < 0x80#8) (h : At s i rest) :
    Parses s i (until' lossy s close i) (Fuzz.until' close rest) := by
  have hutf8 := utf8_until hclose h.utf8
  unfold until'
  rw [untilLoop_eq, h.drop_eq, pure_bind]
  rcases until_eq close rest with heq | ⟨heq, hend⟩
  · rw [heq] at h
    have hat : At s _ (close :: _) := h.skip (h.utf8.split fun b hb => by
      rw [← Option.some.inj hb]
      exact Utf8.isContinuation_ascii hclose).2
    rw [Nat.min_eq_left hat.le, slice_at h hat, pure_bind, hlossy _ hutf8.1, if_pos (lt_of_drop hat.drop_eq)]
    exact .of_at (hat.succ hclose) (by omega)
  · have hat : At s (i + (Fuzz.until' close rest).1.length) [] := by
      nth_rewrite 1 [heq, ← append_nil (Fuzz.until' close rest).1] at h
      exact h.skip Utf8.nil
    have hslice := slice_at (by rw [append_nil]; exact h) hat
    have hlen := hat.length
    rw [Nat.min_eq_left hat.le, hslice, pure_bind, hlossy _ h.utf8, if_neg (by rw [hlen]; exact Nat.lt_irrefl _)]
    refine .of_pure ⟨heq, Nat.le_add_right _ _, ?_⟩
    rw [hend]
    exact hat

theorem takes_word (h : At s i rest) : Takes s i rest (word lossy s i) (Fuzz.word rest) := by
  unfold word Fuzz.word
  refine (eatWs_at h).bind fun start ⟨hstart, hle, hsame⟩ => ?_
  refine (toSep_at hstart).bind fun j ⟨hj, hle', hsame'⟩ => ?_
  have stays : j = i → AtSep rest := fun hji => by
    have here := hsame (by omega)
    rw [here] at hsame'
    rw [← hsame' (by omega)]
    exact atSep_toSep rest
  have hpart := utf8_toSep hstart.utf8
  have whole := takeWhile_append_dropWhile (p := (!isSep ·)) (l := Fuzz.eatWs rest)
  rw [← whole] at hstart
  have hw := utf8_trim hpart.1
  dsimp only
  rw [slice_at hstart hj, pure_bind, hlossy _ hpart.1]
  generalize trim ((Fuzz.eatWs rest).takeWhile (!isSep ·)) = w at hw ⊢
  by_cases hnil : w = []
  · rw [if_pos hnil, if_pos hnil]
    obtain ⟨hnext, hle''⟩ := hj.pastSep (atSep_toSep _)
    exact .of_pure ⟨rfl, hnext, by dsimp only; omega, fun hji => stays (by dsimp only at hji; omega)⟩
  · rw [if_neg hnil]
    have done (a : Arg) : Takes s i rest (pure (a, j)) (a, Fuzz.toSep (Fuzz.eatWs rest)) :=
      .of_pure ⟨rfl, hj, Nat.le_trans hle hle', stays⟩
    split
    · exact done _
    · split
      · exact done _
      · rw [parseResRef_eq hw]
        cases Fuzz.parseResRef w with
        | some r => exact done _
        | none =>
          rw [parseInt_eq]
          exact done _

/-- A literal behind its quote. -/
theorem parses_literal {decode : List U8 → Checked (List U8)} {decode' : List U8 → List U8}
    (hclose : close < 0x80#8) (hdecode : ∀ t, decode t = pure (decode' t)) (h : At s (i + 1) rest) :
    Parses s (i + 1) (literal lossy s close decode i)
      ((Fuzz.until' close rest).map (.data ∘ decode') Fuzz.optSizeSuffix) := by
  refine (parses_until hlossy hclose h).bind fun j hle hat => ?_
  dsimp only
  rw [hdecode]
  refine (optSizeSuffix_at hat).bind fun j' ⟨hat', hle'⟩ => ?_
  exact .of_pure ⟨rfl, Nat.le_trans hle hle', hat'⟩

theorem parses_ptrAddr (h : At s i rest) : Parses s i (ptrAddr lossy s i) (Fuzz.ptrAddr rest) := by
  unfold ptrAddr Fuzz.ptrAddr
  rcases startsWith_at ['A', 'U', 'T', 'O'] (by decide) h with ⟨rest', hdrop, hpre, hat⟩ | ⟨hdrop, hpre⟩
  · rw [hpre, hdrop]
    exact .of_at hat (Nat.le_add_right i 4)
  · rw [hpre, hdrop]
    refine (eatWs_at h).bind fun j ⟨hat, hle, _⟩ => ?_
    rw [peek_eq hat, pure_bind]
    dsimp only
    split
    next hopen =>
      have hnext := hat.past (by decide) hopen
      refine (parses_until hlossy (by decide) hnext).bind fun j' hle' hat' => ?_
      rw [parseInt_eq]
      exact .of_at hat' (by omega)
    next => exact Parses.of_at hat hle

section

variable {arg : Nat → Checked (Arg × Nat)} (harg : ∀ {i rest}, At s i rest → Takes s i rest (arg i) (arg' rest))
include harg

theorem parses_ptr (h : At s (i + 1) (rest.drop 1)) :
    Parses s (i + 1) (ptr lossy s arg i) (Fuzz.ptr arg' rest) := by
  unfold ptr Fuzz.ptr
  refine (parses_ptrAddr hlossy h).bind fun j hle hat => ?_
  refine (eatWs_at hat).bind fun j₁ ⟨hat₁, hle₁, _⟩ => ?_
  rw [peek_eq hat₁, pure_bind]
  dsimp only
  split
  next heq =>
    have hnext := hat₁.past (by decide) heq
    refine (eatWs_at hnext).bind fun j₂ ⟨hat₂, hle₂, _⟩ => ?_
    refine (skipAny_at hat₂).bind fun j₃ ⟨hat₃, hle₃⟩ => ?_
    rcases startsWith_at ['n', 'i', 'l'] (by decide) hat₃ with ⟨rest', hdrop, hpre, hat₄⟩ | ⟨hdrop, hpre⟩
    · rw [hpre, hdrop]
      exact Parses.of_at hat₄ (by omega)
    · rw [hpre, hdrop]
      have inner := (harg hat₃).parses.map (f := fun a => Arg.ptr (Fuzz.ptrAddr (rest.drop 1)).1 (some a))
      exact inner.weaken (by omega)
  next => exact Parses.of_at hat₁ (by omega)

theorem takes_argToken (h : At s i rest) : Takes s i rest (argToken lossy s arg i) (Fuzz.argToken arg' rest) := by
  unfold argToken Fuzz.argToken
  rw [peek_eq h, pure_bind]
  split
  next hc => exact (parses_ptr hlossy harg (h.past (by decide) hc)).takes
  next =>
  split
  next hc =>
    exact (parses_list harg (by decide) (by decide) (h.past (by decide) hc)).map.takes
  next =>
  split
  next hc =>
    exact (parses_list harg (by decide) (by decide) (h.past (by decide) hc)).map.takes
  next =>
  split
  next hc => exact (parses_union harg (h.past (by decide) hc)).takes
  next =>
  split
  next hc => exact (parses_literal hlossy (by decide) decodeHexBytes_eq (h.past (by decide) hc)).takes
  next =>
  split
  next hc => exact (parses_literal hlossy (by decide) unescape_eq (h.past (by decide) hc)).takes
  next => exact takes_word hlossy h

theorem takes_argInner (h : At s i rest) : Takes s i rest (argInner lossy s arg i) (Fuzz.argInner arg' rest) := by
  unfold argInner Fuzz.argInner
  rw [peek_eq h, pure_bind]
  split
  next hc =>
    obtain ⟨⟨lbl, j⟩, hx, rfl, hle, hat⟩ := parses_until hlossy (by decide : byte '>' < 0x80#8)
      (h.past (by decide) hc)
    rw [hx, pure_bind]
    dsimp only
    cases (Fuzz.until' (byte '>') (rest.drop 1)).1.dropSuffix? (ascii ['=']) with
    | none => exact takes_argToken hlossy harg h
    | some name =>
      dsimp only
      have inner := (harg hat).parses.weaken hle
      cases labelSlot name with
      | none => exact (Parses.bind inner fun _ hle hat => .of_at hat hle).takes
      | some slot => exact inner.map.takes
  next => exact takes_argToken hlossy harg h

end

omit hlossy in
theorem takes_cutOff (h : At s i rest) : Takes s i rest (cutOff s i) (.nil, Fuzz.toSep rest) := by
  refine (toSep_at h).bind fun j ⟨hat, hle, hsame⟩ => .of_pure ⟨rfl, hat, hle, fun hj => ?_⟩
  rw [← hsame hj]
  exact atSep_toSep rest

omit hlossy in
/-- An argument behind white space. -/
theorem Takes.behindSpace {x : Nat → Checked (Arg × Nat)} (h : At s i rest)
    (hx : ∀ j, At s j (Fuzz.eatWs rest) → Takes s j (Fuzz.eatWs rest) (x j) r) : Takes s i rest (eatWs s i >>= x) r := by
  refine (eatWs_at h).bind fun j ⟨hat, hle, hsame⟩ => ?_
  refine (hx j hat).weaken fun p ⟨hvalue, hat', hle', hstay⟩ => ⟨hvalue, hat', by omega, fun hp => ?_⟩
  rw [← hsame (by omega)]
  exact hstay (by omega)

/-- The levels of `arg` down to `MAX_DEPTH` are enough. -/
theorem takes_arg {levels depth : Nat} (hdepth : depth + levels = maxDepth) (h : At s i rest) :
    Takes s i rest (arg lossy s levels depth i) (Fuzz.arg levels rest) := by
  induction levels generalizing depth i rest with
  | zero =>
    refine Takes.behindSpace h fun j hat => ?_
    rw [if_pos (by omega)]
    exact takes_cutOff hat
  | succ levels ih =>
    refine Takes.behindSpace h fun j hat => ?_
    rw [if_neg (by omega)]
    exact takes_argInner hlossy (fun hat' => ih (by omega) hat') hat

end

end Vock.Fuzz.Machine
