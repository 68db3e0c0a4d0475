import Vock.Laws.Fuzz.Tokens

/-!
# Literals

How a buffer is written, in hex or as a quoted literal with escapes, and that both are read back
(`decodeHexBytes_hexBytes`, `unescape_quoted`).

A line is first searched for a comment and for the parenthesis that closes the call. Both searches
pass over a literal as a whole (`QuoteAware.literal`), whatever is in it, as `until` does when it
comes to the literal (`until'_enclosed`).
-/

namespace Vock.Fuzz

open Library List

/-! ## Literals -/

/-- Text between two quotes `q`: a backslash takes the next byte along, and no other `q` is in it. -/
inductive Enclosed (q : U8) : List U8 → Prop
  | nil : Enclosed q []
  | plain {b t} : b ≠ q → b ≠ byte '\\' → Enclosed q t → Enclosed q (b :: t)
  | pair {c t} : Enclosed q t → Enclosed q (byte '\\' :: c :: t)

variable (d : List U8) {find : U8 → List U8 → Option Nat} {q : U8} {t : List U8} {close : U8}

theorem enclosed_of_plain (h : ∀ b ∈ t, b ≠ q ∧ b ≠ byte '\\') : Enclosed q t := by
  induction t with
  | nil => exact .nil
  | cons b t ih =>
    exact .plain (h b mem_cons_self).1 (h b mem_cons_self).2 (ih fun c hc => h c (mem_cons_of_mem b hc))

theorem until'_close (close : U8) (s : List U8) : until' close (close :: s) = ([], s) := by
  cases s <;> rw [until', if_pos rfl]

theorem until'_plain {b : U8} (hb : b ≠ close) (hb' : b ≠ byte '\\') (s : List U8) :
    until' close (b :: s) = (until' close s).map (b :: ·) id := by
  cases s with
  | nil => simp [until', if_neg hb]
  | cons c s => rw [until', if_neg hb, if_neg hb']

theorem until'_pair (h : byte '\\' ≠ close) (c : U8) (s : List U8) :
    until' close (byte '\\' :: c :: s) = (until' close s).map (byte '\\' :: c :: ·) id := by
  rw [until', if_neg h, if_pos rfl]

/-- `until` stops at the end of an enclosed text. -/
theorem until'_enclosed (hq : byte '\\' ≠ q) (h : Enclosed q t) (rest : List U8) :
    until' q (t ++ q :: rest) = (t, rest) := by
  induction h with
  | nil => exact until'_close q rest
  | plain hb hb' _ ih => rw [cons_append, until'_plain hb hb', ih]; rfl
  | pair _ ih => rw [cons_append, cons_append, until'_pair hq, ih]; rfl

/-- A printable ASCII character. -/
def isPrintable (b : U8) : Bool := 0x20#8 ≤ b && b ≤ 0x7e#8

/-- The control characters that have a letter. -/
def controls : List (U8 × U8) :=
  [(byte 'n', 0x0a#8), (byte 't', 0x09#8), (byte 'r', 0x0d#8), (byte 'a', 0x07#8), (byte 'b', 0x08#8), (byte 'f', 0x0c#8),
    (byte 'v', 0x0b#8)]

/-- What a character is written for behind a backslash: the control character of a letter, or itself. -/
def standsFor (c : U8) : U8 := (controls.lookup c).getD c

/-- A hex digit, in either case. -/
def hexDigit (upper : Bool) (n : Fin 16) : U8 :=
  if n.val < 10 then byte '0' + BitVec.ofNat 8 n else (if upper then byte 'A' else byte 'a') + BitVec.ofNat 8 (n - 10)

/-- A buffer as a quoted literal: a printable character other than the quote and the backslash as it
is, any byte by an escape. -/
inductive Quoted : List U8 → List U8 → Prop
  | nil : Quoted [] []
  | raw {b d t} : isPrintable b = true → b ≠ byte '\'' → b ≠ byte '\\' → Quoted d t → Quoted (b :: d) (b :: t)
  | escape {c d t} : isPrintable c = true → c ≠ byte 'x' → Quoted d t →
      Quoted (standsFor c :: d) (byte '\\' :: c :: t)
  | hex {d t : List U8} (m n : Fin 16) (u v : Bool) : Quoted d t →
      Quoted (BitVec.ofNat 8 (m * 16 + n) :: d) (byte '\\' :: byte 'x' :: hexDigit u m :: hexDigit v n :: t)

theorem escaped_eq : ∀ c : U8, escaped c = standsFor c := by decide +kernel

theorem toDigit_hexDigit : ∀ (u : Bool) (n : Fin 16), toDigit 16 (hexDigit u n) = some n.val := by decide +kernel

theorem unescape_raw {b : U8} (hb : b ≠ byte '\\') (s : List U8) : unescape (b :: s) = b :: unescape s := by
  rcases s with _ | ⟨c, _ | ⟨hi, _ | ⟨lo, s⟩⟩⟩ <;> simp only [unescape, if_neg hb]

theorem unescape_escape {c : U8} (hc : c ≠ byte 'x') (s : List U8) :
    unescape (byte '\\' :: c :: s) = escaped c :: unescape s := by
  rcases s with _ | ⟨hi, _ | ⟨lo, s⟩⟩ <;> simp only [unescape, if_true, if_neg hc]

theorem unescape_hex (m n : Fin 16) (u v : Bool) (s : List U8) :
    unescape (byte '\\' :: byte 'x' :: hexDigit u m :: hexDigit v n :: s) = BitVec.ofNat 8 (m * 16 + n) :: unescape s := by
  have hv : hexEscaped (hexDigit u m) (hexDigit v n) = some (BitVec.ofNat 8 (m * 16 + n)) := by
    simp only [hexEscaped, toDigit_hexDigit]
  simp [unescape, hv]

theorem unescape_quoted {d : List U8} (h : Quoted d t) : unescape t = d := by
  induction h with
  | nil => rfl
  | raw _ _ hb _ ih => rw [unescape_raw hb, ih]
  | escape _ hc _ ih => rw [unescape_escape hc, escaped_eq, ih]
  | hex m n u v _ ih => rw [unescape_hex, ih]

theorem toDigit_ne (hq : toDigit 16 q = none) {b : U8} {n : Nat} (h : toDigit 16 b = some n) : b ≠ q := by
  rintro rfl
  rw [hq] at h
  cases h

theorem enclosed_quoted {d : List U8} (h : Quoted d t) : Enclosed (byte '\'') t := by
  induction h with
  | nil => exact .nil
  | raw _ hq hb _ ih => exact .plain hq hb ih
  | escape _ _ _ ih => exact .pair ih
  | hex m n u v _ ih =>
    have hm := toDigit_hexDigit u m
    have hn := toDigit_hexDigit v n
    exact .pair (.plain (toDigit_ne (by decide) hm) (toDigit_ne (by decide) hm)
      (.plain (toDigit_ne (by decide) hn) (toDigit_ne (by decide) hn) ih))

theorem newline_not_mem_quoted {d : List U8} (h : Quoted d t) : byte '\n' ∉ t := by
  induction h with
  | nil => exact not_mem_nil
  | raw hb _ _ _ ih =>
    rw [mem_cons]
    rintro (rfl | h)
    · exact absurd hb (by decide)
    · exact ih h
  | escape hc _ _ ih =>
    rw [mem_cons, mem_cons]
    rintro (h | rfl | h)
    · exact absurd h (by decide)
    · exact absurd hc (by decide)
    · exact ih h
  | hex m n u v _ ih =>
    have hm := toDigit_hexDigit u m
    have hn := toDigit_hexDigit v n
    simp only [mem_cons, not_or]
    exact ⟨by decide, by decide, (toDigit_ne (by decide) hm).symm, (toDigit_ne (by decide) hn).symm, ih⟩

/-- A byte as two hex digits. -/
def hexByte (b : U8) : List U8 := [digitByte (b.toNat / 16), digitByte (b.toNat % 16)]

theorem hexEscaped_hexByte : ∀ b : U8, hexEscaped (digitByte (b.toNat / 16)) (digitByte (b.toNat % 16)) = some b := by
  decide +kernel

theorem hexPairs_hexBytes : hexPairs (d.flatMap hexByte) = d := by
  induction d with
  | nil => rfl
  | cons b d ih =>
    rw [flatMap_cons, hexByte, cons_append, cons_append, nil_append, hexPairs, hexEscaped_hexByte, ih]
    rfl

theorem mem_hexBytes {d : List U8} {b : U8} (h : b ∈ d.flatMap hexByte) : ∃ n, n < 16 ∧ b = digitByte n := by
  obtain ⟨c, _, hb⟩ := mem_flatMap.mp h
  rcases mem_cons.mp hb with rfl | hb
  · exact ⟨_, by omega, rfl⟩
  · exact ⟨_, by omega, mem_singleton.mp hb⟩

theorem enclosed_hexBytes : Enclosed (byte '"') (d.flatMap hexByte) := by
  refine enclosed_of_plain fun b hb => ?_
  obtain ⟨n, hn, rfl⟩ := mem_hexBytes hb
  exact (show ∀ n < 16, digitByte n ≠ byte '"' ∧ digitByte n ≠ byte '\\' by decide) n hn

theorem newline_not_mem_hexBytes : byte '\n' ∉ d.flatMap hexByte := by
  intro hmem
  obtain ⟨n, hn, heq⟩ := mem_hexBytes hmem
  exact absurd heq ((show ∀ n < 16, byte '\n' ≠ digitByte n by decide) n hn)

/-- A buffer in hex is read back. -/
theorem decodeHexBytes_hexBytes : decodeHexBytes (d.flatMap hexByte) = d := by
  have hdollar : byte '$' ∉ d.flatMap hexByte := by
    intro hmem
    obtain ⟨n, hn, heq⟩ := mem_hexBytes hmem
    exact absurd heq ((show ∀ n < 16, byte '$' ≠ digitByte n by decide) n hn)
  have heven : (d.flatMap hexByte).length % 2 = 0 := by
    rw [length_flatMap, show d.map (fun b => (hexByte b).length) = d.map fun _ => 2 from rfl, map_const',
      sum_replicate]
    exact Nat.mul_mod_left _ 2
  have hall : (d.flatMap hexByte).all isHexDigit = true := by
    refine all_eq_true.mpr fun b hb => ?_
    obtain ⟨n, hn, rfl⟩ := mem_hexBytes hb
    rw [isHexDigit, toDigit_digitByte n hn]
    rfl
  simp only [decodeHexBytes, dropPrefix?_eq_none (w := ascii ['$']) mem_cons_self hdollar]
  by_cases hne : d.flatMap hexByte = []
  · rw [← hexPairs_hexBytes d, hne]
    rfl
  · rw [if_pos ⟨hne, heven, hall⟩, hexPairs_hexBytes]

/-! ## The two searches of a line -/

/-- A search that knows which quote it is in, and counts the bytes it passes. -/
structure QuoteAware (find : U8 → List U8 → Option Nat) (q : U8) : Prop where
  opens : ∀ s, find 0#8 (q :: s) = (find q s).map (· + 1)
  closes : ∀ s, find q (q :: s) = (find 0#8 s).map (· + 1)
  plain : ∀ b s, b ≠ q → b ≠ byte '\\' → find q (b :: s) = (find q s).map (· + 1)
  pair : ∀ c s, find q (byte '\\' :: c :: s) = (find q s).map (· + 2)

theorem QuoteAware.enclosed (hf : QuoteAware find q)
    (ht : Enclosed q t) (rest : List U8) : find q (t ++ q :: rest) = (find 0#8 rest).map (· + (t.length + 1)) := by
  induction ht with
  | nil => exact hf.closes rest
  | plain hb hb' _ ih =>
    rw [cons_append, hf.plain _ _ hb hb', ih, Option.map_map]
    rfl
  | pair _ ih =>
    rw [cons_append, cons_append, hf.pair, ih, Option.map_map]
    rfl

/-- A literal is passed over as a whole. -/
theorem QuoteAware.literal (hf : QuoteAware find q)
    (ht : Enclosed q t) (rest : List U8) :
    find 0#8 (q :: (t ++ [q]) ++ rest) = (find 0#8 rest).map (· + (q :: (t ++ [q])).length) := by
  rw [cons_append, append_assoc, singleton_append, hf.opens, hf.enclosed ht, Option.map_map]
  simp only [length_cons, length_append]
  rfl

section

variable {q : U8} (c : U8) (s : List U8) (depth : Int)

theorem commentFrom_out : commentFrom 0#8 (c :: s) =
    if c = byte '"' ∨ c = byte '\'' then (commentFrom c s).map (· + 1)
    else if c = byte '#' then some 0 else (commentFrom 0#8 s).map (· + 1) := by
  cases s <;> conv_lhs => rw [commentFrom, if_neg (by simp)]

theorem matchingFrom_out : matchingFrom 0#8 depth (c :: s) =
    if c = byte '"' ∨ c = byte '\'' then (matchingFrom c depth s).map (· + 1)
    else if c = byte '(' then (matchingFrom 0#8 (depth + 1) s).map (· + 1)
    else if c = byte ')' then if depth - 1 = 0 then some 0 else (matchingFrom 0#8 (depth - 1) s).map (· + 1)
    else (matchingFrom 0#8 depth s).map (· + 1) := by
  cases s <;> conv_lhs => rw [matchingFrom, if_neg (by simp)]

variable {c}

theorem commentFrom_in (hq : q ≠ 0#8) (hc : c ≠ byte '\\') :
    commentFrom q (c :: s) = (commentFrom (if c = q then 0#8 else q) s).map (· + 1) := by
  cases s <;> conv_lhs => rw [commentFrom, if_pos hq, if_neg hc]

theorem matchingFrom_in (hq : q ≠ 0#8) (hc : c ≠ byte '\\') :
    matchingFrom q depth (c :: s) = (matchingFrom (if c = q then 0#8 else q) depth s).map (· + 1) := by
  cases s <;> conv_lhs => rw [matchingFrom, if_pos hq, if_neg hc]

end

theorem quoteAware_commentFrom (hq : q = byte '"' ∨ q = byte '\'') : QuoteAware commentFrom q := by
  have hzero : q ≠ 0#8 := by rcases hq with rfl | rfl <;> decide
  have hslash : q ≠ byte '\\' := by rcases hq with rfl | rfl <;> decide
  refine ⟨fun s => ?_, fun s => ?_, fun b s hb hb' => ?_, fun c s => ?_⟩
  · rw [commentFrom_out, if_pos hq]
  · rw [commentFrom_in s hzero hslash, if_pos rfl]
  · rw [commentFrom_in s hzero hb', if_neg hb]
  · rw [commentFrom, if_pos hzero, if_pos rfl]

theorem quoteAware_matchingFrom (hq : q = byte '"' ∨ q = byte '\'') (depth : Int) :
    QuoteAware (matchingFrom · depth) q := by
  have hzero : q ≠ 0#8 := by rcases hq with rfl | rfl <;> decide
  have hslash : q ≠ byte '\\' := by rcases hq with rfl | rfl <;> decide
  refine ⟨fun s => ?_, fun s => ?_, fun b s hb hb' => ?_, fun c s => ?_⟩
  · rw [matchingFrom_out, if_pos hq]
  · rw [matchingFrom_in s depth hzero hslash, if_pos rfl]
  · rw [matchingFrom_in s depth hzero hb', if_neg hb]
  · rw [matchingFrom, if_pos hzero, if_pos rfl]

/-- Both searches pass over the text, and it is on one line. -/
structure Neutral (t : List U8) : Prop where
  comment : ∀ rest, commentFrom 0#8 (t ++ rest) = (commentFrom 0#8 rest).map (· + t.length)
  paren : ∀ depth : Int, 0 < depth → ∀ rest,
    matchingFrom 0#8 depth (t ++ rest) = (matchingFrom 0#8 depth rest).map (· + t.length)
  line : byte '\n' ∉ t

namespace Neutral

theorem nil : Neutral [] := ⟨fun rest => by simp, fun depth _ rest => by simp, not_mem_nil⟩

theorem append {u : List U8} (ht : Neutral t) (hu : Neutral u) : Neutral (t ++ u) := by
  refine ⟨fun rest => ?_, fun depth hd rest => ?_, fun hmem => (mem_append.mp hmem).elim ht.line hu.line⟩
  · rw [append_assoc, ht.comment, hu.comment, Option.map_map, length_append]
    congr 1; funext n; simp only [Function.comp_apply]; omega
  · rw [append_assoc, ht.paren depth hd, hu.paren depth hd, Option.map_map, length_append]
    congr 1; funext n; simp only [Function.comp_apply]; omega

theorem literal {q : U8} (hq : q = byte '"' ∨ q = byte '\'') (ht : Enclosed q t)
    (hline : byte '\n' ∉ t) : Neutral (q :: (t ++ [q])) := by
  refine ⟨(quoteAware_commentFrom hq).literal ht, fun depth _ => (quoteAware_matchingFrom hq depth).literal ht, ?_⟩
  have hne : byte '\n' ≠ q := by rcases hq with rfl | rfl <;> decide
  simp [hne, hline]

/-- Text in parentheses. -/
theorem parens (ht : Neutral t) : Neutral (byte '(' :: (t ++ [byte ')'])) := by
  refine ⟨fun rest => ?_, fun depth hd rest => ?_, ?_⟩
  · rw [List.cons_append, List.append_assoc, commentFrom_out, if_neg (by decide), if_neg (by decide),
      ht.comment, List.singleton_append, commentFrom_out, if_neg (by decide), if_neg (by decide)]
    simp only [Option.map_map, List.length_cons, List.length_append, List.length_nil]
    congr 1; funext n; simp only [Function.comp_apply]; omega
  · rw [List.cons_append, List.append_assoc, matchingFrom_out, if_neg (by decide), if_pos rfl,
      ht.paren _ (by omega), List.singleton_append, matchingFrom_out, if_neg (by decide),
      if_neg (by decide), if_pos rfl, if_neg (by omega), Int.add_sub_cancel]
    simp only [Option.map_map, List.length_cons, List.length_append, List.length_nil]
    congr 1; funext n; simp only [Function.comp_apply]; omega
  · rw [List.mem_cons, List.mem_append]
    exact fun h => h.elim (by decide) fun h => h.elim ht.line (by decide)

end Neutral

/-- A byte that means nothing to the searches. -/
def isPlain (b : U8) : Bool :=
  b != byte '"' && b != byte '\'' && b != byte '(' && b != byte ')' && b != byte '#' && b != byte '\n'

theorem neutral_of_plain (h : ∀ b ∈ t, isPlain b = true) : Neutral t := by
  induction t with
  | nil => exact .nil
  | cons b t ih =>
    have hb := h b mem_cons_self
    simp only [isPlain, Bool.and_eq_true, bne_iff_ne] at hb
    obtain ⟨⟨⟨⟨⟨hdq, hsq⟩, ho⟩, hc⟩, hh⟩, hn⟩ := hb
    have hone : Neutral [b] := by
      refine ⟨fun rest => ?_, fun depth _ rest => ?_, fun hmem => hn (mem_singleton.mp hmem).symm⟩
      · rw [singleton_append, commentFrom_out, if_neg (by simp [hdq, hsq]), if_neg hh]
        rfl
      · rw [singleton_append, matchingFrom_out, if_neg (by simp [hdq, hsq]), if_neg ho, if_neg hc]
        rfl
    exact hone.append (ih fun c hc => h c (mem_cons_of_mem b hc))

end Vock.Fuzz
