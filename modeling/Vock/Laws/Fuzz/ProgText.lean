import Vock.Laws.Fuzz.Print
import Vock.Laws.Fuzz.ProgMutate

/-!
# Printed programs

How a call and a program are written (`Call.Prints`, `Listing`), and that the parser gets them back
(`text_round_trip`): a call from any of its texts, and a program from the lines of its calls, with
white space, comments, and blank and comment lines between them. So a mutated program is (`mutated_read_back`).

The texts are those of a relation, as no printer is in the source. Not established: anything of what the parser does
with other texts, but that it stays inside of them (`ProgTextChecked`).
-/

namespace Vock.Fuzz

open Library List

variable {t before comment : List U8} {b : U8} {cs : List Call} {ls : List (List U8)}
  {syscallNr : List U8 → Option Int} {p s name z : List U8}

/-! ## The printer -/

/-- The slot a call's result goes to. -/
def resultText : Option U64 → List U8
  | none => []
  | some slot => byte 'r' :: (dec slot.toNat ++ ascii [' ', '=', ' '])

/-- A number in decimal, with its sign. -/
def intText (i : Int) : List U8 := (if i < 0 then ascii ['-'] else []) ++ dec i.natAbs

def failNthText (n : BitVec 32) : List U8 :=
  ascii ['f', 'a', 'i', 'l', '_', 'n', 't', 'h', ':', ' '] ++ intText n.toInt

def asyncText : List U8 := ascii ['a', 's', 'y', 'n', 'c']

/-- The call properties that are set. -/
def Call.propTexts (c : Call) : List (List U8) :=
  (c.failNth.map failNthText).toList ++ if c.isAsync then [asyncText] else []

/-- The call-property block, where there is one. -/
def Call.propsText (c : Call) : List U8 :=
  if c.propTexts = [] then [] else byte ' ' :: byte '(' :: (commaJoin c.propTexts ++ [byte ')'])

/-- The text is one of those written for the call. -/
def Call.Prints (c : Call) (t : List U8) : Prop :=
  ∃ us, List.Forall₂ Arg.Prints c.args us ∧
    t = resultText c.res ++ (c.name ++ (byte '(' :: (commaJoin us ++ byte ')' :: c.propsText)))

/-- A byte of a syscall's name, the `$` in front of its variant included. -/
def isNameByte (b : U8) : Bool := isIdentByte b || b == byte '$'

/-- The calls that can be written. -/
structure Call.Printable (syscallNr : List U8 → Option Int) (c : Call) : Prop where
  name_ne_nil : c.name ≠ []
  name : ∀ b ∈ c.name, isNameByte b = true
  base : c.base = c.name.takeWhile (· ≠ byte '$')
  nr : c.nr = syscallNr c.base
  height : ∀ a ∈ c.args, a.height ≤ maxDepth
  pointee : ∀ a ∈ c.args, a.NoNilPointee

/-- A comment up to the end of the line, or none. -/
def Comment (s : List U8) : Prop := s = [] ∨ ∃ t, byte '\n' ∉ t ∧ s = byte '#' :: t

/-- White space within a line. -/
def Blank (s : List U8) : Prop := Spaces s ∧ byte '\n' ∉ s

/-- The lines of a program: those of its calls, and blank and comment lines between them. -/
inductive Listing : List Call → List (List U8) → Prop
  | nil : Listing [] []
  | call {c : Call} {cs : List Call} {ls : List (List U8)} {before t after comment : List U8} :
      Blank before → c.Prints t → Blank after → Comment comment → Listing cs ls →
      Listing (c :: cs) ((before ++ (t ++ (after ++ comment))) :: ls)
  | skip {cs : List Call} {ls : List (List U8)} {before comment : List U8} :
      Blank before → Comment comment → Listing cs ls → Listing cs ((before ++ comment) :: ls)

/-! ## Numbers in decimal -/

theorem isVisible_of_isDigit (h : isDigit b = true) : isVisible b = true :=
  isVisible_of_isWordByte b (isWordByte_of_isAlphanumeric (isAlphanumeric_of_isDigit h))

theorem isVisible_intText (i : Int) : ∀ b ∈ intText i, isVisible b = true := by
  have hsign : ∀ b ∈ (if i < 0 then ascii ['-'] else []), isVisible b = true := by
    split
    · exact all_eq_true.mp rfl
    · exact nofun
  exact forall_mem_append.mpr ⟨hsign, fun b hb => isVisible_of_isDigit (mem_dec hb)⟩

theorem not_mem_dec (hb : isDigit b = false) (n : Nat) : b ∉ dec n := by
  intro hmem
  exact ne_of_class (mem_dec hmem) hb rfl

/-- Decimal numbers are not taken for octal ones: zero is a single digit, and no other begins with it. -/
theorem not_octal_dec (n : Nat) : ¬ (1 < (dec n).length ∧ (dec n).head? = some (byte '0') ∧ (dec n).all isOctal) := by
  rintro ⟨hlen, hhead, -⟩
  by_cases hn : n = 0
  · subst hn
    exact absurd hlen (by decide)
  · obtain ⟨d, hd, hlt, hfirst⟩ : ∃ d, d ≠ 0 ∧ d < 10 ∧ (numeral 10 digitByte n).head? = some (digitByte d) :=
      head?_numeral (by decide) hn
    rw [dec, hfirst, Option.some_inj] at hhead
    exact absurd hhead ((show ∀ d < 10, d ≠ 0 → digitByte d ≠ byte '0' by decide) d hlt hd)

theorem digitsValue_dec (n : Nat) : digitsValue 10 (dec n) = some n :=
  digitsValue_numeral (by decide) toDigit_digitByte_ten n

theorem dropPlus_dec (n : Nat) : dropPlus (dec n) = dec n := by
  rw [dropPlus, dropPrefix?_eq_none (w := ascii ['+']) mem_cons_self (not_mem_dec (by decide) n)]
  rfl

theorem parseInt_intText {i : Int} (hlow : -2 ^ 63 < i) (hhigh : i < 2 ^ 63) :
    parseInt (intText i) = some (BitVec.ofInt 64 i) := by
  have hne : dec i.natAbs ≠ [] := numeral_ne_nil _
  have hminus : (dec i.natAbs).dropPrefix? (ascii ['-']) = none :=
    dropPrefix?_eq_none (w := ascii ['-']) mem_cons_self (not_mem_dec (by decide) _)
  rw [parseInt, trim_of_visible (isVisible_intText i)]
  by_cases hi : i < 0
  · have htext : intText i = byte '-' :: dec i.natAbs := by rw [intText, if_pos hi]; rfl
    have hneg : (byte '-' :: dec i.natAbs).dropPrefix? (ascii ['-']) = some (dec i.natAbs) :=
      dropPrefix?_append (ascii ['-']) _
    have hhex : ((byte '-' :: dec i.natAbs).dropPrefix? (ascii ['0', 'x'])).or
        ((byte '-' :: dec i.natAbs).dropPrefix? (ascii ['0', 'X'])) = none := rfl
    have hvalue : parseI64 (dec i.natAbs) = some (i.natAbs : Int) := by
      rw [parseI64, hminus]
      simp only [dropPlus_dec, digitsValue_dec]
      rw [Option.filter_some, if_pos (decide_eq_true (by omega))]
      rfl
    simp only [htext, if_neg (cons_ne_nil (byte '-') (dec i.natAbs)), hhex, hneg, hvalue, Option.map_some]
    congr 2
    omega
  · have htext : intText i = dec i.natAbs := by rw [intText, if_neg hi]; rfl
    have hhex : ((dec i.natAbs).dropPrefix? (ascii ['0', 'x'])).or ((dec i.natAbs).dropPrefix? (ascii ['0', 'X'])) =
        none := by
      rw [dropPrefix?_eq_none (c := byte 'x') (by decide) (not_mem_dec (by decide) _),
        dropPrefix?_eq_none (c := byte 'X') (by decide) (not_mem_dec (by decide) _)]
      rfl
    simp only [htext, if_neg hne, hhex, hminus, if_neg (not_octal_dec i.natAbs)]
    rw [fromStrRadix, dropPlus_dec, digitsValue_dec, Option.filter_some, if_pos (decide_eq_true (by omega)),
      Option.map_some, ← BitVec.ofInt_natCast, Int.natAbs_of_nonneg (by omega)]

theorem setWidth_ofInt (n : BitVec 32) : (BitVec.ofInt 64 n.toInt).setWidth 32 = n := by
  apply BitVec.eq_of_toNat_eq
  rw [BitVec.toNat_setWidth, BitVec.toNat_ofInt, BitVec.toInt_eq_toNat_cond]
  split <;> omega

/-! ## Call properties -/

theorem trim_asyncText : trim asyncText = asyncText := trim_of_visible (all_eq_true.mp rfl)

theorem trim_space_asyncText : trim (byte ' ' :: asyncText) = asyncText := by
  have := trim_padded (s := asyncText) (spaces_singleton (w := [byte ' ']) (by decide)) spaces_nil
    (by rintro b ⟨⟩; rfl) (by rintro b ⟨⟩; rfl)
  rwa [append_nil] at this

theorem getLast?_append_dec (s : List U8) (n : Nat) : ∀ b ∈ (s ++ dec n).getLast?, isVisible b = true := by
  intro b hb
  have hne : dec n ≠ [] := numeral_ne_nil _
  rw [getLast?_append_of_ne_nil _ hne] at hb
  exact isVisible_of_isDigit (mem_dec (mem_of_mem_getLast? hb))

theorem trim_failNthText (n : BitVec 32) : trim (failNthText n) = failNthText n := by
  refine trim_eq (by rintro b ⟨⟩; decide) ?_
  rw [failNthText, intText, ← append_assoc]
  exact getLast?_append_dec _ _

theorem setProp_asyncText {part : List U8} (h : trim part = asyncText) (call : Call) :
    setProp call part = { call with isAsync := true } := by
  simp only [setProp, h]
  rfl

theorem setProp_failNthText (n : BitVec 32) (call : Call) :
    setProp call (failNthText n) = { call with failNth := some n } := by
  have hasync : failNthText n ≠ ascii ['a', 's', 'y', 'n', 'c'] := fun h =>
    absurd (show some (byte 'f') = some (byte 'a') from congrArg head? h) (by decide)
  have hdrop : (failNthText n).dropPrefix? (ascii ['f', 'a', 'i', 'l', '_', 'n', 't', 'h', ':']) =
      some (byte ' ' :: intText n.toInt) :=
    dropPrefix?_append (ascii ['f', 'a', 'i', 'l', '_', 'n', 't', 'h', ':']) _
  have htrim : trim (byte ' ' :: intText n.toInt) = intText n.toInt := by
    have hvis := isVisible_intText n.toInt
    have := trim_padded (s := intText n.toInt) (spaces_singleton (w := [byte ' ']) (by decide)) spaces_nil
      (fun b hb => hvis b (mem_of_mem_head? hb)) (fun b hb => hvis b (mem_of_mem_getLast? hb))
    rwa [append_nil] at this
  have hbounds := And.intro (BitVec.le_toInt n) (BitVec.toInt_lt (x := n))
  simp only [setProp, trim_failNthText, if_neg hasync, hdrop, htrim]
  rw [parseInt_intText (by omega) (by omega), Option.map_some, setWidth_ofInt]

theorem comma_not_mem_failNthText (n : BitVec 32) : ∀ b ∈ failNthText n, (b == byte ',') = false := by
  have hsign : ∀ b ∈ (if n.toInt < 0 then ascii ['-'] else []), (b == byte ',') = false := by
    split
    · exact forall_mem_of_any rfl
    · exact nofun
  refine forall_mem_append.mpr ⟨forall_mem_of_any rfl, forall_mem_append.mpr ⟨hsign, fun b hb => ?_⟩⟩
  exact beq_eq_false_iff_ne.mpr (ne_of_class (mem_dec hb) (by decide))

theorem comma_not_mem_asyncText : ∀ b ∈ asyncText, (b == byte ',') = false := forall_mem_of_any rfl

theorem parseProps_one (hp : ∀ b ∈ p, (b == byte ',') = false) (call : Call) :
    parseProps (commaJoin [p]) call = setProp call p := by
  rw [commaJoin, parseProps, splitOnP_eq_singleton hp]
  rfl

theorem parseProps_two {q : List U8} (hp : ∀ b ∈ p, (b == byte ',') = false)
    (hq : ∀ b ∈ q, (b == byte ',') = false) (call : Call) :
    parseProps (commaJoin [p, q]) call = setProp (setProp call p) (byte ' ' :: q) := by
  have hq' : ∀ b ∈ byte ' ' :: q, (b == byte ',') = false := forall_mem_cons.mpr ⟨by decide, hq⟩
  rw [commaJoin_cons_cons, commaJoin, parseProps, splitOnP_append_cons _ _ (by decide),
    splitOnP_eq_singleton hp, splitOnP_eq_singleton hq']
  rfl

/-- A property block is found behind the call. -/
theorem withProps_block (s : List U8) (call : Call) :
    withProps (trim (byte ' ' :: byte '(' :: (s ++ [byte ')']))) call = parseProps s call := by
  have htrim : trim (byte ' ' :: byte '(' :: (s ++ [byte ')'])) = byte '(' :: (s ++ [byte ')']) := by
    have hlast : (byte '(' :: (s ++ [byte ')'])).getLast? = some (byte ')') := by
      rw [← cons_append, getLast?_concat]
    have := trim_padded (s := byte '(' :: (s ++ [byte ')'])) (spaces_singleton (w := [byte ' ']) (by decide))
      spaces_nil (by rintro b ⟨⟩; decide) (by rw [hlast]; rintro b ⟨⟩; decide)
    rwa [append_nil] at this
  have hfirst : (byte '(' :: (s ++ [byte ')'])).findIdx? (· == byte '(') = some 0 := rfl
  have hlast : rposition (· == byte ')') (byte '(' :: (s ++ [byte ')'])) = some (s.length + 1) := by
    rw [← cons_append, rposition_append_cons (by decide) nofun, length_cons]
  rw [htrim, withProps, hfirst, hlast]
  simp

/-- The properties are read back. -/
theorem withProps_propsText (c : Call) :
    withProps (trim c.propsText) { c with failNth := none, isAsync := false } = c := by
  obtain ⟨name, base, nr, args, res, failNth, isAsync⟩ := c
  cases failNth with
  | none =>
    cases isAsync with
    | false => rfl
    | true =>
      rw [Call.propsText, if_neg (by simp [Call.propTexts]), withProps_block]
      exact (parseProps_one comma_not_mem_asyncText _).trans (setProp_asyncText trim_asyncText _)
  | some n =>
    cases isAsync with
    | false =>
      rw [Call.propsText, if_neg (by simp [Call.propTexts]), withProps_block]
      exact (parseProps_one (comma_not_mem_failNthText n) _).trans (setProp_failNthText n _)
    | true =>
      rw [Call.propsText, if_neg (by simp [Call.propTexts]), withProps_block]
      refine (parseProps_two (comma_not_mem_failNthText n) comma_not_mem_asyncText _).trans ?_
      rw [setProp_failNthText, setProp_asyncText trim_space_asyncText]

/-! ## Calls -/

theorem neutral_blank (h : Blank s) : Neutral s := by
  obtain ⟨⟨ws, hws, rfl⟩, hline⟩ := h
  refine neutral_of_plain fun b hb => ?_
  obtain ⟨w, hw, hbw⟩ := mem_flatten.mp hb
  have hplain : (b == byte '\n' || isPlain b) = true :=
    all_whiteSpace (p := fun b => b == byte '\n' || isPlain b) (by decide) (hws w hw) hbw
  have hne : (b == byte '\n') = false := beq_eq_false_iff_ne.mpr fun heq => hline (heq ▸ hb)
  rwa [hne] at hplain

theorem isWordByte_of_isNameByte (h : isNameByte b = true) : isWordByte b = true := by
  rw [isNameByte, Bool.or_eq_true] at h
  rcases h with h | h
  · exact isWordByte_of_isIdentByte h
  · rw [eq_of_beq h]
    rfl

section

variable {name : List U8} (hname : ∀ b ∈ name, isNameByte b = true)

include hname

theorem isVisible_name : ∀ b ∈ name, isVisible b = true := fun b hb =>
  isVisible_of_isWordByte b (isWordByte_of_isNameByte (hname b hb))

theorem isPlain_name : ∀ b ∈ name, isPlain b = true := fun b hb =>
  isPlain_of_isWordByte b (isWordByte_of_isNameByte (hname b hb))

theorem not_mem_name {c : U8} (hc : isNameByte c = false) : ∀ b ∈ name, (b == c) = false := fun b hb =>
  beq_eq_false_iff_ne.mpr (ne_of_class (hname b hb) hc)

end

theorem paren_not_mem_resultText (res : Option U64) : ∀ b ∈ resultText res, (b == byte '(') = false := by
  cases res with
  | none => exact nofun
  | some slot =>
    refine forall_mem_cons.mpr ⟨by decide, forall_mem_append.mpr ⟨fun b hb => ?_, forall_mem_of_any rfl⟩⟩
    exact beq_eq_false_iff_ne.mpr (ne_of_class (mem_dec hb) (by decide))

/-- The result in front of a call is split off and read back. -/
theorem splitResult_resultText (res : Option U64) (hname : ∀ b ∈ name, isNameByte b = true) (hhead : ∀ b ∈ (name ++ byte '(' :: z).head?, isVisible b = true)
    (hlast : ∀ b ∈ (name ++ byte '(' :: z).getLast?, isVisible b = true) :
    splitResult (resultText res ++ (name ++ byte '(' :: z)) (resultText res ++ name).length =
      (res, name ++ byte '(' :: z) := by
  rw [← append_assoc (resultText res), splitResult, take_left]
  cases res with
  | none =>
    have hnone : (resultText none ++ name).findIdx? (· == byte '=') = none :=
      findIdx?_eq_none_iff.mpr (not_mem_name hname (by decide))
    rw [hnone]
    rfl
  | some slot =>
    have hdigits : ∀ b ∈ byte 'r' :: (dec slot.toNat ++ [byte ' ']), (b == byte '=') = false := by
      refine forall_mem_cons.mpr ⟨by decide, forall_mem_append.mpr ⟨fun b hb => ?_, forall_mem_of_any rfl⟩⟩
      exact beq_eq_false_iff_ne.mpr (ne_of_class (mem_dec hb) (by decide))
    have htext : ∀ s, resultText (some slot) ++ s =
        (byte 'r' :: (dec slot.toNat ++ [byte ' '])) ++ byte '=' :: byte ' ' :: s := by
      simp [resultText, ascii]
    have hfind : (resultText (some slot) ++ name).findIdx? (· == byte '=') =
        some (byte 'r' :: (dec slot.toNat ++ [byte ' '])).length := by
      rw [htext]
      exact findIdx?_append_cons (by decide) hdigits _
    have hslot : trim (byte 'r' :: (dec slot.toNat ++ [byte ' '])) = byte 'r' :: dec slot.toNat := by
      refine trim_padded (s := byte 'r' :: dec slot.toNat) spaces_nil (spaces_singleton (by decide))
        (by rintro b ⟨⟩; decide) ?_
      exact getLast?_append_dec [byte 'r'] slot.toNat
    have hrest : trim (byte ' ' :: (name ++ byte '(' :: z)) = name ++ byte '(' :: z := by
      have := trim_padded (spaces_singleton (w := [byte ' ']) (by decide)) spaces_nil hhead hlast
      rwa [append_nil] at this
    have hdrop : (byte 'r' :: dec slot.toNat).dropPrefix? (ascii ['r']) = some (dec slot.toNat) :=
      dropPrefix?_append (ascii ['r']) _
    rw [hfind, append_assoc, htext]
    simp only [take_left, drop_length_add_append, hslot, hdrop, Option.bind_some, fromStrRadix_dec,
      drop_succ_cons, drop_zero, hrest]

theorem getLast?_propsText (c : Call) (s : List U8) : (s ++ byte ')' :: c.propsText).getLast? = some (byte ')') := by
  unfold Call.propsText
  split
  · exact getLast?_concat
  · rw [show ∀ t : List U8, s ++ byte ')' :: byte ' ' :: byte '(' :: (t ++ [byte ')']) =
      (s ++ byte ')' :: byte ' ' :: byte '(' :: t) ++ [byte ')'] by simp, getLast?_concat]

/-- The parenthesis that closes a call is found behind its arguments. -/
theorem matchingParen_call (ht : Neutral t) :
    matchingParen (name ++ byte '(' :: (t ++ byte ')' :: z)) name.length = some (name.length + 1 + t.length) := by
  rw [matchingParen, drop_left, matchingFrom_out, if_neg (by decide), if_pos rfl, ht.paren _ (by decide),
    matchingFrom_out, if_neg (by decide), if_neg (by decide), if_pos rfl, if_pos (by decide)]
  simp only [Option.map_some]
  congr 1
  omega

section

variable {syscallNr : List U8 → Option Int} {c : Call} (hc : c.Printable syscallNr) {after : List U8}

include hc

theorem statement_prints (ht : c.Prints t) : statement syscallNr t = some c := by
  obtain ⟨us, hus, rfl⟩ := ht
  have hargs : Neutral (commaJoin us) := neutral_commaJoin (neutral_all _ hus)
  have hparen : ∀ z, (resultText c.res ++ (c.name ++ byte '(' :: z)).findIdx? (· == byte '(') =
      some (resultText c.res ++ c.name).length := by
    intro z
    rw [← append_assoc]
    refine findIdx?_append_cons (by decide) (forall_mem_append.mpr ⟨paren_not_mem_resultText c.res, ?_⟩) z
    exact not_mem_name hc.name (by decide)
  have hparen' : ∀ z, (c.name ++ byte '(' :: z).findIdx? (· == byte '(') = some c.name.length := fun z =>
    findIdx?_append_cons (by decide) (not_mem_name hc.name (by decide)) z
  have hhead : ∀ z, ∀ b ∈ (c.name ++ byte '(' :: z).head?, isVisible b = true := by
    intro z b hb
    rw [head?_append_of_ne_nil _ hc.name_ne_nil] at hb
    exact isVisible_name hc.name b (mem_of_mem_head? hb)
  have hlast : ∀ b ∈ (c.name ++ byte '(' :: (commaJoin us ++ byte ')' :: c.propsText)).getLast?,
      isVisible b = true := by
    rw [← cons_append, ← append_assoc, getLast?_propsText]
    rintro b ⟨⟩
    decide
  have hmiddle : ((c.name ++ byte '(' :: (commaJoin us ++ byte ')' :: c.propsText)).take
      (c.name.length + 1 + (commaJoin us).length)).drop (c.name.length + 1) = commaJoin us := by
    rw [show c.name ++ byte '(' :: (commaJoin us ++ byte ')' :: c.propsText) =
      (c.name ++ [byte '(']) ++ (commaJoin us ++ byte ')' :: c.propsText) by simp,
      show c.name.length + 1 = (c.name ++ [byte '(']).length by simp, take_length_add_append, drop_left,
      take_left]
  have htail : (c.name ++ byte '(' :: (commaJoin us ++ byte ')' :: c.propsText)).drop
      (c.name.length + 1 + (commaJoin us).length + 1) = c.propsText := by
    rw [show c.name ++ byte '(' :: (commaJoin us ++ byte ')' :: c.propsText) =
      (c.name ++ byte '(' :: (commaJoin us ++ [byte ')'])) ++ c.propsText by simp]
    refine drop_left' ?_
    simp only [length_append, length_cons, length_nil]
    omega
  simp only [statement, Option.bind_eq_bind, hparen, Option.bind_some, splitResult_resultText c.res hc.name (hhead _)
    hlast, hparen', take_left, trim_of_visible (isVisible_name hc.name), if_neg hc.name_ne_nil,
    matchingParen_call hargs, hmiddle, list_prints hc.height hc.pointee hus, htail]
  rw [← hc.base, ← hc.nr]
  exact congrArg some (withProps_propsText c)

theorem neutral_call (ht : c.Prints t) : Neutral t := by
  obtain ⟨us, hus, rfl⟩ := ht
  have hresult : Neutral (resultText c.res) := by
    cases c.res with
    | none => exact .nil
    | some slot =>
      exact (neutral_of_plain (t := [byte 'r']) (all_eq_true.mp rfl)).append
        ((neutral_dec slot.toNat).append (neutral_of_plain (all_eq_true.mp rfl)))
  have hargs : Neutral (commaJoin us) := neutral_commaJoin (neutral_all _ hus)
  have hsign : ∀ i : Int, Neutral (if i < 0 then ascii ['-'] else []) := fun i =>
    neutral_of_plain (by
      split
      · exact all_eq_true.mp rfl
      · exact nofun)
  have hprop : ∀ p ∈ c.propTexts, Neutral p := by
    intro p hp
    rcases mem_append.mp hp with hp | hp
    · obtain ⟨n, -, rfl⟩ := Option.map_eq_some_iff.mp (Option.mem_toList.mp hp)
      exact (neutral_of_plain (all_eq_true.mp rfl)).append ((hsign n.toInt).append (neutral_dec _))
    · split at hp
      · exact mem_singleton.mp hp ▸ neutral_of_plain (all_eq_true.mp rfl)
      · cases hp
  have hprops : Neutral c.propsText := by
    unfold Call.propsText
    split
    · exact .nil
    · exact (neutral_of_plain (t := [byte ' ']) (all_eq_true.mp rfl)).append (neutral_commaJoin hprop).parens
  have := hresult.append ((neutral_of_plain (isPlain_name hc.name)).append (hargs.parens.append hprops))
  simpa using this

theorem head_call (ht : c.Prints t) : t ≠ [] ∧ ∀ b ∈ t.head?, isVisible b = true ∧ b ≠ byte '#' := by
  obtain ⟨us, -, rfl⟩ := ht
  cases c.res with
  | some slot => exact ⟨cons_ne_nil _ _, by rintro b ⟨⟩; decide⟩
  | none =>
    refine ⟨append_ne_nil_of_left_ne_nil hc.name_ne_nil _, fun b hb => ?_⟩
    rw [resultText, nil_append, head?_append_of_ne_nil _ hc.name_ne_nil] at hb
    have hmem := hc.name b (mem_of_mem_head? hb)
    exact ⟨isVisible_of_isWordByte b (isWordByte_of_isNameByte hmem), ne_of_class hmem (by decide)⟩

omit hc in
theorem last_call (ht : c.Prints t) : ∀ b ∈ t.getLast?, isVisible b = true := by
  obtain ⟨us, -, rfl⟩ := ht
  rw [← cons_append, ← append_assoc, ← append_assoc, getLast?_propsText]
  rintro b ⟨⟩
  decide

theorem isEmptyLine_call (ht : c.Prints t) (s : List U8) : isEmptyLine (t ++ s) = false := by
  obtain ⟨hne, hhead⟩ := head_call hc ht
  cases t with
  | nil => exact absurd rfl hne
  | cons b t => simpa [isEmptyLine] using (hhead b rfl).2

/-- A comment behind a call is taken off, with the white space in front of it. -/
theorem withoutComment_call (ht : c.Prints t) (hafter : Blank after)
    (hcomment : comment = [] ∧ after = [] ∨ ∃ s, comment = byte '#' :: s) :
    withoutComment (t ++ (after ++ comment)) = t := by
  have hneutral := neutral_call hc ht
  unfold withoutComment commentPos
  rcases hcomment with ⟨rfl, rfl⟩ | ⟨s, rfl⟩
  · rw [hneutral.comment]
    exact append_nil t
  · have hspace : Neutral after := neutral_blank hafter
    have hpos : commentFrom 0#8 (t ++ (after ++ byte '#' :: s)) = some (t ++ after).length := by
      rw [hneutral.comment, hspace.comment, commentFrom_out, if_neg (by decide), if_pos rfl]
      simp only [Option.map_some, length_append]
      congr 1
      omega
    rw [hpos, ← append_assoc]
    simp only [take_left]
    exact trim_padded spaces_nil hafter.1 (fun b hb => ((head_call hc ht).2 b hb).1) (last_call ht)

/-- A call is read back from each of its texts. -/
theorem parseCall_prints (ht : c.Prints t) : parseCall syscallNr t = some c := by
  have htrim : trim t = t := trim_eq (fun b hb => ((head_call hc ht).2 b hb).1) (last_call ht)
  have hempty := isEmptyLine_call hc ht []
  have hcomment := withoutComment_call hc ht ⟨spaces_nil, not_mem_nil⟩ (.inl ⟨rfl, rfl⟩)
  rw [append_nil] at hempty
  rw [append_nil, append_nil] at hcomment
  simp only [parseCall, htrim, hempty, Bool.false_eq_true, if_false]
  rw [hcomment, statement_prints hc ht]

theorem trim_call_comment (hbefore : Spaces before) (ht : c.Prints t) (after s : List U8) :
    ∃ s', trim (before ++ (t ++ (after ++ byte '#' :: s))) = t ++ (after ++ byte '#' :: s') := by
  obtain ⟨hne, hhead⟩ := head_call hc ht
  have hhead' : ∀ b ∈ (t ++ after).head?, isVisible b = true := by
    intro b hb
    rw [head?_append_of_ne_nil _ hne] at hb
    exact (hhead b hb).1
  obtain ⟨s', hs'⟩ := trim_stops hbefore (b := byte '#') (by decide) hhead' s
  exact ⟨s', by rw [← append_assoc t, hs', append_assoc]⟩

/-- A line with a call gives the call, whatever white space and comment is on it. -/
theorem progLine_call (hbefore : Blank before) (ht : c.Prints t)
    (hafter : Blank after) (hcomment : Comment comment) :
    progLine syscallNr (before ++ (t ++ (after ++ comment))) = some c := by
  rcases hcomment with rfl | ⟨s, -, rfl⟩
  · have htrim := trim_padded hbefore.1 hafter.1 (fun b hb => ((head_call hc ht).2 b hb).1) (last_call ht)
    have hempty := isEmptyLine_call hc ht []
    rw [append_nil] at hempty
    rw [append_nil]
    simp [progLine, htrim, hempty, parseCall_prints hc ht]
  · -- the line is trimmed twice, here and in `parse_call`
    obtain ⟨s', hs'⟩ := trim_call_comment hc hbefore.1 ht after s
    obtain ⟨s'', hs''⟩ := trim_call_comment hc spaces_nil ht after s'
    rw [nil_append] at hs''
    simp only [progLine, parseCall, hs', hs'', isEmptyLine_call hc ht, Bool.false_eq_true, if_false]
    rw [withoutComment_call hc ht hafter (.inr ⟨s'', rfl⟩), statement_prints hc ht]

end

/-! ## Programs -/

theorem progLine_skip (syscallNr : List U8 → Option Int) (hbefore : Blank before)
    (hcomment : Comment comment) : progLine syscallNr (before ++ comment) = none := by
  rcases hcomment with rfl | ⟨s, -, rfl⟩
  · have htrim := trim_padded (s := []) hbefore.1 spaces_nil nofun nofun
    rw [append_nil] at htrim
    simp only [progLine, htrim]
    rfl
  · obtain ⟨s', hs'⟩ := trim_stops (u := []) hbefore.1 (b := byte '#') (by decide) nofun s
    rw [nil_append] at hs'
    simp only [progLine, hs']
    rfl

theorem progLine_return (syscallNr : List U8 → Option Int) (l : List U8) :
    progLine syscallNr ((l.dropSuffix? (ascii ['\r'])).getD l) = progLine syscallNr l := by
  cases hdrop : l.dropSuffix? (ascii ['\r']) with
  | none => rfl
  | some l' =>
    obtain ⟨s, rfl, hs⟩ := dropSuffix?_eq_some_iff.mp hdrop
    rw [eq_of_beq hs, Option.getD_some]
    unfold progLine
    rw [trim_concat_return]

/-- The lines that `str::lines` gives are those between the line ends, as far as the parser can tell:
a carriage return at the end of one is trimmed off, and an empty one gives no call. -/
theorem parseProg_calls (syscallNr : List U8 → Option Int) (text : List U8) :
    (parseProg syscallNr text).calls = parseLines (· == byte '\n') (progLine syscallNr) text := by
  have hempty : progLine syscallNr [] = none := rfl
  have hlast : ∀ o : Option (List U8), ((o.filter (· ≠ [])).toList.filterMap (progLine syscallNr)) =
      o.toList.filterMap (progLine syscallNr) := by
    rintro (_ | _ | ⟨b, l⟩)
    · rfl
    · simp [hempty]
    · rfl
  have hsplit := dropLast_append_getLast? (l := text.splitOnP (· == byte '\n'))
  simp only [parseProg, lines, filterMap_append, filterMap_map, hlast]
  rw [show progLine syscallNr ∘ (fun l => (l.dropSuffix? (ascii ['\r'])).getD l) = progLine syscallNr from
    funext (progLine_return syscallNr), ← filterMap_append]
  congr 1
  cases hl : (text.splitOnP (· == byte '\n')).getLast? with
  | none =>
    rw [getLast?_eq_none_iff.mp hl]
    rfl
  | some l => exact hsplit l hl

/-- The calls of a listing, line by line. -/
theorem filterMap_listing (h : Listing cs ls) (hcs : ∀ c ∈ cs, c.Printable syscallNr) :
    ls.filterMap (progLine syscallNr) = cs := by
  induction h with
  | nil => rfl
  | @call c cs ls before t after comment hbefore ht hafter hcomment _ ih =>
    rw [filterMap_cons_some (progLine_call (hcs c mem_cons_self) hbefore ht hafter hcomment),
      ih fun d hd => hcs d (mem_cons_of_mem c hd)]
  | skip hbefore hcomment _ ih => rw [filterMap_cons_none (progLine_skip syscallNr hbefore hcomment), ih hcs]

theorem newline_not_mem_comment (h : Comment s) : byte '\n' ∉ s := by
  rcases h with rfl | ⟨t, ht, rfl⟩
  · exact not_mem_nil
  · rw [mem_cons]
    exact fun h => h.elim (by decide) ht

/-- Each line of a listing is one line. -/
theorem newline_not_mem_listing (h : Listing cs ls) (hcs : ∀ c ∈ cs, c.Printable syscallNr) :
    ∀ l ∈ ls, byte '\n' ∉ l := by
  induction h with
  | nil => exact nofun
  | @call c cs ls before t after comment hbefore ht hafter hcomment _ ih =>
    refine forall_mem_cons.mpr ⟨?_, ih fun d hd => hcs d (mem_cons_of_mem c hd)⟩
    simp only [mem_append, not_or]
    exact ⟨hbefore.2, (neutral_call (hcs c mem_cons_self) ht).line, hafter.2, newline_not_mem_comment hcomment⟩
  | skip hbefore hcomment _ ih =>
    refine forall_mem_cons.mpr ⟨?_, ih hcs⟩
    rw [mem_append, not_or]
    exact ⟨hbefore.2, newline_not_mem_comment hcomment⟩

theorem parseProg_listing (h : Listing cs ls) (hcs : ∀ c ∈ cs, c.Printable syscallNr) :
    parseProg syscallNr ([byte '\n'].intercalate ls) = ⟨cs⟩ := by
  have hlines : ∀ l ∈ ls, ∀ b ∈ l, (b == byte '\n') = false := fun l hl b hb =>
    beq_eq_false_iff_ne.mpr fun heq => newline_not_mem_listing h hcs l hl (heq ▸ hb)
  have hcalls : (parseProg syscallNr ([byte '\n'].intercalate ls)).calls = cs := by
    rw [parseProg_calls, parseLines_intercalate (by decide) rfl hlines, filterMap_listing h hcs]
  exact congrArg Prog.mk hcalls

/-! ## Every call has a text -/

mutual

theorem Arg.exists_prints : ∀ a : Arg, ∃ u, a.Prints u
  | .int _ | .res .. | .ptr _ none | .csum | .nil => ⟨_, by rw [Arg.Prints]⟩
  | .ptr _ (some inner) | .out _ inner => by
    obtain ⟨u, hu⟩ := inner.exists_prints
    exact ⟨_, by rw [Arg.Prints]; exact ⟨u, hu, rfl⟩⟩
  | .data d => ⟨_, by rw [Arg.Prints]; exact .inl rfl⟩
  | .struct fs | .array fs => by
    obtain ⟨us, hus⟩ := Arg.exists_printsAll fs
    exact ⟨_, by rw [Arg.Prints]; exact ⟨us, hus, rfl⟩⟩
  | .union inner => by
    obtain ⟨u, hu⟩ := inner.exists_prints
    exact ⟨_, by rw [Arg.Prints]; exact ⟨ascii ['u'], u, all_eq_true.mp rfl, hu, rfl⟩⟩

theorem Arg.exists_printsAll : ∀ fs : List Arg, ∃ us, Arg.PrintsAll fs us
  | [] => ⟨[], by rw [Arg.PrintsAll]⟩
  | f :: fs => by
    obtain ⟨u, hu⟩ := f.exists_prints
    obtain ⟨us, hus⟩ := Arg.exists_printsAll fs
    exact ⟨u :: us, by rw [Arg.PrintsAll]; exact ⟨u, us, hu, hus, rfl⟩⟩

end

theorem Call.exists_prints (c : Call) : ∃ t, c.Prints t := by
  obtain ⟨us, hus⟩ := Arg.exists_printsAll c.args
  exact ⟨_, us, hus.forall₂, rfl⟩

/-- Program text is read back: a call from each of its texts, and a program from its lines, also with
comments on them and with blank and comment lines between them. -/
theorem text_round_trip (syscallNr : List U8 → Option Int) :
    (∀ c : Call, c.Printable syscallNr →
      (∃ t, c.Prints t) ∧ ∀ t, c.Prints t → parseCall syscallNr t = some c) ∧
    ∀ cs ls, (∀ c ∈ cs, Call.Printable syscallNr c) → Listing cs ls →
      parseProg syscallNr ([byte '\n'].intercalate ls) = ⟨cs⟩ :=
  ⟨fun c hc => ⟨c.exists_prints, fun _ ht => parseCall_prints hc ht⟩, fun _ _ hcs h => parseProg_listing h hcs⟩

/-- `r0 = write$x(0x5, &(0x7f0000000040)='a)#\'\n') (fail_nth: -3, async)`. -/
def writeCall : Call where
  name := ascii "write$x".toList
  base := ascii "write".toList
  nr := some 1
  args := [.int 5#64, .ptr 64#64 (some (.data (ascii "a)#'\n".toList)))]
  res := some 0#64
  failNth := some (-3#32)
  isAsync := true

/-- `close(r0)`. -/
def closeCall : Call where
  name := ascii "close".toList
  base := ascii "close".toList
  nr := some 1
  args := [.res 0#64 0#64 0#64]
  res := none
  failNth := none
  isAsync := false

theorem printable_both : ∀ c ∈ [writeCall, closeCall], c.Printable fun _ => some 1 := by
  refine forall_mem_cons.mpr ⟨⟨by decide, all_eq_true.mp rfl, by decide, rfl, by decide, ?_⟩, forall_mem_singleton.mpr ?_⟩
  · refine forall_mem_cons.mpr ⟨fun addr => by simp [Arg.nodes], forall_mem_singleton.mpr fun addr => ?_⟩
    simp [Arg.nodes]
  · exact ⟨by decide, all_eq_true.mp rfl, by decide, rfl, by decide, forall_mem_singleton.mpr fun addr => by simp [Arg.nodes]⟩

/-- A literal with a parenthesis, a `#` and a quote in it, a property block, a comment, an empty line
and a comment line. -/
theorem text_round_trip_write :
    parseProg (fun _ => some 1)
      (ascii "r0 = write$x(0x5, &(0x7f0000000040)='a)#\\'\\n') (fail_nth: -3, async) # c)\n\n#d\nclose(r0)".toList) =
    ⟨[writeCall, closeCall]⟩ := by
  have hquoted : Quoted (ascii "a)#'\n".toList) (ascii "a)#\\'\\n".toList) :=
    .raw (by decide) (by decide) (by decide) (.raw (by decide) (by decide) (by decide)
      (.raw (by decide) (by decide) (by decide) (.escape (c := byte '\'') (by decide) (by decide)
        (.escape (c := byte 'n') (by decide) (by decide) .nil))))
  have hdata : Arg.Prints (.data (ascii "a)#'\n".toList)) (byte '\'' :: (ascii "a)#\\'\\n".toList ++ [byte '\''])) := by
    rw [Arg.Prints]
    exact .inr ⟨_, hquoted, rfl⟩
  have hwrite : writeCall.Prints
      (ascii "r0 = write$x(0x5, &(0x7f0000000040)='a)#\\'\\n') (fail_nth: -3, async)".toList) :=
    ⟨[hex 5#64, ptrText 64#64 ++ byte '\'' :: (ascii "a)#\\'\\n".toList ++ [byte '\''])],
      .cons (by rw [Arg.Prints]) (.cons (by rw [Arg.Prints]; exact ⟨_, hdata, rfl⟩) .nil), by decide +kernel⟩
  have hclose : closeCall.Prints (ascii "close(r0)".toList) :=
    ⟨[refText 0#64 0#64 0#64], .cons (by rw [Arg.Prints]) .nil, by decide +kernel⟩
  have hblank : Blank [] := ⟨spaces_nil, not_mem_nil⟩
  have hspace : Blank [byte ' '] := ⟨spaces_singleton (by decide), by decide⟩
  have htext : ascii "r0 = write$x(0x5, &(0x7f0000000040)='a)#\\'\\n') (fail_nth: -3, async) # c)\n\n#d\nclose(r0)".toList =
      [byte '\n'].intercalate
        [[] ++ (ascii "r0 = write$x(0x5, &(0x7f0000000040)='a)#\\'\\n') (fail_nth: -3, async)".toList ++
            ([byte ' '] ++ byte '#' :: ascii " c)".toList)),
          [] ++ [], [] ++ byte '#' :: ascii "d".toList, [] ++ (ascii "close(r0)".toList ++ ([] ++ []))] := by
    decide +kernel
  rw [htext]
  exact (text_round_trip fun _ => some 1).2 _ _ printable_both
    (.call hblank hwrite hspace (.inr ⟨_, by decide, rfl⟩) (.skip hblank (.inl rfl)
      (.skip hblank (.inr ⟨_, by decide, rfl⟩) (.call hblank hclose hblank (.inl rfl) .nil))))

/-! ## Mutated programs -/

mutual

theorem Arg.height_blank : ∀ a : Arg, a.blank.height = a.height
  | .ptr _ (some inner) | .union inner | .out _ inner => by rw [blank, height, height_blank inner, height]
  | .struct fs | .array fs => by rw [blank, height, heightAll_blank fs, height]
  | .int _ | .res .. | .ptr _ none | .data _ | .csum | .nil => rfl

theorem Arg.heightAll_blank : ∀ fs : List Arg, heightAll (blankAll fs) = heightAll fs
  | [] => rfl
  | f :: fs => by rw [blankAll, heightAll, height_blank f, heightAll_blank fs, heightAll]

end

theorem Arg.eq_of_blank_eq {n : Arg} {addr : U64} (h : n.blank = .ptr addr (some .nil)) : n = .ptr addr (some .nil) := by
  cases n with
  | ptr addr' target =>
    rcases target with _ | ⟨_ | _ | ⟨_, _ | _⟩ | _⟩
    all_goals simp_all [blank]
  | _ => simp [blank] at h

/-- The values of leaves have no part in whether a call can be written. -/
theorem Call.Printable.of_blank {c o : Call} (h : c.blank = o.blank) (ho : o.Printable syscallNr) :
    c.Printable syscallNr := by
  obtain ⟨name, base, nr, args, res, failNth, isAsync⟩ := c
  simp only [Call.blank, Call.mk.injEq] at h
  obtain ⟨rfl, rfl, rfl, hargs, -⟩ := h
  have htwin : ∀ a ∈ args, ∃ b ∈ o.args, b.blank = a.blank := fun a ha => by
    rw [← mem_map, ← hargs]
    exact mem_map_of_mem ha
  refine ⟨ho.name_ne_nil, ho.name, ho.base, ho.nr, fun a ha => ?_, fun a ha addr hmem => ?_⟩
  · obtain ⟨b, hb, hblank⟩ := htwin a ha
    rw [← a.height_blank, ← hblank, b.height_blank]
    exact ho.height b hb
  · obtain ⟨b, hb, hblank⟩ := htwin a ha
    have hnodes := mem_map_of_mem (f := Arg.blank) hmem
    rw [← a.nodes_blank, ← hblank, b.nodes_blank] at hnodes
    obtain ⟨n, hn, heq⟩ := mem_map.mp hnodes
    rw [Arg.eq_of_blank_eq heq] at hn
    exact ho.pointee b hb addr hn

theorem mutateRounds_nil (n : Nat) (rng : Rng) : (mutateRounds n ⟨[]⟩ rng).1 = ⟨[]⟩ := by
  induction n with
  | zero => rfl
  | succ n ih => exact ih

/-- After any rounds of mutation the calls of a program can be written where they could before, and the program is read back
from each of its texts. -/
theorem mutated_read_back {prog : Prog} (hprog : ∀ c ∈ prog.calls, c.Printable syscallNr) (rng : Rng) (n : Nat) :
    let mutated := (mutateRounds n prog rng).1
    (∀ c ∈ mutated.calls, c.Printable syscallNr ∧ ∃ t, c.Prints t) ∧
      ∀ ls, Listing mutated.calls ls → parseProg syscallNr ([byte '\n'].intercalate ls) = mutated := by
  intro mutated
  have hmutated : ∀ c ∈ mutated.calls, c.Printable syscallNr := by
    intro c hc
    by_cases hne : prog.calls = []
    · obtain ⟨calls⟩ := prog
      obtain rfl : calls = [] := hne
      have hnil : mutated.calls = [] := congrArg Prog.calls (mutateRounds_nil n rng)
      rw [hnil] at hc
      exact absurd hc not_mem_nil
    · obtain ⟨o, ho, hblank⟩ := ((Descends.refl hne).mutateRounds n rng).variant c hc
      exact (hprog o ho).of_blank hblank
  exact ⟨fun c hc => ⟨hmutated c hc, c.exists_prints⟩, fun ls h => parseProg_listing h hmutated⟩

theorem mutated_read_back_two : (∀ c ∈ [writeCall, closeCall], c.Printable fun _ => some 1) ∧
    ∀ c ∈ (mutateRounds 9 ⟨[writeCall, closeCall]⟩ (Rng.new 1#64)).1.calls,
      c.Printable (fun _ => some 1) ∧ ∃ t, c.Prints t :=
  ⟨printable_both, (mutated_read_back printable_both (Rng.new 1#64) 9).1⟩

end Vock.Fuzz
