import Mathlib.Data.List.TakeWhile
import Vock.Laws.Fuzz.Literals

/-!
# Printed arguments

How an argument tree is written (`Arg.Prints`), with the choices a printer has: a buffer in hex or as
a quoted literal, the escapes in a literal, the name of a union's option. The parser gets the tree
back from any of its texts, in front of whatever may follow an argument (`arg_prints`), and both
searches of a line pass over it (`neutral_prints`).
-/

namespace Vock.Fuzz

open Library List

variable {us : List (List U8)} {fs as : List Arg} {a inner : Arg} {b close : U8} {u rest t : List U8} {depth : Nat}
  {f : List U8 → Arg × List U8} {tail : List U8}

/-! ## The printer -/

/-- Texts with a comma and a space between them. -/
def commaJoin : List (List U8) → List U8
  | [] => []
  | [t] => t
  | t :: ts => t ++ byte ',' :: byte ' ' :: commaJoin ts

theorem commaJoin_cons_cons (t u : List U8) (ts : List (List U8)) :
    commaJoin (t :: u :: ts) = t ++ byte ',' :: byte ' ' :: commaJoin (u :: ts) := rfl

/-- A pointer up to its pointee. -/
def ptrText (addr : U64) : List U8 :=
  byte '&' :: byte '(' :: (hex (encodingAddrBase + addr) ++ [byte ')', byte '='])

/-- The label of a produced field. -/
def labelText (slot : U64) : List U8 := byte '<' :: byte 'r' :: (dec slot.toNat ++ [byte '=', byte '>'])

/-- A byte of an identifier. -/
def isIdentByte (b : U8) : Bool := isAlphanumeric b || b == byte '_'

mutual

/-- The text is one of those written for the argument. -/
def Arg.Prints : Arg → List U8 → Prop
  | .int v, t => t = hex v
  | .res idx div add, t => t = refText idx div add
  | .ptr addr none, t => t = ptrText addr ++ ascii ['n', 'i', 'l']
  | .ptr addr (some inner), t => ∃ u, Arg.Prints inner u ∧ t = ptrText addr ++ u
  | .data d, t =>
    t = byte '"' :: (d.flatMap hexByte ++ [byte '"']) ∨ ∃ u, Quoted d u ∧ t = byte '\'' :: (u ++ [byte '\''])
  | .struct fields, t => ∃ us, Arg.PrintsAll fields us ∧ t = byte '{' :: (commaJoin us ++ [byte '}'])
  | .array fields, t => ∃ us, Arg.PrintsAll fields us ∧ t = byte '[' :: (commaJoin us ++ [byte ']'])
  | .union inner, t => ∃ name u, (∀ b ∈ name, isIdentByte b = true) ∧ Arg.Prints inner u ∧
      t = byte '@' :: (name ++ byte '=' :: u)
  | .csum, t => t = ascii ['c', 's', 'u', 'm']
  | .out slot inner, t => ∃ u, Arg.Prints inner u ∧ t = labelText slot ++ u
  | .nil, t => t = ascii ['n', 'i', 'l']

def Arg.PrintsAll : List Arg → List (List U8) → Prop
  | [], ts => ts = []
  | f :: fs, ts => ∃ u us, Arg.Prints f u ∧ Arg.PrintsAll fs us ∧ ts = u :: us

end

mutual

/-- How deep a tree is nested. -/
def Arg.height : Arg → Nat
  | .ptr _ (some inner) => Arg.height inner + 1
  | .struct fields => Arg.heightAll fields + 1
  | .array fields => Arg.heightAll fields + 1
  | .union inner => Arg.height inner + 1
  | .out _ inner => Arg.height inner + 1
  | _ => 1

def Arg.heightAll : List Arg → Nat
  | [] => 0
  | f :: fs => max (Arg.height f) (Arg.heightAll fs)

end

theorem Arg.height_le_heightAll {f : Arg} (h : f ∈ fs) : f.height ≤ Arg.heightAll fs := by
  induction fs with
  | nil => cases h
  | cons g fs ih =>
    rcases mem_cons.mp h with rfl | h
    · exact Nat.le_max_left _ _
    · exact (ih h).trans (Nat.le_max_right _ _)

/-- No pointer of the tree has `nil` for its pointee: such a one is written as one without. -/
def Arg.NoNilPointee (a : Arg) : Prop := ∀ addr, .ptr addr (some .nil) ∉ a.nodes

theorem Arg.PrintsAll.forall₂ (h : Arg.PrintsAll fs us) : List.Forall₂ Arg.Prints fs us := by
  induction fs generalizing us with
  | nil =>
    rw [h]
    exact .nil
  | cons f fs ih =>
    obtain ⟨u, us, hu, hus, rfl⟩ := h
    exact .cons hu (ih hus)

/-- The bytes a printed argument begins with. -/
def openers : List U8 := ascii ['0', 'r', '&', '"', '\'', '{', '[', '@', 'c', '<', 'n']

theorem Arg.Prints.head (h : a.Prints t) : ∃ b s, t = b :: s ∧ b ∈ openers ∧ (b = byte 'n' → a = .nil) := by
  have hne : ∀ {b}, b ≠ byte 'n' → b = byte 'n' → a = .nil := fun hb heq => absurd heq hb
  cases a with
  | int v => rw [Arg.Prints] at h; exact ⟨byte '0', _, h, by decide, hne (by decide)⟩
  | res idx div add => rw [Arg.Prints] at h; exact ⟨byte 'r', _, h, by decide, hne (by decide)⟩
  | ptr addr inner =>
    cases inner with
    | none => rw [Arg.Prints] at h; exact ⟨byte '&', _, h, by decide, hne (by decide)⟩
    | some inner =>
      obtain ⟨u, -, rfl⟩ := h
      exact ⟨byte '&', _, rfl, by decide, hne (by decide)⟩
  | data d =>
    rcases h with rfl | ⟨u, -, rfl⟩
    · exact ⟨byte '"', _, rfl, by decide, hne (by decide)⟩
    · exact ⟨byte '\'', _, rfl, by decide, hne (by decide)⟩
  | struct fs =>
    obtain ⟨us, -, rfl⟩ := h
    exact ⟨byte '{', _, rfl, by decide, hne (by decide)⟩
  | array fs =>
    obtain ⟨us, -, rfl⟩ := h
    exact ⟨byte '[', _, rfl, by decide, hne (by decide)⟩
  | union inner =>
    obtain ⟨name, u, -, -, rfl⟩ := h
    exact ⟨byte '@', _, rfl, by decide, hne (by decide)⟩
  | csum => rw [Arg.Prints] at h; exact ⟨byte 'c', _, h, by decide, hne (by decide)⟩
  | out slot inner =>
    obtain ⟨u, -, rfl⟩ := h
    exact ⟨byte '<', _, rfl, by decide, hne (by decide)⟩
  | nil => rw [Arg.Prints] at h; exact ⟨byte 'n', _, h, by decide, fun _ => rfl⟩

theorem isVisible_of_openers : ∀ b ∈ openers, isVisible b = true := all_eq_true.mp rfl

@[simp] theorem peek_cons (b : U8) (s : List U8) : peek (b :: s) = b := rfl

/-- The text begins as an argument does. -/
def Opens (u : List U8) : Prop := ∃ b s, u = b :: s ∧ b ∈ openers

/-! ## Lists -/

/-- What may follow an argument: the end, or what a list goes on or ends with. -/
def Follows (rest : List U8) : Prop := ∀ b ∈ rest.head?, b = byte ',' ∨ b = byte '}' ∨ b = byte ']'

theorem isSep_of_follows (h : Follows rest) : ∀ b ∈ rest.head?, isSep b = true := by
  intro b hb
  rcases h b hb with rfl | rfl | rfl <;> decide

/-- The parser gets the argument from the text, in front of what may follow. -/
def Reads (f : List U8 → Arg × List U8) (a : Arg) (u : List U8) : Prop :=
  ∀ rest, Follows rest → f (u ++ rest) = (a, rest)

theorem eatWs_of_follows (h : Follows rest) : eatWs rest = rest := by
  cases rest with
  | nil => rfl
  | cons b rest => exact eatWs_cons (by rcases h b rfl with rfl | rfl | rfl <;> decide) rest

/-- One round of `list` on a printed argument. -/
private theorem listLoop_round (hclose : close ∉ openers) (hhead : Opens u) (hreads : Reads f a u)
    (hrest : Follows rest) (fuel : Nat) :
    listLoop f close (fuel + 1) (u ++ rest) =
      if peek rest = byte ',' then (listLoop f close fuel (rest.drop 1)).map (a :: ·) id
      else if peek rest = close then ([a], rest.drop 1)
      else (listLoop f close fuel rest).map (a :: ·) id := by
  obtain ⟨b, s, rfl, hb⟩ := hhead
  have heat : eatWs (b :: s ++ rest) = b :: s ++ rest := eatWs_cons (isVisible_of_openers b hb) _
  have hpeek : peek (b :: s ++ rest) ≠ close := fun h => hclose (h ▸ hb)
  have hlonger : rest.length ≠ (b :: s ++ rest).length := by
    rw [length_append, length_cons]
    omega
  rw [listLoop]
  simp only [heat, if_neg hpeek, hreads rest hrest, eatWs_of_follows hrest, if_neg hlonger]
  rfl

/-- A printed list is read back, up to what ends it: the end of the text for `close` 0. -/
theorem listLoop_commaJoin (hclose : close ∉ openers)
    (hcomma : close ≠ byte ',') (htail : Follows tail) (hpeek : peek tail = close)
    (h : List.Forall₂ (fun a u => Opens u ∧ Reads f a u) as us) {fuel : Nat}
    (hfuel : us.length < fuel) : listLoop f close fuel (commaJoin us ++ tail) = (as, tail.drop 1) := by
  induction h generalizing fuel with
  | nil =>
    obtain ⟨fuel, rfl⟩ : ∃ n, fuel = n + 1 := ⟨fuel - 1, by simp at hfuel; omega⟩
    rw [commaJoin, nil_append, listLoop, eatWs_of_follows htail]
    cases tail with
    | nil => rfl
    | cons b tail => simp only [hpeek]; rfl
  | @cons a u as us hau hrest ih =>
    obtain ⟨fuel, rfl⟩ : ∃ n, fuel = n + 1 := ⟨fuel - 1, by simp at hfuel; omega⟩
    have hfuel' : us.length < fuel := by simpa using hfuel
    cases hrest with
    | nil =>
      rw [commaJoin, listLoop_round hclose hau.1 hau.2 htail, if_neg (by rw [hpeek]; exact hcomma), if_pos hpeek]
    | @cons a' u' as us hau' hrest =>
      -- a comma and a space, and the next argument
      have hspace : ∀ s, listLoop f close fuel (byte ' ' :: s) = listLoop f close fuel s := by
        intro s
        cases fuel with
        | zero => exact absurd hfuel' (Nat.not_lt_zero _)
        | succ fuel => rw [listLoop, listLoop, show eatWs (byte ' ' :: s) = eatWs s from rfl]
      have hfollows : Follows (byte ',' :: byte ' ' :: (commaJoin (u' :: us) ++ tail)) := by
        rintro b ⟨⟩
        exact .inl rfl
      rw [commaJoin, append_assoc, cons_append, cons_append, listLoop_round hclose hau.1 hau.2 hfollows, drop_succ_cons, drop_zero, hspace, ih hfuel']
      · rfl
      · simp

theorem length_le_commaJoin (h : ∀ u ∈ us, u ≠ []) : us.length ≤ (commaJoin us).length := by
  induction us with
  | nil => exact Nat.le_refl _
  | cons u us ih =>
    have hu := length_pos_of_ne_nil (h u mem_cons_self)
    cases us with
    | nil => exact hu
    | cons u' us =>
      have := ih fun v hv => h v (mem_cons_of_mem u hv)
      rw [commaJoin_cons_cons, length_append]
      simp only [length_cons] at *
      omega

theorem list_commaJoin (hclose : close ∉ openers)
    (hcomma : close ≠ byte ',') (htail : Follows tail) (hpeek : peek tail = close)
    (h : List.Forall₂ (fun a u => Opens u ∧ Reads f a u) as us) :
    list f close (commaJoin us ++ tail) = (as, tail.drop 1) := by
  refine listLoop_commaJoin hclose hcomma htail hpeek h ?_
  have hne : ∀ {as us}, Forall₂ (fun a u => Opens u ∧ Reads f a u) as us → ∀ u ∈ us, u ≠ [] := by
    intro as us h
    induction h with
    | nil => exact fun u hu => absurd hu not_mem_nil
    | cons hau _ ih =>
      obtain ⟨⟨b, s, rfl, -⟩, -⟩ := hau
      exact forall_mem_cons.mpr ⟨cons_ne_nil b s, ih⟩
  have := length_le_commaJoin (hne h)
  rw [length_append]
  omega

/-! ## Each form of an argument -/

section

variable {f : List U8 → Arg × List U8}

theorem argInner_word (hb : isWordByte b = true) (s : List U8) : argInner f (b :: s) = word (b :: s) := by
  have hne {c : U8} (hc : isWordByte c = false) : b ≠ c := ne_of_class hb hc
  rw [argInner, peek_cons, if_neg (hne (by decide)), argToken, peek_cons, if_neg (hne (by decide)), if_neg (hne (by decide)),
    if_neg (hne (by decide)), if_neg (hne (by decide)), if_neg (hne (by decide)), if_neg (hne (by decide))]

theorem reads_hex (v : U64) : Reads (argInner f) (.int v) (hex v) := by
  intro rest hrest
  rw [← word_hex v (isSep_of_follows hrest)]
  exact argInner_word (by decide) _

theorem reads_refText (idx div add : U64) : Reads (argInner f) (.res idx div add) (refText idx div add) := by
  intro rest hrest
  rw [← word_refText idx div add (isSep_of_follows hrest)]
  exact argInner_word (by decide) _

theorem reads_csum : Reads (argInner f) .csum (ascii ['c', 's', 'u', 'm']) := by
  intro rest hrest
  rw [← word_csum (isSep_of_follows hrest)]
  exact argInner_word (by decide) _

theorem reads_nil : Reads (argInner f) .nil (ascii ['n', 'i', 'l']) := by
  intro rest hrest
  rw [← word_nil (isSep_of_follows hrest)]
  exact argInner_word (by decide) _

/-- The address is read back: `ENCODING_ADDR_BASE` is taken off again. -/
theorem ptrAddr_ptrText (addr : U64) (s : List U8) :
    ptrAddr ((ptrText addr ++ s).drop 1) = (addr, byte '=' :: s) := by
  have hplain : ∀ b ∈ hex (encodingAddrBase + addr), b ≠ byte ')' ∧ b ≠ byte '\\' := fun b hb =>
    ⟨ne_of_class (mem_hex hb) (by decide), ne_of_class (mem_hex hb) (by decide)⟩
  have huntil : until' (byte ')') (hex (encodingAddrBase + addr) ++ byte ')' :: byte '=' :: s) =
      (hex (encodingAddrBase + addr), byte '=' :: s) := until'_enclosed (by decide) (enclosed_of_plain hplain) _
  have htake : (hex (encodingAddrBase + addr)).takeWhile (· ≠ byte '/') = hex (encodingAddrBase + addr) := by
    exact takeWhile_eq_self_iff.mpr fun b hb => decide_eq_true (ne_of_class (mem_hex hb) (by decide))
  have hdrop : (ptrText addr ++ s).drop 1 =
      byte '(' :: (hex (encodingAddrBase + addr) ++ byte ')' :: byte '=' :: s) := by
    simp [ptrText]
  have hauto : (byte '(' :: (hex (encodingAddrBase + addr) ++ byte ')' :: byte '=' :: s)).dropPrefix?
      (ascii ['A', 'U', 'T', 'O']) = none := rfl
  have hsub : encodingAddrBase + addr - encodingAddrBase = addr := by rw [BitVec.add_comm, BitVec.add_sub_cancel]
  rw [hdrop, ptrAddr]
  simp only [hauto, eatWs_cons (show isVisible (byte '(') = true by decide), peek_cons, if_true, drop_succ_cons,
    drop_zero, huntil, htake, trim_hex, parseInt_hex, Option.getD_some, hsub]

theorem dropPrefix?_of_ne {c : U8} (h : b ≠ c) (s cs : List U8) : (b :: s).dropPrefix? (c :: cs) = none := by
  simp [dropPrefix?, h]

private theorem argInner_ptrText (addr : U64) (hb : b ∈ openers) (s : List U8) :
    argInner f (ptrText addr ++ b :: s) =
      ((b :: s).dropPrefix? (ascii ['n', 'i', 'l'])).elim ((f (b :: s)).map (.ptr addr ∘ some) id)
        fun rest => (.ptr addr none, rest) := by
  have htoken : argInner f (ptrText addr ++ b :: s) = ptr f (ptrText addr ++ b :: s) := by
    have hpeek : peek (ptrText addr ++ b :: s) = byte '&' := rfl
    rw [argInner, hpeek, if_neg (by decide), argToken, hpeek, if_pos rfl]
  have hany : (b :: s).dropPrefix? (ascii ['A', 'N', 'Y', '=']) = none := by
    refine dropPrefix?_of_ne ?_ _ _
    rintro rfl
    exact absurd hb (by decide)
  rw [htoken, ptr, ptrAddr_ptrText]
  simp only [eatWs_cons (show isVisible (byte '=') = true by decide), peek_cons, if_true, drop_succ_cons,
    drop_zero, eatWs_cons (isVisible_of_openers b hb), hany, Option.getD_none]
  split
  next rest hrest => rw [hrest]; rfl
  next hrest => rw [hrest]; rfl

theorem reads_ptrNone (addr : U64) : Reads (argInner f) (.ptr addr none) (ptrText addr ++ ascii ['n', 'i', 'l']) := by
  intro rest _
  have hnil : (byte 'n' :: (ascii ['i', 'l'] ++ rest)).dropPrefix? (ascii ['n', 'i', 'l']) = some rest :=
    dropPrefix?_append (ascii ['n', 'i', 'l']) rest
  rw [append_assoc, show ascii ['n', 'i', 'l'] ++ rest = byte 'n' :: (ascii ['i', 'l'] ++ rest) from rfl,
    argInner_ptrText addr (by decide), hnil, Option.elim_some]

theorem reads_ptr (addr : U64) {s : List U8} (hb : b ∈ openers) (hnil : b ≠ byte 'n')
    (hinner : Reads f inner (b :: s)) : Reads (argInner f) (.ptr addr (some inner)) (ptrText addr ++ b :: s) := by
  intro rest hrest
  have hread := hinner rest hrest
  rw [cons_append] at hread
  rw [append_assoc, cons_append, argInner_ptrText addr hb, ascii, map_cons, dropPrefix?_of_ne hnil, hread]
  rfl

theorem optSizeSuffix_of_follows (h : Follows rest) : optSizeSuffix rest = rest := by
  refine if_neg fun hslash => ?_
  cases rest with
  | nil => exact absurd hslash (by decide)
  | cons b rest =>
    rw [peek_cons] at hslash
    rcases h b rfl with rfl | rfl | rfl <;> exact absurd hslash (by decide)

theorem reads_hexData (d : List U8) : Reads (argInner f) (.data d) (byte '"' :: (d.flatMap hexByte ++ [byte '"'])) := by
  intro rest hrest
  have huntil := until'_enclosed (by decide) (enclosed_hexBytes d) rest
  have htoken : argInner f (byte '"' :: (d.flatMap hexByte ++ byte '"' :: rest)) =
      (until' (byte '"') (d.flatMap hexByte ++ byte '"' :: rest)).map (.data ∘ decodeHexBytes) optSizeSuffix := rfl
  rw [cons_append, append_assoc, singleton_append, htoken, huntil, Prod.map_apply,
    optSizeSuffix_of_follows hrest, Function.comp_apply, decodeHexBytes_hexBytes]

theorem reads_quoted {d : List U8} (h : Quoted d t) : Reads (argInner f) (.data d) (byte '\'' :: (t ++ [byte '\''])) := by
  intro rest hrest
  have huntil := until'_enclosed (by decide) (enclosed_quoted h) rest
  have htoken : argInner f (byte '\'' :: (t ++ byte '\'' :: rest)) =
      (until' (byte '\'') (t ++ byte '\'' :: rest)).map (.data ∘ unescape) optSizeSuffix := rfl
  rw [cons_append, append_assoc, singleton_append, htoken, huntil, Prod.map_apply,
    optSizeSuffix_of_follows hrest, Function.comp_apply, unescape_quoted h]

theorem reads_struct (h : List.Forall₂ (fun a u => Opens u ∧ Reads f a u) fs us) :
    Reads (argInner f) (.struct fs) (byte '{' :: (commaJoin us ++ [byte '}'])) := by
  intro rest _
  have htoken : argInner f (byte '{' :: (commaJoin us ++ byte '}' :: rest)) =
      (list f (byte '}') (commaJoin us ++ byte '}' :: rest)).map .struct id := rfl
  have hfollows : Follows (byte '}' :: rest) := by
    rintro b ⟨⟩
    exact .inr (.inl rfl)
  rw [cons_append, append_assoc, singleton_append, htoken,
    list_commaJoin (by decide) (by decide) hfollows (peek_cons _ _) h]
  rfl

theorem reads_array (h : List.Forall₂ (fun a u => Opens u ∧ Reads f a u) fs us) :
    Reads (argInner f) (.array fs) (byte '[' :: (commaJoin us ++ [byte ']'])) := by
  intro rest _
  have htoken : argInner f (byte '[' :: (commaJoin us ++ byte ']' :: rest)) =
      (list f (byte ']') (commaJoin us ++ byte ']' :: rest)).map .array id := rfl
  have hfollows : Follows (byte ']' :: rest) := by
    rintro b ⟨⟩
    exact .inr (.inr rfl)
  rw [cons_append, append_assoc, singleton_append, htoken,
    list_commaJoin (by decide) (by decide) hfollows (peek_cons _ _) h]
  rfl

theorem isWordByte_of_isIdentByte (h : isIdentByte b = true) : isWordByte b = true := by
  rw [isIdentByte] at h
  simp [isWordByte, h]

theorem reads_union {name : List U8} (hname : ∀ b ∈ name, isIdentByte b = true)
    (hinner : Reads f inner u) : Reads (argInner f) (.union inner) (byte '@' :: (name ++ byte '=' :: u)) := by
  intro rest hrest
  have hpass (b : U8) (hb : isIdentByte b = true) : (b ≠ byte '=' && !isSep b) = true := by
    rw [Bool.and_eq_true, isSep_of_isWordByte b (isWordByte_of_isIdentByte hb)]
    exact ⟨decide_eq_true (ne_of_class hb (by decide)), rfl⟩
  have hdrop : (name ++ byte '=' :: (u ++ rest)).dropWhile (fun b => b ≠ byte '=' && !isSep b) =
      byte '=' :: (u ++ rest) := by
    rw [dropWhile_append_of_pos fun b hb => hpass b (hname b hb)]
    exact dropWhile_cons_of_neg (by decide)
  have htoken : argInner f (byte '@' :: (name ++ byte '=' :: (u ++ rest))) =
      union f (byte '@' :: (name ++ byte '=' :: (u ++ rest))) := rfl
  rw [cons_append, append_assoc, cons_append, htoken, union]
  simp only [drop_succ_cons, drop_zero, hdrop, eatWs_cons (show isVisible (byte '=') = true by decide),
    peek_cons, if_true, hinner rest hrest, Prod.map_apply, id_eq]

theorem labelSlot_dec (slot : U64) : labelSlot (byte 'r' :: dec slot.toNat) = some slot := by
  have hvis : ∀ b ∈ byte 'r' :: dec slot.toNat, isVisible b = true := by
    refine forall_mem_cons.mpr ⟨by decide, fun b hb => ?_⟩
    exact isVisible_of_isWordByte b (isWordByte_of_isAlphanumeric (isAlphanumeric_of_isDigit (mem_dec hb)))
  have hdrop : (byte 'r' :: dec slot.toNat).dropPrefix? (ascii ['r']) = some (dec slot.toNat) :=
    dropPrefix?_append (ascii ['r']) _
  rw [labelSlot, trim_of_visible hvis, hdrop, Option.bind_some, fromStrRadix_dec]

theorem reads_out (slot : U64) (hinner : Reads f inner u) :
    Reads (argInner f) (.out slot inner) (labelText slot ++ u) := by
  intro rest hrest
  have hplain : ∀ b ∈ byte 'r' :: (dec slot.toNat ++ [byte '=']), b ≠ byte '>' ∧ b ≠ byte '\\' := by
    refine forall_mem_cons.mpr ⟨by decide, forall_mem_append.mpr ⟨fun b hb => ?_, by decide⟩⟩
    exact ⟨ne_of_class (mem_dec hb) (by decide), ne_of_class (mem_dec hb) (by decide)⟩
  have huntil : until' (byte '>') (byte 'r' :: (dec slot.toNat ++ [byte '=']) ++ byte '>' :: (u ++ rest)) =
      (byte 'r' :: (dec slot.toNat ++ [byte '=']), u ++ rest) :=
    until'_enclosed (by decide) (enclosed_of_plain hplain) _
  have hsuffix : (byte 'r' :: (dec slot.toNat ++ [byte '='])).dropSuffix? (ascii ['=']) =
      some (byte 'r' :: dec slot.toNat) :=
    dropSuffix?_eq_some_iff.mpr ⟨ascii ['='], rfl, beq_self_eq_true _⟩
  have htext : labelText slot ++ u ++ rest =
      byte '<' :: (byte 'r' :: (dec slot.toNat ++ [byte '=']) ++ byte '>' :: (u ++ rest)) := by
    simp [labelText]
  rw [htext, argInner, peek_cons, if_pos rfl]
  simp only [drop_succ_cons, drop_zero, huntil, hsuffix, labelSlot_dec, hinner rest hrest, Prod.map_apply,
    id_eq]

end

/-! ## Trees -/

theorem Arg.NoNilPointee.mono (h : a.NoNilPointee) (hsub : inner.nodes ⊆ a.nodes) :
    inner.NoNilPointee := fun addr hmem => h addr (hsub hmem)

theorem Arg.NoNilPointee.field (h : ∀ addr, .ptr addr (some .nil) ∉ Arg.nodesAll fs) {f : Arg}
    (hf : f ∈ fs) : f.NoNilPointee := by
  intro addr hmem
  refine h addr ?_
  rw [Arg.nodesAll_eq]
  exact mem_flatMap.mpr ⟨f, hf, hmem⟩

theorem Arg.height_pos (a : Arg) : 0 < a.height := by
  cases a with
  | ptr addr inner => cases inner <;> exact Nat.succ_pos _
  | _ => exact Nat.succ_pos _

theorem Arg.Prints.opens (h : a.Prints u) : Opens u := by
  obtain ⟨b, s, rfl, hb, -⟩ := h.head
  exact ⟨b, s, rfl, hb⟩

/-- One level down. -/
private theorem reads_arg
    (h : ∀ {u depth}, a.height ≤ depth + 1 → a.NoNilPointee → a.Prints u → Reads (argInner (arg depth)) a u)
    (hdepth : a.height ≤ depth) (hnil : a.NoNilPointee) (hu : a.Prints u) :
    Reads (arg depth) a u := by
  obtain ⟨depth, rfl⟩ : ∃ d, depth = d + 1 := ⟨depth - 1, by have := a.height_pos; omega⟩
  intro rest hrest
  have hread := h hdepth hnil hu rest hrest
  obtain ⟨b, s, rfl, hb⟩ := hu.opens
  rwa [arg, cons_append, eatWs_cons (isVisible_of_openers b hb)]

theorem forall₂_reads {g : List U8 → Arg × List U8} (h : ∀ a ∈ as, ∀ u, a.Prints u → Reads g a u)
    (hus : List.Forall₂ Arg.Prints as us) :
    List.Forall₂ (fun a u => Opens u ∧ Reads g a u) as us := by
  induction hus with
  | nil => exact .nil
  | @cons a u as us hu _ ih =>
    exact .cons ⟨hu.opens, h a mem_cons_self u hu⟩ (ih fun b hb => h b (mem_cons_of_mem a hb))

private theorem reads_fields
    (h : ∀ f ∈ fs, ∀ {u depth}, f.height ≤ depth + 1 → f.NoNilPointee → f.Prints u → Reads (argInner (arg depth)) f u)
    (hdepth : Arg.heightAll fs ≤ depth) (hnil : ∀ addr, .ptr addr (some .nil) ∉ Arg.nodesAll fs)
    (hus : Arg.PrintsAll fs us) :
    List.Forall₂ (fun a u => Opens u ∧ Reads (arg depth) a u) fs us := by
  refine forall₂_reads (fun f hf u hu => ?_) hus.forall₂
  exact reads_arg (h f hf) ((Arg.height_le_heightAll hf).trans hdepth) (.field hnil hf) hu

private theorem argInner_prints (hdepth : a.height ≤ depth + 1) (hnil : a.NoNilPointee) (hu : a.Prints u) :
    Reads (argInner (arg depth)) a u := by
  induction a generalizing depth u with
  | int v => exact hu ▸ reads_hex v
  | res idx div add => exact hu ▸ reads_refText idx div add
  | ptrNone addr => exact hu ▸ reads_ptrNone addr
  | ptrSome addr inner ih =>
    obtain ⟨u, hu, rfl⟩ := hu
    have hsub : inner.nodes ⊆ (Arg.ptr addr (some inner)).nodes := subset_cons_self _ _
    have hread := reads_arg ih (Nat.le_of_succ_le_succ hdepth) (hnil.mono hsub) hu
    obtain ⟨b, s, rfl, hb, hn⟩ := hu.head
    refine reads_ptr addr hb (fun heq => hnil addr ?_) hread
    rw [hn heq]
    exact mem_cons_self
  | data d =>
    rcases hu with rfl | ⟨t, ht, rfl⟩
    · exact reads_hexData d
    · exact reads_quoted ht
  | struct fs ih =>
    obtain ⟨us, hus, rfl⟩ := hu
    exact reads_struct (reads_fields ih (Nat.le_of_succ_le_succ hdepth)
      (fun addr hmem => hnil addr (mem_cons_of_mem _ hmem)) hus)
  | array fs ih =>
    obtain ⟨us, hus, rfl⟩ := hu
    exact reads_array (reads_fields ih (Nat.le_of_succ_le_succ hdepth)
      (fun addr hmem => hnil addr (mem_cons_of_mem _ hmem)) hus)
  | union inner ih =>
    obtain ⟨name, u, hname, hu, rfl⟩ := hu
    exact reads_union hname (reads_arg ih (Nat.le_of_succ_le_succ hdepth) (hnil.mono (subset_cons_self _ _)) hu)
  | csum => exact hu ▸ reads_csum
  | out slot inner ih =>
    obtain ⟨u, hu, rfl⟩ := hu
    exact reads_out slot (reads_arg ih (Nat.le_of_succ_le_succ hdepth) (hnil.mono (subset_cons_self _ _)) hu)
  | nil => exact hu ▸ reads_nil

/-- A tree that is not nested deeper than the parser goes is read back from each of its texts. -/
theorem arg_prints (hdepth : a.height ≤ depth) (hnil : a.NoNilPointee)
    (hu : a.Prints u) : Reads (arg depth) a u := reads_arg argInner_prints hdepth hnil hu

/-- The arguments of a call are read back up to the end of the text. -/
theorem list_prints (hdepth : ∀ a ∈ as, a.height ≤ depth)
    (hnil : ∀ a ∈ as, a.NoNilPointee) (hus : List.Forall₂ Arg.Prints as us) :
    (list (arg depth) 0#8 (commaJoin us)).1 = as := by
  have hreads := forall₂_reads (fun a ha u hu => arg_prints (hdepth a ha) (hnil a ha) hu) hus
  have hend : Follows [] := nofun
  have := list_commaJoin (by decide) (by decide) hend rfl hreads
  rw [append_nil] at this
  exact congrArg Prod.fst this

/-! ## The searches pass over arguments -/

theorem isPlain_of_isWordByte (b : U8) (hb : isWordByte b = true) : isPlain b = true := by
  have hne {c : U8} (hc : isWordByte c = false) : (b != c) = true := bne_iff_ne.mpr (ne_of_class hb hc)
  rw [isPlain, hne (by decide), hne (by decide), hne (by decide), hne (by decide), hne (by decide), hne (by decide)]
  rfl

theorem neutral_hex (v : U64) : Neutral (hex v) :=
  neutral_of_plain fun b hb => isPlain_of_isWordByte b (isWordByte_of_isAlphanumeric (mem_hex hb))

theorem neutral_dec (n : Nat) : Neutral (dec n) := neutral_of_plain fun b hb =>
  isPlain_of_isWordByte b (isWordByte_of_isAlphanumeric (isAlphanumeric_of_isDigit (mem_dec hb)))

theorem neutral_ptrText (addr : U64) : Neutral (ptrText addr) := by
  have heq : ptrText addr =
      ascii ['&'] ++ (byte '(' :: (hex (encodingAddrBase + addr) ++ [byte ')']) ++ ascii ['=']) := by
    simp [ptrText, ascii]
  rw [heq]
  exact (neutral_of_plain (all_eq_true.mp rfl)).append ((neutral_hex _).parens.append (neutral_of_plain (all_eq_true.mp rfl)))

theorem neutral_labelText (slot : U64) : Neutral (labelText slot) :=
  (neutral_of_plain (t := ascii ['<', 'r']) (all_eq_true.mp rfl)).append
    ((neutral_dec _).append (neutral_of_plain (all_eq_true.mp rfl)))

theorem neutral_commaJoin (h : ∀ u ∈ us, Neutral u) : Neutral (commaJoin us) := by
  induction us with
  | nil => exact .nil
  | cons u us ih =>
    cases us with
    | nil => exact h u mem_cons_self
    | cons u' us =>
      have hrest := ih fun v hv => h v (mem_cons_of_mem u hv)
      have hcomma : Neutral (ascii [',', ' ']) := neutral_of_plain (all_eq_true.mp rfl)
      exact (h u mem_cons_self).append (hcomma.append hrest)

theorem neutral_bracketed {c : U8} (hb : isPlain b = true) (hc : isPlain c = true) (ht : Neutral t) :
    Neutral (b :: (t ++ [c])) :=
  (neutral_of_plain (t := [b]) (forall_mem_singleton.mpr hb)).append
    (ht.append (neutral_of_plain (forall_mem_singleton.mpr hc)))

mutual

theorem neutral_prints : ∀ (a : Arg) {u : List U8}, a.Prints u → Neutral u
  | .int v, _, hu => hu ▸ neutral_hex v
  | .res .., _, hu => hu ▸ neutral_of_plain fun b hb => isPlain_of_isWordByte b (mem_refText hb)
  | .ptr addr none, _, hu => hu ▸ (neutral_ptrText addr).append (neutral_of_plain (all_eq_true.mp rfl))
  | .ptr addr (some inner), _, ⟨_, hu, rfl⟩ => (neutral_ptrText addr).append (neutral_prints inner hu)
  | .data d, _, hu => by
    rcases hu with rfl | ⟨t, ht, rfl⟩
    · exact .literal (.inl rfl) (enclosed_hexBytes d) (newline_not_mem_hexBytes d)
    · exact .literal (.inr rfl) (enclosed_quoted ht) (newline_not_mem_quoted ht)
  | .struct fs, _, ⟨_, hus, rfl⟩ | .array fs, _, ⟨_, hus, rfl⟩ =>
    neutral_bracketed (by decide) (by decide) (neutral_commaJoin (neutral_all fs hus.forall₂))
  | .union inner, _, ⟨name, u, hname, hu, rfl⟩ => by
    have hpart : Neutral (byte '@' :: (name ++ [byte '='])) := neutral_bracketed (by decide) (by decide)
      (neutral_of_plain fun b hb => isPlain_of_isWordByte b (isWordByte_of_isIdentByte (hname b hb)))
    have := hpart.append (neutral_prints inner hu)
    rwa [cons_append, append_assoc] at this
  | .csum, _, hu | .nil, _, hu => hu ▸ neutral_of_plain (all_eq_true.mp rfl)
  | .out slot inner, _, ⟨_, hu, rfl⟩ => (neutral_labelText slot).append (neutral_prints inner hu)

theorem neutral_all : ∀ (fs : List Arg) {us : List (List U8)}, List.Forall₂ Arg.Prints fs us → ∀ u ∈ us, Neutral u
  | [], _, .nil => nofun
  | f :: fs, _, .cons hu hus => forall_mem_cons.mpr ⟨neutral_prints f hu, neutral_all fs hus⟩

end

end Vock.Fuzz
