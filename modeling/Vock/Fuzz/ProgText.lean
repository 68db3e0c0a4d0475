import Vock.Fuzz.Arena
import Vock.Fuzz.Inflate
import Vock.Library.Lines
import Vock.Library.Text

/-!
# Program text

The parser half of `vock/src/fuzz/prog_decode.rs`: from syzkaller's program text to calls.

A text is the bytes of its UTF-8 form, as the parser itself takes it: the position in `P` is the rest
of the bytes, and past the end there is nothing. Slices are cut in front of or behind an ASCII byte,
so `from_utf8_lossy` changes none that is looked into. The depth in `P` is counted down from
`MAX_DEPTH`, and each level of the recursion is given the next one as its function `arg`.
`syscall_nr` is a parameter.
-/

namespace Vock.Fuzz

open Library

/-- `ENCODING_ADDR_BASE`. -/
def encodingAddrBase : U64 := 0x7f0000000000#64

/-- `MAX_DEPTH`. -/
def maxDepth : Nat := 64

/-- `MAX_IMAGE`. -/
def maxImage : Nat := 128 <<< 20

/-! ## White space -/

/-- The characters of `char::is_whitespace`, in UTF-8. -/
def whiteSpace : List (List U8) :=
  [[0x09#8], [0x0a#8], [0x0b#8], [0x0c#8], [0x0d#8], [0x20#8], [0xc2#8, 0x85#8], [0xc2#8, 0xa0#8],
    [0xe1#8, 0x9a#8, 0x80#8], [0xe2#8, 0x80#8, 0x80#8], [0xe2#8, 0x80#8, 0x81#8], [0xe2#8, 0x80#8, 0x82#8],
    [0xe2#8, 0x80#8, 0x83#8], [0xe2#8, 0x80#8, 0x84#8], [0xe2#8, 0x80#8, 0x85#8], [0xe2#8, 0x80#8, 0x86#8],
    [0xe2#8, 0x80#8, 0x87#8], [0xe2#8, 0x80#8, 0x88#8], [0xe2#8, 0x80#8, 0x89#8], [0xe2#8, 0x80#8, 0x8a#8],
    [0xe2#8, 0x80#8, 0xa8#8], [0xe2#8, 0x80#8, 0xa9#8], [0xe2#8, 0x80#8, 0xaf#8], [0xe2#8, 0x81#8, 0x9f#8],
    [0xe3#8, 0x80#8, 0x80#8]]

/-- `str::trim`. -/
def trim (s : List U8) : List U8 := trimEnd whiteSpace (trimStart whiteSpace s)

/-- The words in a text: `word` is the one that is open, `skip` the bytes left of a character of white space. -/
def wordsFrom (word : List U8) (skip : Nat) : List U8 → List (List U8)
  | [] => if word = [] then [] else [word]
  | c :: s =>
    match skip with
    | n + 1 => wordsFrom word n s
    | 0 =>
      match whiteSpace.find? (·.isPrefixOf (c :: s)) with
      | some w => (if word = [] then [] else [word]) ++ wordsFrom [] (w.length - 1) s
      | none => wordsFrom (word ++ [c]) 0 s

/-- `str::split_whitespace`. -/
def splitWhitespace (s : List U8) : List (List U8) := wordsFrom [] 0 s

/-- `(b as char).is_whitespace()`: a byte taken as a Latin-1 character. -/
def isLatinSpace (b : U8) : Bool := (0x09#8 ≤ b && b ≤ 0x0d#8) || b == 0x20#8 || b == 0x85#8 || b == 0xa0#8

/-- `is_sep`. -/
def isSep (c : U8) : Bool :=
  c == byte ',' || c == byte ')' || c == byte '}' || c == byte ']' || c == byte '=' || c == byte ' ' ||
    c == byte '\t' || c == 0#8

/-! ## Numbers -/

/-- `char::to_digit`. -/
def toDigit (radix : Nat) (b : U8) : Option Nat :=
  let d :=
    if byte '0' ≤ b ∧ b ≤ byte '9' then b.toNat - (byte '0').toNat
    else if byte 'a' ≤ b ∧ b ≤ byte 'z' then b.toNat - (byte 'a').toNat + 10
    else if byte 'A' ≤ b ∧ b ≤ byte 'Z' then b.toNat - (byte 'A').toNat + 10
    else 36
  if d < radix then some d else none

/-- The digits of a number, at least one. -/
def digitsValue (radix : Nat) (s : List U8) : Option Nat :=
  if s = [] then none else readNumeral radix (toDigit radix) s

/-- A number without its leading `+`. -/
def dropPlus (s : List U8) : List U8 := (s.dropPrefix? (ascii ['+'])).getD s

/-- `u64::from_str_radix`; `str::parse` of a `u64` or a `usize` is the same with radix 10. -/
def fromStrRadix (radix : Nat) (s : List U8) : Option U64 :=
  ((digitsValue radix (dropPlus s)).filter (· < 2 ^ 64)).map (BitVec.ofNat 64)

/-- `str::parse` of an `i64`. -/
def parseI64 (s : List U8) : Option Int :=
  match s.dropPrefix? (ascii ['-']) with
  | some d => ((digitsValue 10 d).filter (· ≤ 2 ^ 63)).map fun n => -(n : Int)
  | none => ((digitsValue 10 (dropPlus s)).filter (· < 2 ^ 63)).map fun n => (n : Int)

def isOctal (c : U8) : Bool := byte '0' ≤ c && c ≤ byte '7'

/-- `parse_int`. -/
def parseInt (s : List U8) : Option U64 :=
  let s := trim s
  if s = [] then none
  else
    match (s.dropPrefix? (ascii ['0', 'x'])).or (s.dropPrefix? (ascii ['0', 'X'])) with
    | some h => fromStrRadix 16 h
    | none =>
      match s.dropPrefix? (ascii ['-']) with
      | some neg => (parseI64 neg).map fun v => BitVec.ofInt 64 (-v)
      | none =>
        if 1 < s.length ∧ s.head? = some (byte '0') ∧ s.all isOctal then fromStrRadix 8 (s.drop 1)
        else fromStrRadix 10 s

/-- `is_ascii_digit`. -/
def isDigit (c : U8) : Bool := byte '0' ≤ c && c ≤ byte '9'

/-- `is_ascii_alphanumeric`. -/
def isAlphanumeric (c : U8) : Bool :=
  isDigit c || (byte 'a' ≤ c && c ≤ byte 'z') || (byte 'A' ≤ c && c ≤ byte 'Z')

/-- The number behind `/` or `+` in a reference, and what follows it. -/
def refPart (c : Char) (tail : List U8) : U64 × List U8 :=
  match tail.dropPrefix? (ascii [c]) with
  | some t => ((parseInt (t.takeWhile isAlphanumeric)).getD 0#64, t.dropWhile isAlphanumeric)
  | none => (0#64, tail)

/-- `parse_res_ref`. -/
def parseResRef (w : List U8) : Option Arg := do
  let rest ← w.dropPrefix? (ascii ['r'])
  let num := rest.takeWhile isDigit
  if num = [] then none
  else
    let idx ← fromStrRadix 10 num
    let div := refPart '/' (rest.dropWhile isDigit)
    let add := refPart '+' div.2
    if add.2 ≠ [] then none else some (.res idx div.1 add.1)

/-! ## Literals -/

/-- What `\c` stands for. -/
def escaped (c : U8) : U8 :=
  if c = byte 'n' then 0x0a#8
  else if c = byte 't' then 0x09#8
  else if c = byte 'r' then 0x0d#8
  else if c = byte 'a' then 0x07#8
  else if c = byte 'b' then 0x08#8
  else if c = byte 'f' then 0x0c#8
  else if c = byte 'v' then 0x0b#8
  else c

/-- What `\x` with the two bytes behind it stands for. -/
def hexEscaped (hi lo : U8) : Option U8 :=
  match toDigit 16 hi, toDigit 16 lo with
  | some h, some l => some (BitVec.ofNat 8 (h * 16 + l))
  | _, _ => none

def unescape : List U8 → List U8
  | [] => []
  | [b] => [b]
  | b :: c :: s =>
    if b = byte '\\' then
      if c = byte 'x' then
        match s with
        | hi :: lo :: s' =>
          match hexEscaped hi lo with
          | some v => v :: unescape s'
          | none => c :: unescape (hi :: lo :: s')
        | s => c :: unescape s
      else escaped c :: unescape s
    else b :: unescape (c :: s)

/-- `is_ascii_hexdigit`. -/
def isHexDigit (c : U8) : Bool := (toDigit 16 c).isSome

/-- The bytes of pairs of hex digits. -/
def hexPairs : List U8 → List U8
  | hi :: lo :: s => (hexEscaped hi lo).toList ++ hexPairs s
  | _ => []

/-- `decode_hex_bytes`. -/
def decodeHexBytes (s : List U8) : List U8 :=
  match s.dropPrefix? (ascii ['$']) with
  | some b64 => (decodeCompressedImage b64 maxImage).getD []
  | none => if s ≠ [] ∧ s.length % 2 = 0 ∧ s.all isHexDigit then hexPairs s else unescape s

/-! ## Arguments -/

def peek (rest : List U8) : U8 := rest.headD 0#8

def eatWs (rest : List U8) : List U8 := rest.dropWhile isLatinSpace

/-- `until`: what stands in front of `close`, and the rest behind it. A backslash takes the next byte
along. -/
def until' (close : U8) : List U8 → List U8 × List U8
  | [] => ([], [])
  | [b] => if b = close then ([], []) else ([b], [])
  | b :: c :: rest =>
    if b = close then ([], c :: rest)
    else if b = byte '\\' then (until' close rest).map (b :: c :: ·) id
    else (until' close (c :: rest)).map (b :: ·) id

/-- The rest from the next separator on. -/
def toSep (rest : List U8) : List U8 := rest.dropWhile (!isSep ·)

/-- `opt_size_suffix`. -/
def optSizeSuffix (rest : List U8) : List U8 := if peek rest = byte '/' then toSep (rest.drop 1) else rest

def word (rest : List U8) : Arg × List U8 :=
  let rest := eatWs rest
  let w := trim (rest.takeWhile (!isSep ·))
  let next := toSep rest
  if w = [] then (.nil, next.drop 1)
  else if w = ascii ['n', 'i', 'l'] ∨ w = ascii ['A', 'U', 'T', 'O'] then (.nil, next)
  else if (ascii ['c', 's', 'u', 'm']).isPrefixOf w then (.csum, next)
  else (((parseResRef w).or ((parseInt w).map .int)).getD .nil, next)

section

variable (arg : List U8 → Arg × List U8)

/-- The loop of `list`, for at most as many rounds. -/
def listLoop (close : U8) : Nat → List U8 → List Arg × List U8
  | 0, rest => ([], rest)
  | fuel + 1, rest =>
    let rest := eatWs rest
    if rest = [] then ([], rest)
    else if peek rest = close then ([], rest.drop 1)
    else
      let a := (arg rest).1
      let next := eatWs (arg rest).2
      if peek next = byte ',' then (listLoop close fuel (next.drop 1)).map (a :: ·) id
      else if peek next = close then ([a], next.drop 1)
      else if next.length = rest.length then (listLoop close fuel (next.drop 1)).map (a :: ·) id
      else (listLoop close fuel next).map (a :: ·) id

/-- `list`. Each round takes a byte, so that the bytes bound the rounds. -/
def list (close : U8) (rest : List U8) : List Arg × List U8 := listLoop arg close (rest.length + 1) rest

/-- The address in `ptr`, behind the `&`. -/
def ptrAddr (rest : List U8) : U64 × List U8 :=
  match rest.dropPrefix? (ascii ['A', 'U', 'T', 'O']) with
  | some rest => (autoAddr, rest)
  | none =>
    let rest := eatWs rest
    if peek rest = byte '(' then
      let body := until' (byte ')') (rest.drop 1)
      let head := trim (body.1.takeWhile (· ≠ byte '/'))
      ((parseInt head).getD encodingAddrBase - encodingAddrBase, body.2)
    else (0#64, rest)

def ptr (rest : List U8) : Arg × List U8 :=
  let addr := ptrAddr (rest.drop 1)
  let rest := eatWs addr.2
  if peek rest = byte '=' then
    let rest := eatWs (rest.drop 1)
    let rest := (rest.dropPrefix? (ascii ['A', 'N', 'Y', '='])).getD rest
    match rest.dropPrefix? (ascii ['n', 'i', 'l']) with
    | some rest => (.ptr addr.1 none, rest)
    | none => (arg rest).map (fun inner => .ptr addr.1 (some inner)) id
  else (.ptr addr.1 none, rest)

/-- `@name=arg`, or `@name` alone. -/
def union (rest : List U8) : Arg × List U8 :=
  let rest := eatWs ((rest.drop 1).dropWhile fun b => b ≠ byte '=' && !isSep b)
  if peek rest = byte '=' then (arg (rest.drop 1)).map .union id else (.nil, rest)

/-- The `match` of `arg_inner`. -/
def argToken (rest : List U8) : Arg × List U8 :=
  if peek rest = byte '&' then ptr arg rest
  else if peek rest = byte '{' then (list arg (byte '}') (rest.drop 1)).map .struct id
  else if peek rest = byte '[' then (list arg (byte ']') (rest.drop 1)).map .array id
  else if peek rest = byte '@' then union arg rest
  else if peek rest = byte '"' then (until' (byte '"') (rest.drop 1)).map (.data ∘ decodeHexBytes) optSizeSuffix
  else if peek rest = byte '\'' then (until' (byte '\'') (rest.drop 1)).map (.data ∘ unescape) optSizeSuffix
  else word rest

/-- The slot in a label `rN`. -/
def labelSlot (name : List U8) : Option U64 := ((trim name).dropPrefix? (ascii ['r'])).bind (fromStrRadix 10)

/-- `arg_inner`. -/
def argInner (rest : List U8) : Arg × List U8 :=
  if peek rest = byte '<' then
    let lbl := until' (byte '>') (rest.drop 1)
    match lbl.1.dropSuffix? (ascii ['=']) with
    | some name =>
      match labelSlot name with
      | some slot => (arg lbl.2).map (.out slot) id
      | none => arg lbl.2
    | none => argToken arg rest
  else argToken arg rest

end

/-- `arg`, with so many levels of depth left. -/
def arg : Nat → List U8 → Arg × List U8
  | 0, rest => (.nil, toSep (eatWs rest))
  | depth + 1, rest => argInner (arg depth) (eatWs rest)

/-! ## Calls -/

/-- One round of the loop in `parse_props`. -/
def setProp (call : Call) (part : List U8) : Call :=
  let p := trim part
  if p = ascii ['a', 's', 'y', 'n', 'c'] then { call with isAsync := true }
  else
    match p.dropPrefix? (ascii ['f', 'a', 'i', 'l', '_', 'n', 't', 'h', ':']) with
    | some v => { call with failNth := (parseInt (trim v)).map (·.setWidth 32) }
    | none => call

/-- `parse_props`. -/
def parseProps (s : List U8) (call : Call) : Call := (s.splitOnP (· == byte ',')).foldl setProp call

/-- The loop of `matching_paren`, with its `quote` and `depth`: the position counted from here. -/
def matchingFrom (quote : U8) (depth : Int) : List U8 → Option Nat
  | [] => none
  | c :: s =>
    if quote ≠ 0#8 then
      if c = byte '\\' then
        match s with
        | [] => none
        | _ :: s => (matchingFrom quote depth s).map (· + 2)
      else (matchingFrom (if c = quote then 0#8 else quote) depth s).map (· + 1)
    else if c = byte '"' ∨ c = byte '\'' then (matchingFrom c depth s).map (· + 1)
    else if c = byte '(' then (matchingFrom 0#8 (depth + 1) s).map (· + 1)
    else if c = byte ')' then
      if depth - 1 = 0 then some 0 else (matchingFrom 0#8 (depth - 1) s).map (· + 1)
    else (matchingFrom 0#8 depth s).map (· + 1)

/-- `matching_paren`. -/
def matchingParen (s : List U8) (pos : Nat) : Option Nat := (matchingFrom 0#8 0 (s.drop pos)).map (· + pos)

/-- The loop of `comment_pos`, with its `quote`: the position counted from here. -/
def commentFrom (quote : U8) : List U8 → Option Nat
  | [] => none
  | c :: s =>
    if quote ≠ 0#8 then
      if c = byte '\\' then
        match s with
        | [] => none
        | _ :: s => (commentFrom quote s).map (· + 2)
      else (commentFrom (if c = quote then 0#8 else quote) s).map (· + 1)
    else if c = byte '"' ∨ c = byte '\'' then (commentFrom c s).map (· + 1)
    else if c = byte '#' then some 0
    else (commentFrom 0#8 s).map (· + 1)

/-- `comment_pos`. -/
def commentPos (s : List U8) : Option Nat := commentFrom 0#8 s

/-- A line without the comment behind it. -/
def withoutComment (line : List U8) : List U8 :=
  match commentPos line with
  | some pos => trim (line.take pos)
  | none => line

/-- The `rN =` of a statement, and what follows it. -/
def splitResult (line : List U8) (paren : Nat) : Option U64 × List U8 :=
  match (line.take paren).findIdx? (· == byte '=') with
  | some eq =>
    (((trim (line.take eq)).dropPrefix? (ascii ['r'])).bind (fromStrRadix 10), trim (line.drop (eq + 1)))
  | none => (none, line)

/-- The call-property block behind a call. -/
def withProps (tail : List U8) (call : Call) : Call :=
  match tail.findIdx? (· == byte '('), rposition (· == byte ')') tail with
  | some first, some last => if first < last then parseProps ((tail.take last).drop (first + 1)) call else call
  | _, _ => call

/-- Nothing is on the line but space, or a comment. -/
def isEmptyLine (line : List U8) : Bool := line == [] || line.head? == some (byte '#')

section

variable (syscallNr : List U8 → Option Int)

/-- What `parse_call` makes of a line once the comment is off. -/
def statement (line : List U8) : Option Call := do
  let paren ← line.findIdx? (· == byte '(')
  let (res, rest) := splitResult line paren
  let paren ← rest.findIdx? (· == byte '(')
  let name := trim (rest.take paren)
  if name = [] then none
  else
    let close ← matchingParen rest paren
    let args := (list (arg maxDepth) 0#8 ((rest.take close).drop (paren + 1))).1
    let base := name.takeWhile (· ≠ byte '$')
    let call := { name := name, base := base, nr := syscallNr base, args := args, res := res, failNth := none, isAsync := false }
    some (withProps (trim (rest.drop (close + 1))) call)

/-- `parse_call`. -/
def parseCall (line : List U8) : Option Call :=
  let line := trim line
  if isEmptyLine line then none else statement syscallNr (withoutComment line)

/-- `str::lines`. -/
def lines (text : List U8) : List (List U8) :=
  let parts := text.splitOnP (· == byte '\n')
  let whole := parts.dropLast.map fun l => (l.dropSuffix? (ascii ['\r'])).getD l
  whole ++ (parts.getLast?.filter (· ≠ [])).toList

/-- One round of the loop in `parse_prog`. -/
def progLine (line : List U8) : Option Call :=
  let l := trim line
  if isEmptyLine l then none else parseCall syscallNr l

/-- `parse_prog`. -/
def parseProg (text : List U8) : Prog where
  calls := (lines text).filterMap (progLine syscallNr)

end

end Vock.Fuzz
