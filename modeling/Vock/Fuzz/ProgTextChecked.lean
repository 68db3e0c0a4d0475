import Vock.Fuzz.InflateChecked
import Vock.Fuzz.ProgText
import Vock.Library.Utf8

/-!
# Program text, as the machine checks it

The parser of `vock/src/fuzz/prog_decode.rs` once more, over positions: `s` is the text of a `P` and `i` its position.
Every byte is read at its index, every slice is cut at its bounds and a `str` only between characters; what the program
stops at is a fault here. Three more faults stand for what would not end: a loop that goes on past the bytes of its text,
a round of the loop in `list` that goes on where it began, and a recursion through `arg` below the levels it is given.
Names are those of `Vock.Fuzz.ProgText`; `eat` is written out at its two places.

Numbers wrap around as in a release build. `String::from_utf8_lossy` is the parameter `lossy`, and `syscall_nr` is one
as before.
-/

namespace Vock.Fuzz.Machine

open Library Checked

/-! ## Numbers -/

/-- `str::split_at`. -/
def splitAt (s : List U8) (n : Nat) : Checked (List U8 × List U8) := do
  let head ← strSlice s 0 n
  let tail ← strSlice s n s.length
  pure (head, tail)

def parseInt (s : List U8) : Checked U64 :=
  let s := trim s
  if s = [] then failure
  else
    match (s.dropPrefix? (ascii ['0', 'x'])).or (s.dropPrefix? (ascii ['0', 'X'])) with
    | some h => of (fromStrRadix 16 h)
    | none =>
      match s.dropPrefix? (ascii ['-']) with
      | some neg => of ((parseI64 neg).map fun v => BitVec.ofInt 64 (-v))
      | none =>
        if 1 < s.length ∧ s.head? = some (byte '0') ∧ s.all isOctal then do
          let digits ← strSlice s 1 s.length
          of (fromStrRadix 8 digits)
        else of (fromStrRadix 10 s)

/-- The number behind `/` or `+` in a reference, and what follows it: `split_int_token` and `parse_int`. -/
def refPart (c : Char) (tail : List U8) : Checked (U64 × List U8) :=
  match tail.dropPrefix? (ascii [c]) with
  | some t => do
    let (token, rest) ← splitAt t (t.takeWhile isAlphanumeric).length
    let v ← attempt (parseInt token)
    pure (v.getD 0#64, rest)
  | none => pure (0#64, tail)

def parseResRef (w : List U8) : Checked Arg := do
  let rest ← of (w.dropPrefix? (ascii ['r']))
  let (num, tail) ← splitAt rest (rest.takeWhile isDigit).length
  if num = [] then failure
  else
    let idx ← of (fromStrRadix 10 num)
    let (div, tail) ← refPart '/' tail
    let (add, tail) ← refPart '+' tail
    if tail ≠ [] then failure else pure (.res idx div add)

/-! ## Literals -/

/-- One round of the loop in `unescape`: the bytes made so far, and the index. -/
def unescapeStep (b : List U8) (st : List U8 × Nat) : Checked ((List U8 × Nat) ⊕ List U8) :=
  if st.2 < b.length then do
    let c ← get b st.2
    if c = byte '\\' ∧ st.2 + 1 < b.length then
      let c ← get b (st.2 + 1)
      if c = byte 'x' ∧ st.2 + 3 < b.length then
        let hi ← get b (st.2 + 2)
        let lo ← get b (st.2 + 3)
        match hexEscaped hi lo with
        | some v => pure (.inl (st.1 ++ [v], st.2 + 4))
        | none => pure (.inl (st.1 ++ [byte 'x'], st.2 + 2))
      else pure (.inl (st.1 ++ [escaped c], st.2 + 2))
    else pure (.inl (st.1 ++ [c], st.2 + 1))
  else pure (.inr st.1)

def unescape (s : List U8) : Checked (List U8) := Checked.repeatFor (unescapeStep s) (s.length + 1) ([], 0)

/-- The byte of the two hex digits at `i`. -/
def hexPair (s : List U8) (out : List U8) (i : Nat) : Checked (List U8) := do
  let pair ← strSlice s i (i + 2)
  pure (out ++ hexPairs pair)

def decodeHexBytes (s : List U8) : Checked (List U8) :=
  match s.dropPrefix? (ascii ['$']) with
  | some b64 => do
    let image ← attempt (decodeCompressedImage b64 maxImage)
    pure (image.getD [])
  | none =>
    if s ≠ [] ∧ s.length % 2 = 0 ∧ s.all isHexDigit then (List.range' 0 (s.length / 2) 2).foldlM (hexPair s) []
    else unescape s

/-! ## Arguments -/

section

variable (lossy : List U8 → List U8) (s : List U8)

def peek (i : Nat) : Checked U8 := if i < s.length then get s i else pure 0#8

/-- One round of a loop that goes past the bytes with `p`. -/
def skipStep (p : U8 → Bool) (i : Nat) : Checked (Nat ⊕ Nat) :=
  if i < s.length then do
    let c ← get s i
    if p c then pure (.inl (i + 1)) else pure (.inr i)
  else pure (.inr i)

/-- `while !self.done() && p(self.peek()) { self.i += 1 }`. -/
def skipWhile (p : U8 → Bool) (i : Nat) : Checked Nat := Checked.repeatFor (skipStep s p) (s.length + 1) i

def eatWs (i : Nat) : Checked Nat := skipWhile s isLatinSpace i

/-- To the next separator. -/
def toSep (i : Nat) : Checked Nat := skipWhile s (!isSep ·) i

def startsWith (pat : List U8) (i : Nat) : Checked Bool := do
  let rest ← slice s (min i s.length) s.length
  pure (pat.isPrefixOf rest)

/-- One round of the loop in `until`. -/
def untilStep (close : U8) (i : Nat) : Checked (Nat ⊕ Nat) :=
  if i < s.length then do
    let c ← get s i
    if c = close then pure (.inr i)
    else if c = byte '\\' ∧ i + 1 < s.length then pure (.inl (i + 2))
    else pure (.inl (i + 1))
  else pure (.inr i)

def until' (close : U8) (start : Nat) : Checked (List U8 × Nat) := do
  let i ← Checked.repeatFor (untilStep s close) (s.length + 1) start
  let part ← slice s start (min i s.length)
  pure (lossy part, if i < s.length then i + 1 else i)

def optSizeSuffix (i : Nat) : Checked Nat := do
  let c ← peek s i
  if c = byte '/' then toSep s (i + 1) else pure i

def word (i : Nat) : Checked (Arg × Nat) := do
  let start ← eatWs s i
  let i ← toSep s start
  let part ← slice s start i
  let w := trim (lossy part)
  if w = [] then pure (.nil, if i < s.length then i + 1 else i)
  else if w = ascii ['n', 'i', 'l'] ∨ w = ascii ['A', 'U', 'T', 'O'] then pure (.nil, i)
  else if (ascii ['c', 's', 'u', 'm']).isPrefixOf w then pure (.csum, i)
  else
    let ref ← attempt (parseResRef w)
    match ref with
    | some r => pure (r, i)
    | none =>
      let v ← attempt (parseInt w)
      pure ((v.map .int).getD .nil, i)

section

variable (arg : Nat → Checked (Arg × Nat))

/-- The end of a round of the loop in `list` that began at `start`. -/
def goOn (start : Nat) (out : List Arg) (i : Nat) : Checked ((List Arg × Nat) ⊕ (List Arg × Nat)) :=
  if start < i then pure (.inl (out, i)) else stop .endless

/-- One round of the loop in `list`: the arguments so far, and the position. -/
def listStep (close : U8) (st : List Arg × Nat) : Checked ((List Arg × Nat) ⊕ (List Arg × Nat)) := do
  let before ← eatWs s st.2
  if s.length ≤ before then pure (.inr (st.1, before))
  else
    let c ← peek s before
    if c = close then pure (.inr (st.1, before + 1))
    else
      let (a, i) ← arg before
      let i ← eatWs s i
      let c ← peek s i
      if c = byte ',' then goOn st.2 (st.1 ++ [a]) (i + 1)
      else if c = close then pure (.inr (st.1 ++ [a], i + 1))
      else if i = before then goOn st.2 (st.1 ++ [a]) (i + 1)
      else goOn st.2 (st.1 ++ [a]) i

def list (close : U8) (i : Nat) : Checked (List Arg × Nat) :=
  Checked.repeatFor (listStep s arg close) (s.length + 1) ([], i)

def ptrAddr (i : Nat) : Checked (U64 × Nat) := do
  let auto ← startsWith s (ascii ['A', 'U', 'T', 'O']) i
  if auto then pure (autoAddr, i + 4)
  else
    let i ← eatWs s i
    let c ← peek s i
    if c = byte '(' then
      let (body, i) ← until' lossy s (byte ')') (i + 1)
      let addr ← attempt (parseInt (trim (body.takeWhile (· ≠ byte '/'))))
      pure (addr.getD encodingAddrBase - encodingAddrBase, i)
    else pure (0#64, i)

/-- Past the `ANY=` of a squashed pointer. -/
def skipAny (i : Nat) : Checked Nat := do
  let any ← startsWith s (ascii ['A', 'N', 'Y', '=']) i
  pure (if any then i + 4 else i)

def ptr (i : Nat) : Checked (Arg × Nat) := do
  let (addr, i) ← ptrAddr lossy s (i + 1)
  let i ← eatWs s i
  let c ← peek s i
  if c = byte '=' then
    let i ← eatWs s (i + 1)
    let i ← skipAny s i
    let isNil ← startsWith s (ascii ['n', 'i', 'l']) i
    if isNil then pure (.ptr addr none, i + 3)
    else
      let (inner, i) ← arg i
      pure (.ptr addr (some inner), i)
  else pure (.ptr addr none, i)

def union (i : Nat) : Checked (Arg × Nat) := do
  let i ← skipWhile s (fun b => b ≠ byte '=' && !isSep b) (i + 1)
  let i ← eatWs s i
  let c ← peek s i
  if c = byte '=' then
    let (inner, i) ← arg (i + 1)
    pure (.union inner, i)
  else pure (.nil, i)

/-- A literal that ends with `close`, and what `decode` makes of it. -/
def literal (close : U8) (decode : List U8 → Checked (List U8)) (i : Nat) : Checked (Arg × Nat) := do
  let (raw, i) ← until' lossy s close (i + 1)
  let d ← decode raw
  let i ← optSizeSuffix s i
  pure (.data d, i)

def argToken (i : Nat) : Checked (Arg × Nat) := do
  let c ← peek s i
  if c = byte '&' then ptr lossy s arg i
  else if c = byte '{' then
    let (fields, i) ← list s arg (byte '}') (i + 1)
    pure (.struct fields, i)
  else if c = byte '[' then
    let (elems, i) ← list s arg (byte ']') (i + 1)
    pure (.array elems, i)
  else if c = byte '@' then union s arg i
  else if c = byte '"' then literal lossy s (byte '"') decodeHexBytes i
  else if c = byte '\'' then literal lossy s (byte '\'') unescape i
  else word lossy s i

def argInner (i : Nat) : Checked (Arg × Nat) := do
  let c ← peek s i
  if c = byte '<' then
    let (lbl, j) ← until' lossy s (byte '>') (i + 1)
    match lbl.dropSuffix? (ascii ['=']) with
    | some name =>
      let (inner, j) ← arg j
      pure (match labelSlot name with
        | some slot => .out slot inner
        | none => inner, j)
    | none => argToken lossy s arg i
  else argToken lossy s arg i

end

/-- What `arg` does at `MAX_DEPTH`. -/
def cutOff (i : Nat) : Checked (Arg × Nat) := do
  let i ← toSep s i
  pure (.nil, i)

/-- `arg` at a depth, with so many levels below it. -/
def arg : Nat → Nat → Nat → Checked (Arg × Nat)
  | 0, depth, i => do
    let i ← eatWs s i
    if maxDepth ≤ depth then cutOff s i else stop .endless
  | levels + 1, depth, i => do
    let i ← eatWs s i
    if maxDepth ≤ depth then cutOff s i else argInner lossy s (arg levels (depth + 1)) i

end

/-! ## Calls -/

def setProp (call : Call) (part : List U8) : Checked Call :=
  let p := trim part
  if p = ascii ['a', 's', 'y', 'n', 'c'] then pure { call with isAsync := true }
  else
    match p.dropPrefix? (ascii ['f', 'a', 'i', 'l', '_', 'n', 't', 'h', ':']) with
    | some v => do
      let n ← attempt (parseInt (trim v))
      pure { call with failNth := n.map (·.setWidth 32) }
    | none => pure call

def parseProps (s : List U8) (call : Call) : Checked Call := (s.splitOnP (· == byte ',')).foldlM setProp call

/-- The state of the loop in `matching_paren`; its `depth` is an `i32`. -/
structure Scan where
  i : Nat
  quote : U8
  depth : BitVec 32

/-- One round of the loop in `matching_paren`. -/
def matchingStep (b : List U8) (st : Scan) : Checked (Scan ⊕ Option Nat) :=
  if st.i < b.length then do
    let c ← get b st.i
    if st.quote ≠ 0#8 then
      if c = byte '\\' then pure (.inl { st with i := st.i + 2 })
      else pure (.inl { st with i := st.i + 1, quote := if c = st.quote then 0#8 else st.quote })
    else if c = byte '"' ∨ c = byte '\'' then pure (.inl { st with i := st.i + 1, quote := c })
    else if c = byte '(' then pure (.inl { st with i := st.i + 1, depth := st.depth + 1#32 })
    else if c = byte ')' then
      if st.depth - 1#32 = 0#32 then pure (.inr (some st.i))
      else pure (.inl { st with i := st.i + 1, depth := st.depth - 1#32 })
    else pure (.inl { st with i := st.i + 1 })
  else pure (.inr none)

def matchingParen (s : List U8) (pos : Nat) : Checked (Option Nat) :=
  Checked.repeatFor (matchingStep s) (s.length + 1) ⟨pos, 0#8, 0#32⟩

/-- One round of the loop in `comment_pos`: the index and the quote. -/
def commentStep (b : List U8) (st : Nat × U8) : Checked ((Nat × U8) ⊕ Option Nat) :=
  if st.1 < b.length then do
    let c ← get b st.1
    if st.2 ≠ 0#8 then
      if c = byte '\\' then pure (.inl (st.1 + 2, st.2))
      else pure (.inl (st.1 + 1, if c = st.2 then 0#8 else st.2))
    else if c = byte '"' ∨ c = byte '\'' then pure (.inl (st.1 + 1, c))
    else if c = byte '#' then pure (.inr (some st.1))
    else pure (.inl (st.1 + 1, 0#8))
  else pure (.inr none)

def commentPos (s : List U8) : Checked (Option Nat) := Checked.repeatFor (commentStep s) (s.length + 1) (0, 0#8)

def withoutComment (line : List U8) : Checked (List U8) := do
  let pos ← commentPos line
  match pos with
  | some pos =>
    let part ← strSlice line 0 pos
    pure (trim part)
  | none => pure line

def splitResult (line : List U8) (paren : Nat) : Checked (Option U64 × List U8) := do
  let head ← strSlice line 0 paren
  match head.findIdx? (· == byte '=') with
  | some eq =>
    let lhs ← strSlice line 0 eq
    let rest ← strSlice line (eq + 1) line.length
    pure (((trim lhs).dropPrefix? (ascii ['r'])).bind (fromStrRadix 10), trim rest)
  | none => pure (none, line)

def withProps (tail : List U8) (call : Call) : Checked Call :=
  match tail.findIdx? (· == byte '('), rposition (· == byte ')') tail with
  | some first, some last =>
    if first < last then do
      let props ← strSlice tail (first + 1) last
      parseProps props call
    else pure call
  | _, _ => pure call

section

variable (lossy : List U8 → List U8) (syscallNr : List U8 → Option Int)

def statement (line : List U8) : Checked Call := do
  let paren ← of (line.findIdx? (· == byte '('))
  let (res, rest) ← splitResult line paren
  let paren ← of (rest.findIdx? (· == byte '('))
  let name ← strSlice rest 0 paren
  let name := trim name
  if name = [] then failure
  else
    let found ← matchingParen rest paren
    let close ← of found
    let body ← strSlice rest (paren + 1) close
    let (args, _) ← list body (arg lossy body maxDepth 0) 0#8 0
    let base := name.takeWhile (· ≠ byte '$')
    let call := { name := name, base := base, nr := syscallNr base, args := args, res := res, failNth := none, isAsync := false }
    let tail ← strSlice rest (close + 1) rest.length
    withProps (trim tail) call

def parseCall (line : List U8) : Checked Call :=
  let line := trim line
  if isEmptyLine line then failure
  else do
    let line ← withoutComment line
    statement lossy syscallNr line

/-- One round of the loop in `parse_prog`. -/
def progLine (calls : List Call) (line : List U8) : Checked (List Call) :=
  let l := trim line
  if isEmptyLine l then pure calls
  else do
    let c ← attempt (parseCall lossy syscallNr l)
    pure (calls ++ c.toList)

def parseProg (text : List U8) : Checked Prog := do
  let calls ← (lines text).foldlM (progLine lossy syscallNr) []
  pure ⟨calls⟩

end

end Vock.Fuzz.Machine
