import Vock.Fuzz.ProgText
import Vock.Syscall.Tables

/-!
# Reading a trace

The two readers of a trace: `parse_trace` of `vock/src/execprog.rs`, and the loop of `cmd` in
`vock/src/prog2c.rs`, with the `parse_leading_long` that they share. A text is the bytes of its UTF-8
form, and the rest of a text is what comes behind the position.
-/

namespace Vock.Replay

open Library Fuzz

/-- `(b as char).is_digit(radix)`. -/
def isDigitOf (radix : Nat) (b : U8) : Bool := (toDigit radix b).isSome

/-- A sign, and what is behind it. -/
def takeSign (t : List U8) : Bool × List U8 :=
  match t with
  | b :: u => if b = byte '-' then (true, u) else if b = byte '+' then (false, u) else (false, t)
  | [] => (false, [])

/-- The radix, and where the digits begin. -/
def takeRadix (t : List U8) : Nat × List U8 :=
  match (t.dropPrefix? (ascii ['0', 'x'])).or (t.dropPrefix? (ascii ['0', 'X'])) with
  | some u => (16, u)
  | none => (10, t)

/-- `i64::from_str_radix` of digits, or 0. -/
def magnitude (radix : Nat) (digits : List U8) : U64 :=
  BitVec.ofNat 64 (((digitsValue radix digits).filter (· < 2 ^ 63)).getD 0)

/-- `parse_leading_long`. -/
def parseLeadingLong (s : List U8) : U64 × List U8 :=
  let signed := takeSign (trimStart whiteSpace s)
  let number := takeRadix signed.2
  let digits := number.2.takeWhile (isDigitOf number.1)
  if digits = [] then (0#64, s)
  else
    let mag := magnitude number.1 digits
    (if signed.1 then -mag else mag, number.2.dropWhile (isDigitOf number.1))

/-- What `trim_start_matches` takes off between numbers. -/
def separators : List (List U8) := [ascii [','], ascii [' ']]

/-- The loop over the arguments; those it does not get to stay 0. -/
def readArgs : Nat → List U8 → List U64
  | 0, _ => []
  | n + 1, p =>
    let number := parseLeadingLong p
    let rest := trimStart separators number.2
    number.1 :: if rest = [] then List.replicate n 0#64 else readArgs n rest

/-- The arguments behind the parenthesis. -/
def parseArgs (p : List U8) : Args := Vector.ofFn fun i => (readArgs 6 p)[i]?.getD 0#64

/-- A line as `lines` yields it. -/
def withoutReturn (line : List U8) : List U8 := if line.getLast? = some (byte '\r') then line.dropLast else line

/-- The number and the arguments of a line. -/
def parseCall (arch : Arch) (line : List U8) : Option (U64 × Args) :=
  match line.findIdx? (· == byte '(') with
  | none => none
  | some paren => (syscallNr arch (line.take paren)).map fun nr => (nr, parseArgs (line.drop (paren + 1)))

def isComment (line : List U8) : Bool := line.head? = some (byte '#')

/-- `MAX_CALLS`. -/
def maxCalls : Nat := 4096

/-- `parse_trace`, on the text of the file. -/
def parseTrace (arch : Arch) (data : List U8) : List (U64 × Args) :=
  (parseLines (· == byte '\n') (fun line =>
    if isComment (withoutReturn line) ∨ withoutReturn line = [] then none else parseCall arch (withoutReturn line))
    data).take maxCalls

/-- The return value of a line: the number behind the first `) = `. -/
def returnOf (line : List U8) : U64 :=
  match (List.range line.length).find? fun i => (ascii [')', ' ', '=', ' ']).isPrefixOf (line.drop i) with
  | some i => (parseLeadingLong (line.drop (i + 4))).1
  | none => 0#64

/-- The loop of `cmd`, on the text of the file. -/
def prog2cTraces (arch : Arch) (data : List U8) : List Syscall :=
  (parseLines (· == byte '\n') (fun line =>
    if isComment (withoutReturn line) then none
    else (parseCall arch (withoutReturn line)).map fun call => ⟨call.1, call.2, returnOf (withoutReturn line)⟩)
    data).take 4096

end Vock.Replay
