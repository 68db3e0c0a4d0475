import Vock.Library.Lines
import Vock.Word

/-!
# Reading the PC logs

The two readers of `vock/src/report/mod.rs`: `read_all_pcs`, which parses each log whole, and
`spawn_reader`, which reads the logs block by block on a thread of its own and hands over whole
lines, to be parsed block by block.

What the operating system does is data here: a log that cannot be opened is `none`, and the answers
of `read` to one open log are a list, the end of which is the end of the file. The channel is the
list of the blocks sent; its receiver is taken to stay until the reader is done.
-/

namespace Vock.Report

open Library

/-! ## Parsing -/

def newline : U8 := 0x0a#8

def isNewline (c : U8) : Bool := c == newline

/-- A space, a tab or a carriage return. -/
def isBlank (c : U8) : Bool := c == 0x20#8 || c == 0x09#8 || c == 0x0d#8

def hexDigit (c : U8) : Option U64 :=
  if 0x30#8 ≤ c ∧ c ≤ 0x39#8 then some ((c - 0x30#8).setWidth 64)
  else if 0x61#8 ≤ c ∧ c ≤ 0x66#8 then some ((c - 0x61#8 + 10#8).setWidth 64)
  else if 0x41#8 ≤ c ∧ c ≤ 0x46#8 then some ((c - 0x41#8 + 10#8).setWidth 64)
  else none

/-- `parse_hex_bytes`. -/
def parseHexBytes (hex : List U8) : Option U64 :=
  if hex = [] ∨ 16 < hex.length then none
  else hex.foldlM (fun v c => (hexDigit c).map ((v <<< 4) ||| ·)) 0#64

/-- A token without its `0x` or `0X`. -/
def stripHex (tok : List U8) : List U8 :=
  if tok.take 2 = [0x30#8, 0x78#8] then tok.drop 2
  else if tok.take 2 = [0x30#8, 0x58#8] then tok.drop 2
  else tok

/-- The PC of a line: its first token, where that is hex. -/
def linePc (line : List U8) : Option U64 :=
  let tok := (line.dropWhile isBlank).takeWhile (!isBlank ·)
  if tok = [] then none else parseHexBytes (stripHex tok)

/-- `parse_pcs`: the PCs of the lines, in order. -/
def parsePcs (data : List U8) : List U64 := parseLines isNewline linePc data

/-- The PCs of one log; one that cannot be read is passed over. -/
def partPcs : Option (List U8) → List U64
  | some data => parsePcs data
  | none => []

/-- `read_all_pcs`. -/
def readAllPcs (parts : List (Option (List U8))) : List U64 := parts.flatMap partPcs

/-! ## The reader thread -/

/-- The most one `read` is asked for. -/
def readBlock : Nat := 4 <<< 20

/-- What one `read` answers, short of the end of the file. -/
inductive Answer where
  | chunk (bytes : List U8)
  | interrupted
  | failed
  deriving DecidableEq, Repr

/-- `block.append(&mut carry)`: the new block, and the `carry` it took everything from. -/
def appendCarry (carry : List U8) : List U8 × List U8 := (carry, [])

/-- The loop over one open log: the blocks it sends, and what is in `carry` where it is left. A round
that leaves or continues without having read drops its block. -/
def readLoop (carry : List U8) : List Answer → List (List U8) × List U8
  | [] => ([], (appendCarry carry).2)
  | .failed :: _ => ([], (appendCarry carry).2)
  | .interrupted :: answers => readLoop (appendCarry carry).2 answers
  | .chunk bytes :: answers =>
    let block := (appendCarry carry).1 ++ bytes
    match rposition isNewline block with
    | some nl =>
      let (blocks, left) := readLoop ((appendCarry carry).2 ++ block.drop (nl + 1)) answers
      (block.take (nl + 1) :: blocks, left)
    | none => readLoop ((appendCarry carry).2 ++ block) answers

/-- `spawn_reader`: the blocks sent for the logs, in order. `carry` is what one log leaves to the
next; after each log a non-empty one is sent with a line end. -/
def spawnReader (carry : List U8) : List (Option (List Answer)) → List (List U8)
  | [] => []
  | none :: parts => spawnReader carry parts
  | some answers :: parts =>
    let (blocks, left) := readLoop carry answers
    if left = [] then blocks ++ spawnReader left parts
    else blocks ++ (left ++ [newline]) :: spawnReader [] parts

/-- The PCs of the blocks, parsed as they come. -/
def streamedPcs (parts : List (Option (List Answer))) : List U64 :=
  (spawnReader [] parts).flatMap parsePcs

/-! ## What the operating system may answer -/

def Answer.bytes : Answer → List U8
  | .chunk bytes => bytes
  | .interrupted => []
  | .failed => []

/-- A chunk is not empty and fits the block; a read may be interrupted; none fails. -/
def Answer.Allowed : Answer → Prop
  | .chunk bytes => bytes ≠ [] ∧ bytes.length ≤ readBlock
  | .interrupted => True
  | .failed => False

/-- A log that is read to its end without an error. -/
structure Reading where
  answers : List Answer
  allowed : ∀ a ∈ answers, a.Allowed

/-- The bytes of the log. -/
def Reading.content (r : Reading) : List U8 := r.answers.flatMap Answer.bytes

end Vock.Report
