import Vock.Library.Text
import Vock.Word

/-!
# Printed numbers

What the formats `{}`, `{:x}` and `{:04o}` print. An `i64` is the word of its bits: `{}` prints its sign,
`{:x}` and `{:o}` print the word.
-/

namespace Vock

open Library

/-- The digit `d`, in lower case. -/
def digitByte (d : Nat) : U8 := if d < 10 then byte '0' + BitVec.ofNat 8 d else byte 'a' + BitVec.ofNat 8 (d - 10)

/-- A number in decimal. -/
def dec (n : Nat) : List U8 := numeral 10 digitByte n

/-- A number in hexadecimal. -/
def hex (v : U64) : List U8 := ascii ['0', 'x'] ++ numeral 16 digitByte v.toNat

/-- An `i64` in decimal. -/
def showI64 (v : U64) : List U8 := if v.msb then byte '-' :: dec (-v).toNat else dec v.toNat

/-- `{:04o}`. -/
def octal (v : U64) : List U8 :=
  let digits := numeral 8 digitByte v.toNat
  List.replicate (4 - digits.length) (byte '0') ++ digits

end Vock
