import Vock.Library.Cursor
import Vock.Word

/-!
# Reading DWARF

The cursor over a section and the attribute forms of `vock/src/dwarf/reader.rs`. Positions and lengths are
natural numbers, since a position stays below the length of its section; a `usize` that is read or added
up from what is read is a number modulo `2 ^ 64`.
-/

namespace Vock.Dwarf

open Library

/-- `Cur`. -/
abbrev Cur := Cursor U8

abbrev Read (β : Type) := Reader U8 β

/-! ## Scalars -/

/-- The little-endian number of `n` bytes: `u8`, `u16`, `u24`, `u32` and `u64`. -/
def le (n : Nat) : Read U64 := leValue <$> Reader.items n

/-- The rounds of `uleb`, with what is read so far. -/
def ulebLoop : Nat → Nat → U64 → Read U64
  | 0, _, _ => failure
  | fuel + 1, shift, result => do
    let b ← Reader.item
    let result := if shift < 64 then result ||| ((b &&& 0x7f#8).setWidth 64 <<< shift) else result
    if b &&& 0x80#8 = 0#8 then pure result
    else if 70 < shift + 7 then failure
    else ulebLoop fuel (shift + 7) result

/-- `uleb`; it gives up behind the eleventh byte. -/
def uleb : Read U64 := ulebLoop 11 0 0#64

/-- The rounds of `sleb`. -/
def slebLoop : Nat → Nat → U64 → Read U64
  | 0, _, _ => failure
  | fuel + 1, shift, result => do
    let b ← Reader.item
    let result := if shift < 64 then result ||| ((b &&& 0x7f#8).setWidth 64 <<< shift) else result
    if b &&& 0x80#8 = 0#8 then
      pure (if shift + 7 < 64 ∧ b &&& 0x40#8 ≠ 0#8 then result ||| ((-1#64) <<< (shift + 7)) else result)
    else if 70 < shift + 7 then failure
    else slebLoop fuel (shift + 7) result

/-- `sleb`; an `i64` is the word of its bits. -/
def sleb : Read U64 := slebLoop 11 0 0#64

/-- The bytes of an offset. -/
def offSize (format64 : Bool) : Nat := if format64 then 8 else 4

/-- `off`. -/
def off (format64 : Bool) : Read Nat := BitVec.toNat <$> le (offSize format64)

/-- `addr`. -/
def addr (size : Nat) : Read U64 := if size = 8 ∨ size = 4 ∨ size = 2 ∨ size = 1 then le size else failure

/-- `cstr_at`: the string at a position, without its NUL. -/
def cstrAt (sec : List U8) (off : Nat) : Option (List U8) :=
  if off ≤ sec.length ∧ 0#8 ∈ sec.drop off then some ((sec.drop off).takeWhile (· ≠ 0#8)) else none

/-- `cstr`. -/
def cstr : Read (List U8) := fun c => (cstrAt c.data c.pos).map fun s => (s, { c with pos := c.pos + s.length + 1 })

/-- `initial_length`: the length, and whether the format is the 64-bit one. -/
def initialLength : Read (Nat × Bool) := do
  let l ← le 4
  if l = 0xffffffff#64 then (fun l => (l.toNat, true)) <$> le 8
  else if 0xfffffff0#64 ≤ l then failure
  else pure (l.toNat, false)

/-! ## Forms -/

/-- `Val`. -/
inductive Val where
  | none
  | addr (a : U64)
  | udata (v : U64)
  | sdata (v : U64)
  | flag
  | str (s : List U8)
  | strp (off : Nat)
  | lineStrp (off : Nat)
  | strx (i : U64)
  | ref (off : Nat)
  | secOff (off : Nat)
  | addrx (i : U64)
  | rnglistx (i : U64)
  | block
  deriving Repr, DecidableEq

/-- `UnitShape`. -/
structure UnitShape where
  off : Nat
  version : Nat
  format64 : Bool
  addrSize : Nat
  deriving Repr, DecidableEq

/-- A reference relative to the unit. -/
def refTo (u : UnitShape) (v : U64) : Val := .ref ((u.off + v.toNat) % 2 ^ 64)

/-- Passes over a block of the length that is read. -/
def block (length : Read U64) : Read Val := do
  let n ← length
  (fun _ => Val.block) <$> Reader.skip n.toNat

/-- `read_form`, through so many `DW_FORM_indirect` at most. -/
def readFormN : Nat → Nat → UnitShape → U64 → Read Val
  | 0, _, _, _ => failure
  | fuel + 1, form, u, implicit =>
    match form with
    | 0x01 => Val.addr <$> addr u.addrSize
    | 0x03 => block (le 2)
    | 0x04 => block (le 4)
    | 0x05 => Val.udata <$> le 2
    | 0x06 => Val.udata <$> le 4
    | 0x07 => Val.udata <$> le 8
    | 0x08 => Val.str <$> cstr
    | 0x09 => block uleb
    | 0x18 => block uleb
    | 0x0a => block (le 1)
    | 0x0b => Val.udata <$> le 1
    | 0x0c => (fun _ => Val.flag) <$> le 1
    | 0x0d => Val.sdata <$> sleb
    | 0x0e => Val.strp <$> off u.format64
    | 0x0f => Val.udata <$> uleb
    | 0x10 =>
      if u.version ≤ 2 then (fun a => Val.ref a.toNat) <$> addr u.addrSize else Val.ref <$> off u.format64
    | 0x11 => refTo u <$> le 1
    | 0x12 => refTo u <$> le 2
    | 0x13 => refTo u <$> le 4
    | 0x14 => refTo u <$> le 8
    | 0x15 => refTo u <$> uleb
    | 0x16 => do
      let f ← uleb
      readFormN fuel (f.toNat % 2 ^ 16) u implicit
    | 0x17 => Val.secOff <$> off u.format64
    | 0x19 => pure .flag
    | 0x1a => Val.strx <$> uleb
    | 0x1f02 => Val.strx <$> uleb
    | 0x1b => Val.addrx <$> uleb
    | 0x1f01 => Val.addrx <$> uleb
    | 0x1c => (fun _ => Val.none) <$> le 4
    | 0x1d => (fun _ => Val.none) <$> off u.format64
    | 0x1f20 => (fun _ => Val.none) <$> off u.format64
    | 0x1f21 => (fun _ => Val.none) <$> off u.format64
    | 0x1e => (fun _ => Val.none) <$> Reader.skip 16
    | 0x1f => Val.lineStrp <$> off u.format64
    | 0x20 => (fun _ => Val.none) <$> le 8
    | 0x24 => (fun _ => Val.none) <$> le 8
    | 0x21 => pure (.sdata implicit)
    | 0x22 => (fun _ => Val.none) <$> uleb
    | 0x23 => Val.rnglistx <$> uleb
    | 0x25 => Val.strx <$> le 1
    | 0x26 => Val.strx <$> le 2
    | 0x27 => Val.strx <$> le 3
    | 0x28 => Val.strx <$> le 4
    | 0x29 => Val.addrx <$> le 1
    | 0x2a => Val.addrx <$> le 2
    | 0x2b => Val.addrx <$> le 3
    | 0x2c => Val.addrx <$> le 4
    | _ => failure

/-- `read_form`. Each `DW_FORM_indirect` takes a byte at least. -/
def readForm (form : Nat) (u : UnitShape) (implicit : U64) : Read Val := fun c =>
  readFormN (c.data.length + 1) form u implicit c

/-- `as_u64`. -/
def Val.asU64 : Val → Option U64
  | .udata v => some v
  | .addr v => some v
  | .sdata v => some v
  | .secOff v => some (BitVec.ofNat 64 v)
  | .ref v => some (BitVec.ofNat 64 v)
  | _ => Option.none

end Vock.Dwarf
