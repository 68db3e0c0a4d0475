import Mathlib.Computability.StateTransition
import Vock.Word

/-!
# BTF

`Btf::open` of `vock/src/fuzz/btf.rs`, from the bytes of the file on, and `resolve` on the types that it gives. Texts are their bytes; what
`from_utf8_lossy` makes of bytes is a parameter. An index or a sum that stops the program is a fault.
-/

namespace Vock.Fuzz.Btf

/-! ## Bytes -/

/-- What stops the program. -/
inductive Fault where
  | overflow
  | index
  deriving Repr, DecidableEq

/-- A computation that may give nothing, and may stop the program. -/
abbrev Checked := OptionT (Except Fault)

def Checked.of {α : Type} (x : Option α) : Checked α := OptionT.mk (.ok x)

def Checked.stop {α : Type} (f : Fault) : Checked α := OptionT.mk (.error f)

/-- A sum of type `usize`. -/
def add (a b : Nat) : Checked Nat := if a + b < 2 ^ 64 then pure (a + b) else Checked.stop .overflow

/-- `rd_u16`, `rd_u32` and `rd_u64`: the little-endian number of `n` bytes. -/
def rd (n : Nat) (b : List U8) (off : Nat) : Option U64 :=
  if off + n ≤ b.length then some (leValue ((b.drop off).take n)) else none

def rdU32 (b : List U8) (off : Nat) : Option (BitVec 32) := (rd 4 b off).map (·.setWidth 32)

/-- `b.get(start..stop)`. -/
def slice (b : List U8) (start stop : Nat) : Option (List U8) :=
  if start ≤ stop ∧ stop ≤ b.length then some ((b.drop start).take (stop - start)) else none

/-- `btf_str`. -/
def btfStr (lossy : List U8 → List U8) (strs : List U8) (off : BitVec 32) : List U8 :=
  if strs.length ≤ off.toNat then [] else lossy ((strs.drop off.toNat).takeWhile (· ≠ 0#8))

/-! ## The section of an ELF file -/

/-- The loop of `find_elf_btf` over the section headers. -/
def findSection (raw : List U8) (shoff shentsize strtab : Nat) : List Nat → Checked (Nat × Nat)
  | [] => failure
  | i :: rest => do
    let base := shoff + i * shentsize
    let name ← Checked.of (rd 4 raw base)
    let offset ← Checked.of (rd 8 raw (base + 0x18))
    let size ← Checked.of (rd 8 raw (base + 0x20))
    let namePtr ← add strtab name.toNat
    if raw.length < namePtr then Checked.stop .index
    else if (raw.drop namePtr).takeWhile (· ≠ 0#8) = ascii ['.', 'B', 'T', 'F'] then pure (offset.toNat, size.toNat)
    else findSection raw shoff shentsize strtab rest

/-- `find_elf_btf`. -/
def findElfBtf (raw : List U8) : Checked (Nat × Nat) := do
  let shoff ← Checked.of (rd 8 raw 0x28)
  let shentsize ← Checked.of (rd 2 raw 0x3a)
  let shnum ← Checked.of (rd 2 raw 0x3c)
  let shstrndx ← Checked.of (rd 2 raw 0x3e)
  if shentsize.toNat < 64 then failure
  else
    let stop ← add shoff.toNat (shnum.toNat * shentsize.toNat)
    if raw.length < stop then failure
    else
      let strtab ← Checked.of (rd 8 raw (shoff.toNat + shstrndx.toNat * shentsize.toNat + 0x18))
      findSection raw shoff.toNat shentsize.toNat strtab.toNat (List.range shnum.toNat)

/-! ## Types -/

/-- `BtfMember`. -/
structure BtfMember where
  name : List U8
  typeId : BitVec 32
  offsetBits : BitVec 32
  deriving Repr, DecidableEq

/-- `BtfEnumVal`. -/
structure BtfEnumVal where
  name : List U8
  val : Int
  deriving Repr, DecidableEq

/-- `BtfType`. -/
structure BtfType where
  id : Nat
  kind : Nat
  name : List U8
  size : BitVec 32
  refTypeId : BitVec 32
  members : List BtfMember
  enums : List BtfEnumVal
  intBits : U8
  intSigned : U8
  arrayTypeId : BitVec 32
  arrayNelems : BitVec 32
  deriving Repr, DecidableEq

/-- `BtfType::void`. -/
def BtfType.void : BtfType := ⟨0, 0, [], 0, 0, [], [], 0, 0, 0, 0⟩

section

variable (lossy : List U8 → List U8) (strs sec : List U8)

/-- A member of a structure or union. -/
def readMember (kflag : Bool) (p : Nat) : Option BtfMember := do
  let name ← rdU32 sec p
  let type ← rdU32 sec (p + 4)
  let off ← rdU32 sec (p + 8)
  some ⟨btfStr lossy strs name, type, if kflag then off &&& 0xffffff#32 else off⟩

/-- A value of an enumeration. -/
def readEnum (p : Nat) : Option BtfEnumVal := do
  let name ← rdU32 sec p
  let val ← rdU32 sec (p + 4)
  some ⟨btfStr lossy strs name, val.toInt⟩

/-- A value of an enumeration of 64 bits. -/
def readEnum64 (p : Nat) : Option BtfEnumVal := do
  let name ← rdU32 sec p
  let lo ← rdU32 sec (p + 4)
  let hi ← rdU32 sec (p + 8)
  some ⟨btfStr lossy strs name, (hi.setWidth 64 <<< 32 ||| lo.setWidth 64 : U64).toInt⟩

/-- What stands behind the three words of a type, by its kind: the type with it, and the position behind it. -/
def readKind (kind : Nat) (out : BtfType) (kflag : Bool) (vlen : Nat) (sizeOrType : BitVec 32) (p : Nat) :
    Option (BtfType × Nat) :=
  match kind with
  | 1 => do -- BTF_KIND_INT
    let enc ← rdU32 sec p
    some ({ out with
      size := sizeOrType, intBits := (enc &&& 0xff#32).setWidth 8, intSigned := (enc >>> 24 &&& 1#32).setWidth 8 }, p + 4)
  | 2 | 8 | 9 | 10 | 11 | 7 => -- PTR, TYPEDEF, VOLATILE, CONST, RESTRICT, FWD
    some ({ out with refTypeId := sizeOrType }, p)
  | 3 => do -- ARRAY
    let type ← rdU32 sec p
    let nelems ← rdU32 sec (p + 8)
    some ({ out with arrayTypeId := type, arrayNelems := nelems }, p + 12)
  | 4 | 5 => do -- STRUCT, UNION
    let members ← (List.range vlen).mapM fun i => readMember lossy strs sec kflag (p + i * 12)
    some ({ out with size := sizeOrType, members }, p + vlen * 12)
  | 6 => do -- ENUM
    let enums ← (List.range vlen).mapM fun i => readEnum lossy strs sec (p + i * 8)
    some ({ out with size := sizeOrType, enums }, p + vlen * 8)
  | 19 => do -- ENUM64
    let enums ← (List.range vlen).mapM fun i => readEnum64 lossy strs sec (p + i * 12)
    some ({ out with size := sizeOrType, enums }, p + vlen * 12)
  | 13 => some ({ out with refTypeId := sizeOrType }, p + vlen * 8) -- FUNC_PROTO
  | 12 => some ({ out with refTypeId := sizeOrType }, p) -- FUNC
  | 14 => some ({ out with refTypeId := sizeOrType }, p + 4) -- VAR
  | 15 => some ({ out with size := sizeOrType }, p + vlen * 12) -- DATASEC
  | 16 => some ({ out with size := sizeOrType }, p) -- FLOAT
  | _ => some (out, p)

/-- A type, and the position behind it. -/
def readType (id p : Nat) : Option (BtfType × Nat) := do
  let nameOff ← rdU32 sec p
  let info ← rdU32 sec (p + 4)
  let sizeOrType ← rdU32 sec (p + 8)
  let kind := (info >>> 24 &&& 0x1f#32).toNat
  let vlen := (info &&& 0xffff#32).toNat
  let out := { BtfType.void with id, kind, name := btfStr lossy strs nameOff }
  readKind lossy strs sec kind out (info >>> 31 ≠ 0#32) vlen sizeOrType (p + 12)

/-- The loop of `open` over the types. Each type takes a byte at least. -/
def readTypes : Nat → Nat → Nat → Option (List BtfType)
  | 0, _, _ => some []
  | fuel + 1, id, p =>
    if p + 12 ≤ sec.length then do
      let (out, next) ← readType lossy strs sec id p
      (out :: ·) <$> readTypes fuel (id + 1) next
    else some []

end

/-- `open`, from the section on. -/
def parse (lossy : List U8 → List U8) (data : List U8) : Option (List BtfType) := do
  let magic ← rd 2 data 0
  if data.length < 24 ∨ magic ≠ 0xeb9f#64 then none
  else
    let hdrLen ← rdU32 data 4
    let typeOff ← rdU32 data 8
    let typeLen ← rdU32 data 12
    let strOff ← rdU32 data 16
    let strLen ← rdU32 data 20
    let typeStart := hdrLen.toNat + typeOff.toNat
    let strStart := hdrLen.toNat + strOff.toNat
    let strs ← slice data strStart (strStart + strLen.toNat)
    let sec ← slice data typeStart (typeStart + typeLen.toNat)
    (BtfType.void :: ·) <$> readTypes lossy strs sec (sec.length + 1) 1 0

/-- `Btf::open`, from the bytes of the file on: the types by their ids. -/
def openRaw (lossy : List U8 → List U8) (raw : List U8) : Checked (List BtfType) :=
  if raw.length < 24 then failure
  else if 64 < raw.length ∧ raw.take 4 = 0x7f#8 :: ascii ['E', 'L', 'F'] then do
    let (start, size) ← findElfBtf raw
    let stop ← add start size
    Checked.of ((slice raw start stop).bind (parse lossy))
  else Checked.of (parse lossy raw)

/-! ## Qualifiers -/

/-- One round of the loop of `resolve`: the type behind a typedef, `volatile`, `const` or `restrict`. -/
def resolveStep (types : List BtfType) (t : BtfType) : Option BtfType :=
  if t.kind = 10 ∨ t.kind = 9 ∨ t.kind = 8 ∨ t.kind = 11 then types[t.refTypeId.toNat]? else none

/-- `Btf::resolve`, as far as it terminates. -/
def resolve (types : List BtfType) (t : BtfType) : Part BtfType := StateTransition.eval (resolveStep types) t

end Vock.Fuzz.Btf
