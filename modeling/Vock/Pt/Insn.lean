import Vock.Word

/-!
# The minimal x86-64 instruction decoder

`decode_insn` of `vock/src/mode/engine.rs`: the length of one instruction and whether it is a
branch, approximate outside the branch opcodes. The slice it is given is exactly `max_len` bytes
long, so `len < max_len` reads as "a byte is left" and `len + 4 <= max_len` as "four are".
-/

namespace Vock.Pt

/-- `(length, is_branch, is_cond, branch_rel)`. `rel` is the `i64` displacement as a word. -/
structure Insn where
  len : Nat
  isBranch : Bool
  isCond : Bool
  rel : U64
  deriving DecidableEq, Repr

/-- An instruction of `len` bytes that is not a branch. -/
def Insn.plain (len : Nat) : Insn := ⟨len, false, false, 0#64⟩

/-- Legacy and REX prefixes. -/
def isPrefixByte (b : U8) : Bool :=
  b == 0x66#8 || b == 0x67#8 || b == 0xf0#8 || b == 0xf2#8 || b == 0xf3#8 || b == 0x2e#8 ||
  b == 0x3e#8 || b == 0x26#8 || b == 0x64#8 || b == 0x65#8 || b == 0x36#8 ||
  (b &&& 0xf0#8) == 0x40#8

/-- Bytes a ModRM byte adds after itself: displacement and SIB. -/
def modrmExtra (modrm : U8) : Nat :=
  let md := (modrm >>> 6) &&& 3#8
  let rm := modrm &&& 7#8
  if md = 0#8 ∧ rm = 5#8 then 4
  else if md = 0#8 ∧ rm = 4#8 then 1
  else if md = 1#8 then (if rm = 4#8 then 2 else 1)
  else if md = 2#8 then (if rm = 4#8 then 5 else 4)
  else 0

/-- A branch with an 8-bit displacement; cut short it is no branch. -/
def rel8 (len : Nat) (isCond : Bool) : List U8 → Insn
  | [] => .plain len
  | r :: _ => ⟨len + 1, true, isCond, r.signExtend 64⟩

/-- A branch with a 32-bit displacement; cut short it is no branch. -/
def rel32 (len : Nat) (isCond : Bool) (rest : List U8) : Insn :=
  if 4 ≤ rest.length then
    ⟨len + 4, true, isCond, ((leValue (rest.take 4)).setWidth 32).signExtend 64⟩
  else .plain len

/-- The opcodes whose length the decoder takes from a ModRM byte. -/
def hasModrm (op : U8) : Bool :=
  op ≤ 0x3f#8 || (0x80#8 ≤ op && op ≤ 0x8f#8) || op == 0x63#8 || op == 0x69#8 || op == 0x6b#8 ||
  op == 0xc0#8 || op == 0xc1#8 || op == 0xc6#8 || op == 0xc7#8 || op == 0xd0#8 || op == 0xd1#8 ||
  op == 0xd2#8 || op == 0xd3#8 || op == 0xf6#8 || op == 0xf7#8 || op == 0xfe#8

/-- Immediate bytes after the ModRM group. -/
def immediateLen (op : U8) : Nat :=
  if op = 0x80#8 ∨ op = 0x82#8 ∨ op = 0xc0#8 ∨ op = 0xc6#8 then 1
  else if op = 0x81#8 ∨ op = 0xc1#8 ∨ op = 0xc7#8 ∨ op = 0x69#8 then 4
  else if op = 0x83#8 ∨ op = 0x6b#8 then 1
  else 0

/-- The two-byte opcodes: `op2` follows `0f`, `len` bytes are read. -/
def decodeTwoByte (len : Nat) (op2 : U8) (rest : List U8) : Insn :=
  if 0x80#8 ≤ op2 ∧ op2 ≤ 0x8f#8 then rel32 len true rest
  else if op2 = 0x05#8 ∨ op2 = 0x07#8 then ⟨len, true, false, 0#64⟩
  else
    match rest with
    | [] => .plain len
    | modrm :: _ => .plain (len + 1 + modrmExtra modrm)

/-- `ff /r`: an indirect call or jump for `/2` and `/4`. -/
def decodeGroupFf (len : Nat) (modrm : U8) : Insn :=
  let reg := (modrm >>> 3) &&& 7#8
  ⟨len + 1 + modrmExtra modrm, reg = 2#8 ∨ reg = 4#8, false, 0#64⟩

/-- The opcode byte `op` after the prefixes, with `len` bytes read, it included. -/
def decodeOpcode (len : Nat) (op : U8) (rest : List U8) : Insn :=
  if 0x70#8 ≤ op ∧ op ≤ 0x7f#8 then rel8 len true rest
  else if op = 0xeb#8 then rel8 len false rest
  else if op = 0xe8#8 ∨ op = 0xe9#8 then rel32 len false rest
  else if op = 0xc3#8 ∨ op = 0xcb#8 then ⟨len, true, false, 0#64⟩
  else
    match rest with
    | [] => .plain len
    | next :: more =>
      if op = 0x0f#8 then decodeTwoByte (len + 1) next more
      else if op = 0xff#8 then decodeGroupFf len next
      else if hasModrm op then .plain (len + 1 + modrmExtra next + immediateLen op)
      else .plain len

/-- `decode_insn`. -/
def decodeInsn (code : List U8) : Insn :=
  if code = [] then .plain 0
  else
    let len := ((code.take 15).takeWhile isPrefixByte).length
    match code.drop len with
    | [] => .plain (if len ≠ 0 then len else 1)
    | op :: rest => decodeOpcode (len + 1) op rest

end Vock.Pt
