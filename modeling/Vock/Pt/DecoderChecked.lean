import Vock.Library.Checked
import Vock.Pt.Decoder

/-!
# The walk, as the machine checks it

`decode_insn` and the rounds of `walk_tnt` of `vock/src/mode/engine.rs` once more, with positions where
`Vock.Pt.Insn` and `Vock.Pt.Decoder` have the bytes that are left: every `p[len]` of the instruction decoder, the slice
`text[off..off + maxl]` it is given and the differences that lead to it are tested, and are faults where they are
outside. Names are those of the two modules.
-/

namespace Vock.Pt.Machine

open Library Checked

section

variable (p : List U8) (maxLen : Nat)

/-- The loop over the prefixes, with `n` rounds to go to the bound of 15. -/
def skipPrefixes : Nat → Nat → Checked Nat
  | 0, len => pure len
  | n + 1, len =>
    if len < maxLen then do
      let b ← get p len
      if isPrefixByte b then skipPrefixes n (len + 1) else pure len
    else pure len

def rel8 (len : Nat) (isCond : Bool) : Checked Insn :=
  if len < maxLen then do
    let r ← get p len
    pure ⟨len + 1, true, isCond, r.signExtend 64⟩
  else pure (.plain len)

def rel32 (len : Nat) (isCond : Bool) : Checked Insn :=
  if len + 4 ≤ maxLen then do
    let b₀ ← get p len
    let b₁ ← get p (len + 1)
    let b₂ ← get p (len + 2)
    let b₃ ← get p (len + 3)
    pure ⟨len + 4, true, isCond, ((leValue [b₀, b₁, b₂, b₃]).setWidth 32).signExtend 64⟩
  else pure (.plain len)

def decodeTwoByte (len : Nat) : Checked Insn := do
  let op2 ← get p len
  let len := len + 1
  if 0x80#8 ≤ op2 ∧ op2 ≤ 0x8f#8 then rel32 p maxLen len true
  else if op2 = 0x05#8 ∨ op2 = 0x07#8 then pure ⟨len, true, false, 0#64⟩
  else if len < maxLen then
    let modrm ← get p len
    pure (.plain (len + 1 + modrmExtra modrm))
  else pure (.plain len)

def decodeGroupFf (len : Nat) : Checked Insn := do
  let modrm ← get p len
  pure (Pt.decodeGroupFf len modrm)

/-- The opcode at `len`. -/
def decodeOpcode (len : Nat) : Checked Insn := do
  let op ← get p len
  let len := len + 1
  if 0x70#8 ≤ op ∧ op ≤ 0x7f#8 then rel8 p maxLen len true
  else if op = 0xeb#8 then rel8 p maxLen len false
  else if op = 0xe8#8 ∨ op = 0xe9#8 then rel32 p maxLen len false
  else if op = 0xc3#8 ∨ op = 0xcb#8 then pure ⟨len, true, false, 0#64⟩
  else if op = 0x0f#8 ∧ len < maxLen then decodeTwoByte p maxLen len
  else if op = 0xff#8 ∧ len < maxLen then decodeGroupFf p len
  else if len < maxLen ∧ hasModrm op then
    let modrm ← get p len
    pure (.plain (len + 1 + modrmExtra modrm + immediateLen op))
  else pure (.plain len)

def decodeInsn : Checked Insn :=
  if maxLen < 1 then pure (.plain 0)
  else do
    let len ← skipPrefixes p maxLen 15 0
    if maxLen ≤ len then pure (.plain (if len ≠ 0 then len else 1))
    else decodeOpcode p maxLen len

end

def flowAt (text : List U8) (base ip : U64) : Checked Flow :=
  if InText text base ip then do
    let off ← sub ip.toNat base.toNat
    if text.length < off then pure .leave
    else
      let remain ← sub text.length off
      if remain < 1 then pure .leave
      else
        let maxl := if remain > 15 then 15 else remain
        let code ← slice text off (off + maxl)
        let insn ← decodeInsn code maxl
        pure (insnFlow insn ip)
  else pure .leave

/-- A round of `walk_tnt`, which gives up where the loop is left. -/
def walkStep (d : PtDecoder) : Checked PtDecoder :=
  if 0 < d.tntCount then do
    match ← flowAt d.text d.textVaddr d.ip with
    | .leave => failure
    | .next ip => pure { d with ip }
    | .jump ip => pure (PtDecoder.emitIp { d with ip } .walk ip)
    | .cond taken fall =>
      let ip := if d.nextOutcome then taken else fall
      pure (PtDecoder.emitIp { d with ip, tntCount := d.tntCount - 1 } .walk ip)
  else failure

end Vock.Pt.Machine
