import Vock.Library.Checked
import Vock.Word

/-!
# The text of the kernel

`load_vmlinux_text` of `vock/src/mode/engine.rs`, from the bytes of the file on.
-/

namespace Vock.Mode

open Library Checked

/-- `rd_u16`, `rd_u32` and `rd_u64`, each byte of which is an index into the file. -/
def rdNum (n : Nat) (map : List U8) (o : Nat) : Checked U64 := leValue <$> slice map o (o + n)

/-- `section_name_is`. -/
def sectionNameIs (map : List U8) (pos : Nat) (want : List U8) : Checked Bool := do
  let stop ← fit 64 (pos + want.length)
  if map.length ≤ stop then pure false
  else
    let name ← slice map pos stop
    let zero ← get map stop
    pure (decide (name = want ∧ zero = 0#8))

/-- The loop over the section headers. -/
def textSection (map : List U8) (shoff shentsize shstrOff : Nat) : List Nat → Checked (List U8 × U64 × Nat)
  | [] => failure
  | i :: rest => do
    let base ← fit 64 (shoff + i * shentsize)
    let stop ← fit 64 (base + 0x28)
    if map.length < stop then failure
    else
      let shName ← rdNum 4 map base
      let namePos ← fit 64 (shstrOff + shName.toNat)
      if ← sectionNameIs map namePos (utf8 ".text") then
        let shAddr ← rdNum 8 map (base + 0x10)
        let shOffset ← rdNum 8 map (base + 0x18)
        let shSize ← rdNum 8 map (base + 0x20)
        let stop ← fit 64 (shOffset.toNat + shSize.toNat)
        if map.length < stop then failure
        else
          let text ← slice map shOffset.toNat stop
          pure (text, shAddr, shSize.toNat)
      else textSection map shoff shentsize shstrOff rest

/-- `load_vmlinux_text`. -/
def loadVmlinuxText (map : List U8) : Checked (List U8 × U64 × Nat) :=
  if map.length < 64 then failure
  else do
    let shoff ← rdNum 8 map 0x28
    let shentsize ← rdNum 2 map 0x3a
    let shnum ← rdNum 2 map 0x3c
    let shstrndx ← rdNum 2 map 0x3e
    if shentsize.toNat = 0 ∨ shoff.toNat = 0 then failure
    else if shnum.toNat ≤ shstrndx.toNat then failure
    else
      let shstr ← fit 64 (shoff.toNat + shstrndx.toNat * shentsize.toNat + 0x18)
      let shstrOff ← rdNum 8 map shstr
      textSection map shoff.toNat shentsize.toNat shstrOff.toNat (List.range shnum.toNat)

end Vock.Mode
