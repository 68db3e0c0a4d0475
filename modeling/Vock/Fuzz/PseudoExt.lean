import Vock.Fuzz.Arena

/-!
# Pseudo-syscalls on the arena

The functions of `vock/src/fuzz/pseudo_ext.rs` that dereference what a program gives them: `cstr`, `arena_slice`,
`syz_memcpy_off` and the frame of `syz_emit_ethernet`.

The memory is that of the process, by address; what is touched is noted byte by byte. An `i64` is the word of its
bits. What the kernel answers to the tap device is data, and so is what `from_utf8_lossy` makes of bytes.
-/

namespace Vock.Fuzz.PseudoExt

open Library

/-- `DATA_OFFSET`. -/
def dataOffset : U64 := 0x200000000000#64

/-- `MAX_IMAGE`. -/
def maxImage : Nat := 128 <<< 20

/-- `EFAULT`. -/
def efault : Int := 14

/-- The memory of the process, and the addresses that were read or written. -/
structure Memory where
  bytes : Nat → U8
  touched : List Nat

abbrev Touching := StateM Memory

/-- The addresses of `n` bytes. -/
def addresses (addr : U64) (n : Nat) : List Nat := (List.range n).map (addr.toNat + ·)

def load (addr : Nat) : Touching U8 := fun m => (m.bytes addr, { m with touched := m.touched ++ [addr] })

/-- A slice of `n` bytes, read whole. -/
def loadSlice (addr : U64) (n : Nat) : Touching (List U8) := fun m =>
  ((addresses addr n).map m.bytes, { m with touched := m.touched ++ addresses addr n })

def storeSlice (addr : U64) (bytes : List U8) : Touching Unit := fun m =>
  ((), { bytes := blit m.bytes addr.toNat bytes, touched := m.touched ++ addresses addr bytes.length })

/-- `in_arena`. -/
def inArena (addr : U64) : Bool := dataOffset ≤ addr ∧ addr < dataOffset + BitVec.ofNat 64 arenaSize

/-- The loop of `cstr`: the number of bytes in front of a NUL, of so many at most. -/
def cstrLen (addr : U64) : Nat → Nat → Touching Nat
  | 0, n => pure n
  | left + 1, n => do
    let b ← load (addr.toNat + n)
    if b = 0#8 then pure n else cstrLen addr left (n + 1)

/-- `cstr`. -/
def cstr (lossy : List U8 → List U8) (addr : U64) : Touching (Option (List U8)) :=
  if inArena addr then do
    let max := (dataOffset + BitVec.ofNat 64 arenaSize - addr).toNat
    let n ← cstrLen addr (min max 4096) 0
    let bytes ← loadSlice addr n
    pure (some (lossy bytes))
  else pure none

/-- `x.max(0) as usize` of an `i64`. -/
def clamped (x : U64) : Nat := if x.msb then 0 else x.toNat

/-- The last address of `len` bytes: `addr.wrapping_add(len as i64 - 1)`. -/
def last (addr : U64) (len : Nat) : U64 := addr + (BitVec.ofNat 64 len - 1#64)

/-- `n` bytes are copied within the arena; the last byte of each region is tested as well. -/
def memcpyRegion (dst src : U64) (n : Nat) : Touching (Int × Int) :=
  if n = 0 then pure (0, 0)
  else if !inArena dst || !inArena src || arenaSize < n then pure (-1, efault)
  else if !inArena (last dst n) || !inArena (last src n) then pure (-1, efault)
  else do
    let bytes ← loadSlice src n
    storeSlice dst bytes
    pure (0, 0)

/-- `syz_memcpy_off`. -/
def syzMemcpyOff (args : Vector U64 maxArgs) : Touching (Int × Int) :=
  memcpyRegion (args[0] + args[1]) (args[2] + args[3]) (clamped args[4])

/-- What the kernel answers to `open`, `TUNSETIFF` and `write`, each with the `errno` behind it. -/
structure Tap where
  fd : Int × Int
  setIff : Int × Int
  written : Int × Int

/-- A frame of `len` bytes goes out; `write` is handed the frame where it lies. -/
def emitFrame (tap : Tap) (len : Nat) (buf : U64) : Touching (Int × Int) :=
  if !inArena buf || len = 0 || 64 <<< 10 < len || !inArena (last buf len) then pure (-1, efault)
  else if tap.fd.1 < 0 then pure (-1, tap.fd.2)
  else if tap.setIff.1 < 0 then pure (-1, tap.setIff.2)
  else do
    let _ ← loadSlice buf len
    pure (if tap.written.1 < 0 then (-1, tap.written.2) else (tap.written.1, 0))

/-- `syz_emit_ethernet`. -/
def syzEmitEthernet (tap : Tap) (args : Vector U64 maxArgs) : Touching (Int × Int) :=
  emitFrame tap (clamped args[0]) args[1]

/-- `arena_slice`, with its bytes read. -/
def arenaSlice (addr : U64) (len : Nat) : Touching (Option (List U8)) :=
  if len = 0 || !inArena addr || !inArena (last addr len) then pure none else some <$> loadSlice addr len

end Vock.Fuzz.PseudoExt
