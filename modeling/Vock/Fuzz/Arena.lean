import Mathlib.Data.List.Destutter
import Vock.Fuzz.Prog
import Vock.Library.Bitmap
import Vock.Library.Loop
import Vock.Library.Memory

/-!
# The arena

The memory layout half of `vock/src/fuzz/prog_decode.rs`: the arena with its bitmap allocator, how an
argument tree is flattened to bytes, and how a program's objects are placed and a call's objects
written.

The mapping is a function from offsets to bytes, of which the first `arenaSize` are mapped; `len` is
always `arenaSize`, since `map` is the only place an arena is made. `int_width` reads the environment:
its answer is the parameter `w`. Arithmetic on `u64` wraps.
-/

namespace Vock.Fuzz

open Library

/-- `ARENA_SIZE`. -/
def arenaSize : Nat := 16 <<< 20

/-- `GRANULE`. -/
def granule : Nat := 64

/-- `AUTO_ADDR`: `u64::MAX`. -/
def autoAddr : U64 := 0xffffffffffffffff#64

/-- `RES_WIDTH`. -/
def resWidth : Nat := 4

/-- `MAX_ARGS`. -/
def maxArgs : Nat := 9

/-- `physical_addr`, with `DATA_OFFSET`. -/
def physicalAddr (offset : U64) : U64 := 0x200000000000#64 + offset

/-- `usize::div_ceil`. -/
def divCeil (a b : Nat) : Nat := (a + b - 1) / b

/-! ## The allocator -/

/-- `Arena`. -/
structure Arena where
  mem : Nat → U8
  used : Bitmap (arenaSize / granule / 64 + 1)
  fixed : List U64

namespace Arena

/-- `map`. -/
def map : Arena := ⟨fun _ => 0#8, .empty _, []⟩

def reset (a : Arena) : Arena :=
  { a with mem := fun i => if i < arenaSize then 0#8 else a.mem i, used := .empty _ }

/-- `in_range`, with its saturating addition. -/
def inRange (off : U64) (size : Nat) : Bool := min (off.toNat + size) (2 ^ 64 - 1) ≤ arenaSize

def noteAlloc (a : Arena) (off : U64) (size : Nat) : Arena :=
  if inRange off size then
    let first := off.toNat / granule
    let last := divCeil (off.toNat + size) granule
    { a with used := a.used.markRange first (last - first) }
  else a

/-- The number of granules `alloc` looks for. -/
def granules (size : Nat) : Nat := max (divCeil size granule) 1

/-- Where `alloc` finds room. -/
def room (a : Arena) (size : Nat) : Option Nat :=
  firstFit a.used.test (granules size) (arenaSize / granule)

def alloc (a : Arena) (size : Nat) : U64 × Arena :=
  match a.room size with
  | some start =>
    let off := BitVec.ofNat 64 (start * granule)
    (off, a.noteAlloc off size)
  | none => (0#64, a)

/-- How much of `len` bytes at `off` a write keeps: up to the next address in `fixed`. -/
def clip (a : Arena) (off : U64) (len : Nat) : Nat :=
  match a.fixed.find? (off < ·) with
  | some next => min len (next - off).toNat
  | none => len

def write (a : Arena) (off : U64) (bytes : List U8) : Arena :=
  let len := a.clip off bytes.length
  if len = 0 ∨ inRange off len = false then a
  else { a with mem := blit a.mem off.toNat (bytes.take len) }

def readScalar (a : Arena) (off : U64) (size : Nat) : Option U64 :=
  let size := max 1 (min size 8)
  if inRange off size then some (leValue ((List.range size).map fun i => a.mem (off.toNat + i))) else none

/-- `set_fixed`: sorted and without repetitions. -/
def setFixed (a : Arena) (addrs : List U64) : Arena :=
  { a with fixed := (addrs.insertionSort (· ≤ ·)).destutter (· ≠ ·) }

end Arena

/-! ## Checksums -/

/-- One turn of `while acc > 0xffff`. -/
def foldCarry (acc : BitVec 32) : Option (BitVec 32) :=
  if 0xffff#32 < acc then some ((acc &&& 0xffff#32) + (acc >>> 16)) else none

/-- The loop `while acc > 0xffff`; two turns are enough for any `u32`. -/
def foldCarries (acc : BitVec 32) : BitVec 32 := exec foldCarry 2 acc

/-- The loop of `csum_inet` over the bytes, two at a time, and the odd byte behind it. -/
def csumWords : List U8 → BitVec 32 → BitVec 32
  | lo :: hi :: rest, acc => csumWords rest (foldCarries (acc + (hi ++ lo).setWidth 32))
  | [b], acc => acc + b.setWidth 32
  | [], acc => acc

def csumInet (data : List U8) : BitVec 16 := ~~~ (foldCarries (csumWords data 0#32)).setWidth 16

/-! ## Flattening a value -/

/-- `Ctx`: the resource slots filled by earlier calls. -/
structure Ctx where
  res : U64 → Option U64

namespace Ctx

def new : Ctx := ⟨fun _ => none⟩

def resolve (ctx : Ctx) (idx div add : U64) : U64 :=
  match ctx.res idx with
  | some v => (if div ≠ 0#64 then v / div else v) + add
  | none => 0xffffffffffffffff#64

def set (ctx : Ctx) (idx val : U64) : Ctx := ⟨fun i => if i = idx then some val else ctx.res i⟩

end Ctx

/-- `Vec::resize` with zeros. -/
def resize (bytes : List U8) (n : Nat) : List U8 := bytes.take n ++ List.replicate (n - bytes.length) 0#8

mutual

def encode (ctx : Ctx) : Arg → Nat → List U8
  | .int v, w => leBytes w v
  | .res idx div add, w => leBytes w (ctx.resolve idx div add)
  | .nil, w => List.replicate w 0#8
  | .csum, _ => List.replicate 2 0#8
  | .data d, _ => d
  | .union inner, w => encode ctx inner w
  | .out _ inner, _ => resize (encode ctx inner resWidth) resWidth
  | .struct fields, w => encodeAll ctx fields w
  | .array fields, w => encodeAll ctx fields w
  | .ptr addr _, _ => leBytes 8 (physicalAddr addr)

def encodeAll (ctx : Ctx) : List Arg → Nat → List U8
  | [], _ => []
  | f :: fs, w => encode ctx f w ++ encodeAll ctx fs w

end

mutual

def encodedLen : Arg → Nat → Nat
  | .data d, _ => d.length
  | .csum, _ => 2
  | .ptr _ _, _ => 8
  | .out _ _, _ => resWidth
  | .union inner, w => encodedLen inner w
  | .struct fields, w => encodedLenAll fields w
  | .array fields, w => encodedLenAll fields w
  | _, w => w

def encodedLenAll : List Arg → Nat → Nat
  | [], _ => 0
  | f :: fs, w => encodedLen f w + encodedLenAll fs w

end

/-- `Copyout`: a resource field to read back after the call. -/
structure Copyout where
  slot : U64
  off : U64
  size : Nat
  deriving Repr, DecidableEq

mutual

/-- `collect_copyouts`; what it pushes is what it returns. -/
def collectCopyouts (w : Nat) : Arg → U64 → List Copyout
  | .out slot inner, base => ⟨slot, base, resWidth⟩ :: collectCopyouts w inner base
  | .struct fields, base => collectCopyoutsAll w fields base
  | .array fields, base => collectCopyoutsAll w fields base
  | .union inner, base => collectCopyouts w inner base
  | _, _ => []

def collectCopyoutsAll (w : Nat) : List Arg → U64 → List Copyout
  | [], _ => []
  | f :: fs, off =>
    collectCopyouts w f off ++ collectCopyoutsAll w fs (off + BitVec.ofNat 64 (encodedLen f w))

end

mutual

def csumOffset (w : Nat) : Arg → Nat → Option Nat
  | .csum, base => some base
  | .struct fields, base => csumOffsetAll w fields base
  | .array fields, base => csumOffsetAll w fields base
  | .union inner, base => csumOffset w inner base
  | .out _ inner, base => csumOffset w inner base
  | _, _ => none

def csumOffsetAll (w : Nat) : List Arg → Nat → Option Nat
  | [], _ => none
  | f :: fs, off =>
    match csumOffset w f off with
    | some p => some p
    | none => csumOffsetAll w fs (off + encodedLen f w)

end

def fixCsums (bytes : List U8) (arg : Arg) (w : Nat) : List U8 :=
  match csumOffset w arg 0 with
  | none => bytes
  | some off =>
    if bytes.length < off + 2 then bytes
    else
      let zeroed := (bytes.set off 0#8).set (off + 1) 0#8
      let sum := csumInet zeroed
      (zeroed.set off (sum.setWidth 8)).set (off + 1) ((sum >>> 8).setWidth 8)

/-! ## Writing a call's objects -/

/-- The bytes of an object: `encode`, then `fix_csums`. -/
def image (w : Nat) (ctx : Ctx) (inner : Arg) : List U8 := fixCsums (encode ctx inner w) inner w

mutual

/-- `lay_out_nested`. Its pointer case is `copyin`'s, which calls it back on the pointee. -/
def layOutNested (w : Nat) (ctx : Ctx) : Arg → Arena → Arena
  | .ptr addr (some inner), a => (layOutNested w ctx inner a).write addr (image w ctx inner)
  | .struct fields, a => layOutNestedAll w ctx fields a
  | .array fields, a => layOutNestedAll w ctx fields a
  | .union inner, a => layOutNested w ctx inner a
  | .out _ inner, a => layOutNested w ctx inner a
  | _, a => a

def layOutNestedAll (w : Nat) (ctx : Ctx) : List Arg → Arena → Arena
  | [], a => a
  | f :: fs, a => layOutNestedAll w ctx fs (layOutNested w ctx f a)

end

/-- `copyin`: the scalar the call receives, and the arena after the pointee is laid out. -/
def copyin (w : Nat) (ctx : Ctx) : Arg → Arena → U64 × Arena
  | .int v, a => (v, a)
  | .res idx div add, a => (ctx.resolve idx div add, a)
  | .union inner, a => copyin w ctx inner a
  | .out _ inner, a => copyin w ctx inner a
  | .ptr addr (some inner), a =>
    (physicalAddr addr, (layOutNested w ctx inner a).write addr (image w ctx inner))
  | .ptr addr none, a => (physicalAddr addr, a)
  | _, a => (0#64, a)

/-- `Prepared`. -/
structure Prepared where
  args : List U64
  copyouts : List Copyout

/-- The fields that `prepare_args` records for one argument. -/
def argCopyouts (w : Nat) : Arg → List Copyout
  | .ptr addr (some inner) => collectCopyouts w inner addr
  | _ => []

/-- The loop of `prepare_args`. -/
def prepareAll (w : Nat) (ctx : Ctx) : List Arg → Arena → Prepared × Arena
  | [], a => (⟨[], []⟩, a)
  | arg :: args, a =>
    let (scalar, a) := copyin w ctx arg a
    let (rest, a) := prepareAll w ctx args a
    (⟨scalar :: rest.args, argCopyouts w arg ++ rest.copyouts⟩, a)

/-- `prepare_args`: the scalars that no argument sets are zero. -/
def prepareArgs (w : Nat) (a : Arena) (call : Call) (ctx : Ctx) : Prepared × Arena :=
  let (p, a) := prepareAll w ctx (call.args.take maxArgs) a
  ({ p with args := p.args ++ List.replicate (maxArgs - p.args.length) 0#64 }, a)

/-! ## Placing a program's objects -/

/-- What the two passes of `note_fixed` pass along: the arena and the addresses pushed so far. -/
structure Placing where
  arena : Arena
  addrs : List U64

mutual

/-- `note`, of pass 1. -/
def note (w : Nat) : Arg → Placing → Placing
  | .ptr addr (some inner), s =>
    note w inner ⟨s.arena.noteAlloc addr (max (encodedLen inner w) 1), s.addrs ++ [addr]⟩
  | .struct fields, s => noteAll w fields s
  | .array fields, s => noteAll w fields s
  | .union inner, s => note w inner s
  | .out _ inner, s => note w inner s
  | _, s => s

def noteAll (w : Nat) : List Arg → Placing → Placing
  | [], s => s
  | f :: fs, s => noteAll w fs (note w f s)

end

/-- The address a pointer gets in pass 2, and what is left behind: `size` bytes are placed where it
had none, and the address is pushed where it has a pointee. -/
def assignAddr (addr : U64) (size : Nat) (filled : Bool) (s : Placing) : U64 × Placing :=
  if addr = autoAddr then
    let (off, arena) := s.arena.alloc size
    (off, ⟨arena, if filled then s.addrs ++ [off] else s.addrs⟩)
  else (addr, s)

mutual

/-- `assign`, of pass 2. -/
def assign (w : Nat) : Arg → Placing → Arg × Placing
  | .ptr addr (some inner), s =>
    let (addr, s) := assignAddr addr (max (encodedLen inner w) 1) true s
    (assign w inner s).map (.ptr addr ∘ some) id
  | .ptr addr none, s => (assignAddr addr granule false s).map (.ptr · none) id
  | .struct fields, s => (assignAll w fields s).map .struct id
  | .array fields, s => (assignAll w fields s).map .array id
  | .union inner, s => (assign w inner s).map .union id
  | .out slot inner, s => (assign w inner s).map (.out slot) id
  | a, s => (a, s)

def assignAll (w : Nat) : List Arg → Placing → List Arg × Placing
  | [], s => ([], s)
  | f :: fs, s =>
    let (f, s) := assign w f s
    (assignAll w fs s).map (f :: ·) id

end

/-- Pass 2 over the calls. -/
def assignCalls (w : Nat) : List Call → Placing → List Call × Placing
  | [], s => ([], s)
  | c :: cs, s =>
    let (args, s) := assignAll w c.args s
    (assignCalls w cs s).map ({ c with args := args } :: ·) id

/-- `note_fixed`: the arena and the program after both passes. -/
def noteFixed (w : Nat) (a : Arena) (prog : Prog) : Arena × Prog :=
  let noted := prog.calls.foldl (fun s c => noteAll w c.args s) ⟨a, []⟩
  let (calls, s) := assignCalls w prog.calls noted
  (s.arena.setFixed s.addrs, ⟨calls⟩)

end Vock.Fuzz
