import Vock.Library.Loop
import Vock.Syscall

/-!
# The eBPF tracer

`drain` of `vock/src/ebpf.rs`: the records that the two BPF programs put into the ring buffer, and
how an exit is matched with an enter.

The ring is a memory read from `ring_data` on. The kernel lays a record out contiguously, also where
it does not fit in front of the end, so a read may go past the `RINGBUF_SZ` bytes that are mapped:
`reads` says where a round reads. A position is an `u64` in the source and a number here: positions are taken to stay
below `2 ^ 64`, which it takes as many bytes of records to reach.
-/

namespace Vock.Ebpf

open Library

/-- `RINGBUF_SZ`. -/
def ringbufSz : Nat := 256 * 1024

/-- `BPF_RINGBUF_BUSY_BIT`. -/
def busyBit : BitVec 32 := 1#32 <<< 31

/-- `BPF_RINGBUF_DISCARD_BIT`. -/
def discardBit : BitVec 32 := 1#32 <<< 30

/-- `BPF_RINGBUF_HDR_SZ`. -/
def hdrSz : Nat := 8

/-- `EVENT_SIZE`. -/
def eventSize : Nat := 72

/-- `Event`. -/
structure Event where
  isExit : BitVec 32
  nr : U64
  args : Args
  ret : U64
  deriving Repr, DecidableEq

/-- The `Event` overlaid at an offset. -/
def Event.read (mem : Nat → U8) (off : Nat) : Event where
  isExit := (loadLe 4 mem off).setWidth 32
  nr := loadLe 8 mem (off + 8)
  args := .ofFn fun i => loadLe 8 mem (off + 16 + 8 * i)
  ret := loadLe 8 mem (off + 64)

/-- What `drain` goes on with: the consumer position, the enter that waits for its exit, and the
syscalls emitted. -/
structure State where
  cons : Nat
  pending : Option (U64 × Args)
  log : List Syscall
  deriving DecidableEq

/-- The state `run` starts with. -/
def start : State where
  cons := 0
  pending := none
  log := []

/-- Where in the ring a position is. -/
def offset (cons : Nat) : Nat := cons &&& (ringbufSz - 1)

/-- The length word of the record at an offset. -/
def header (mem : Nat → U8) (off : Nat) : BitVec 32 := (loadLe 4 mem off).setWidth 32

def dataLen (hdr : BitVec 32) : Nat := ((hdr <<< 2) >>> 2).toNat

def recLen (dataLen : Nat) : Nat := (dataLen + hdrSz + 7) / 8 * 8

/-- The producer is still writing. -/
def isBusy (hdr : BitVec 32) : Bool := hdr &&& busyBit != 0#32

/-- There is an event to take from the record. -/
def hasEvent (hdr : BitVec 32) : Bool := hdr &&& discardBit == 0#32 && eventSize ≤ dataLen hdr

/-- An event is matched with the enter that waits. -/
def State.take (s : State) (e : Event) : State :=
  if e.isExit = 0#32 then { s with pending := some (e.nr, e.args) }
  else
    match s.pending with
    | some (pnr, pargs) =>
      if pnr = e.nr then { s with pending := none, log := s.log ++ [⟨pnr, pargs, e.ret⟩] } else s
    | none => s

/-- One round of the loop in `drain`. -/
def round (mem : Nat → U8) (prod : Nat) (s : State) : Option State :=
  if s.cons < prod then
    let off := offset s.cons
    let hdr := header mem off
    if isBusy hdr then none
    else
      let s' := if hasEvent hdr then s.take (Event.read mem (off + hdrSz)) else s
      some { s' with cons := s.cons + recLen (dataLen hdr) }
  else none

/-- `drain`. A round passes at least a header, so the bytes in front of `prod` bound the rounds. -/
def drain (mem : Nat → U8) (prod : Nat) (s : State) : State := exec (round mem prod) (prod - s.cons) s

/-- Where a round reads: an offset from `ring_data`, and how many bytes. -/
def reads (mem : Nat → U8) (prod : Nat) (s : State) : List (Nat × Nat) :=
  if s.cons < prod then
    let off := offset s.cons
    let hdr := header mem off
    (off, 4) :: if !isBusy hdr && hasEvent hdr then [(off + hdrSz, eventSize)] else []
  else []

/-- Where `drain` reads. -/
def drainReads (mem : Nat → U8) (prod : Nat) (s : State) : List (Nat × Nat) :=
  (visited (round mem prod) (prod - s.cons) s).flatMap (reads mem prod)

/-- The drains of a run, each with the memory it finds and the producer position it loads. -/
def drains (calls : List ((Nat → U8) × Nat)) (s : State) : State :=
  calls.foldl (fun s call => drain call.1 call.2 s) s

/-- Where the drains of a run read. -/
def drainsReads : List ((Nat → U8) × Nat) → State → List (Nat × Nat)
  | [], _ => []
  | (mem, prod) :: calls, s => drainReads mem prod s ++ drainsReads calls (drain mem prod s)

end Vock.Ebpf
