import Vock.Library.Loop
import Vock.Word

/-!
# The perf sample ring

`drain_sample_ring` of `vock/src/mode/engine.rs`. The ring is a memory read from `base + 4096` on, and
a read may go past its `data_size` bytes: `drainReads` says where a round reads. The positions
`data_head` and `data_tail` are counts of bytes modulo `2 ^ 64`. That the tail is set to the head in
the end is left out.
-/

namespace Vock.Mode

open Library StateTransition

/-- `PERF_RECORD_SAMPLE`. -/
def perfRecordSample : U64 := 9#64

/-- A kernel address. -/
def isKernel (a : U64) : Bool := 0xffff800000000000#64 ≤ a

/-- The `from` and `to` of so many branches, from an offset on. -/
def readBranches (mem : Nat → U8) : Nat → Nat → List (U64 × U64)
  | 0, _ => []
  | n + 1, p => (loadLe 8 mem p, loadLe 8 mem (p + 8)) :: readBranches mem n (p + 24)

/-- The number of branches that are read. -/
def branchCount (mem : Nat → U8) (ev : Nat) : Nat := min (loadLe 8 mem (ev + 24)).toNat 32

/-- The kernel addresses of a sample, oldest first: its branches come newest first, and its `ip` is
the newest. -/
def kernelPcs (branches : List (U64 × U64)) (ip : U64) : List U64 :=
  (branches.reverse.flatMap fun b => [b.1, b.2].filter isKernel) ++ [ip].filter isKernel

/-- What is pushed for the sample at an offset. -/
def sampleAt (mem : Nat → U8) (ev evSize : Nat) : Option (U64 × List U64) :=
  let ip := loadLe 8 mem (ev + 8)
  let time := loadLe 8 mem (ev + 16)
  let branches := if 8 + 8 + 8 + 8 < evSize then readBranches mem (branchCount mem ev) (ev + 32) else []
  let pcs := kernelPcs branches ip
  if pcs = [] then none else some (time, pcs)

/-- The tail, and the samples so far. -/
structure Drain where
  tail : Nat
  samples : List (U64 × List U64)

def evType (mem : Nat → U8) (ev : Nat) : U64 := loadLe 4 mem ev

def evSize (mem : Nat → U8) (ev : Nat) : Nat := (loadLe 2 mem (ev + 6)).toNat

/-- The record at an offset is taken for a sample. -/
def isSample (mem : Nat → U8) (ev : Nat) : Bool := evType mem ev == perfRecordSample && 8 + 8 + 8 ≤ evSize mem ev

/-- One round of the loop. -/
def drainRound (mem : Nat → U8) (dataSize head : Nat) (d : Drain) : Option Drain :=
  if d.tail < head then
    let ev := d.tail % dataSize
    some {
      tail := (d.tail + evSize mem ev) % 2 ^ 64
      samples := if isSample mem ev then d.samples ++ (sampleAt mem ev (evSize mem ev)).toList else d.samples }
  else none

/-- `drain_sample_ring`; it may not come to an end. -/
def drainSampleRing (mem : Nat → U8) (dataSize head tail : Nat) (samples : List (U64 × List U64)) : Part Drain :=
  eval (drainRound mem dataSize head) ⟨tail, samples⟩

/-- Where so many branches are read. -/
def branchReads : Nat → Nat → List (Nat × Nat)
  | 0, _ => []
  | n + 1, p => (p, 8) :: (p + 8, 8) :: branchReads n (p + 24)

/-- Where a round reads: an offset in the ring, and how many bytes. -/
def drainReads (mem : Nat → U8) (dataSize head : Nat) (d : Drain) : List (Nat × Nat) :=
  if d.tail < head then
    let ev := d.tail % dataSize
    (ev, 4) :: (ev + 6, 2) ::
      if isSample mem ev then
        (ev + 8, 8) :: (ev + 16, 8) ::
          if 8 + 8 + 8 + 8 < evSize mem ev then (ev + 24, 8) :: branchReads (branchCount mem ev) (ev + 32) else []
      else []
  else []

end Vock.Mode
