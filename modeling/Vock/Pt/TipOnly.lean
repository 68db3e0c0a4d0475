import Vock.Library.Loop
import Vock.Pt.Packet

/-!
# The TIP-only decode

`tip_only_decode` of `vock/src/mode/engine.rs`: follow the last IP through the IP packets and emit
the kernel addresses, no TNT followed. `out` holds the emitted PCs, oldest first, one for each
line the code prints; `pc_count` is its length.
-/

namespace Vock.Pt

open Library

/-- The lowest address that is emitted. -/
def kernelBase : U64 := 0xffff000000000000#64

/-- The PCs one emission adds: the address itself when it is a kernel address. -/
def emitted (ip : U64) : List U64 := if kernelBase ≤ ip then [ip] else []

/-- Last-IP decompression: what a payload `val` of encoding `enc` makes of the last IP. -/
def ipUpdate (enc : U8) (val lastIp : U64) : U64 :=
  if enc = 1#8 then (lastIp &&& ~~~0xFFFF#64) ||| val
  else if enc = 2#8 then (lastIp &&& ~~~0xFFFFFFFF#64) ||| val
  else if enc = 3#8 then
    if val &&& (1#64 <<< 47) ≠ 0#64 then val ||| 0xFFFF000000000000#64 else val
  else if enc = 4#8 then (lastIp &&& ~~~0xFFFFFFFFFFFF#64) ||| val
  else if enc = 6#8 then val
  else lastIp

/-- The payload of the IP packet at `pos`, as a word. -/
def ipPayload (data : List U8) (pos : Nat) (enc : U8) : U64 :=
  leValue ((data.drop (pos + 1)).take ((ipPayloadLen enc).getD 0))

/-- The decoder's locals. `stopped` is set where the loop takes a `break`. -/
structure TipState where
  lastIp : U64 := 0#64
  pos : Nat := 0
  block : Option Nat := none
  stats : PtStats := {}
  out : List U64 := []
  stopped : Bool := false
  deriving DecidableEq, Repr

/-- One packet, `len` bytes long. -/
def TipState.packet (data : List U8) (s : TipState) (pkt : Pkt) (len : Nat) : TipState :=
  match pkt with
  | .ip _ enc =>
    if 0 < (ipPayloadLen enc).getD 0 then
      let ip := ipUpdate enc (ipPayload data s.pos enc) s.lastIp
      { s with lastIp := ip, out := s.out ++ emitted ip, pos := s.pos + len }
    else { s with pos := s.pos + len }
  | .ovf =>
    { s with lastIp := 0#64, pos := s.pos + len,
             stats := { s.stats with overflows := s.stats.overflows + 1 } }
  | .bbp wide => { s with block := some (if wide then 8 else 4), pos := s.pos + len }
  | .bep => { s with block := none, pos := s.pos + len }
  | .truncated => { s with stats := { s.stats with truncated := true }, stopped := true }
  | .bad =>
    let stats := { s.stats with badPackets := s.stats.badPackets + 1 }
    match findPsb data (s.pos + 1) with
    | some next =>
      { s with lastIp := 0#64, block := none, pos := next,
               stats := { stats with resyncs := stats.resyncs + 1 } }
    | none => { s with lastIp := 0#64, block := none, stats, stopped := true }
  | _ => { s with pos := s.pos + len }

/-- One round of the loop; `none` where it is left. -/
def tipStep (data : List U8) (s : TipState) : Option TipState :=
  if s.stopped ∨ data.length ≤ s.pos then none
  else
    let scan := scanPacket data s.pos s.block
    some (s.packet data scan.pkt scan.len)

/-- The decoder's final state. Every round but a `break` moves `pos` on, so one round for each
byte and one for the `break` are enough (`tipRun_mem_eval`). -/
def tipDecode (data : List U8) : TipState := exec (tipStep data) (data.length + 1) {}

/-- `tip_only_decode`: the PCs it prints. -/
def tipOnlyDecode (data : List U8) : List U64 := (tipDecode data).out

end Vock.Pt
