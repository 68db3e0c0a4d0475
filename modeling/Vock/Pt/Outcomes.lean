import Vock.Pt.Decoder
import Vock.Pt.Stream

/-!
# Branch outcomes as a queue

What the TNT packets are for: they carry a list of branch outcomes, which the walk takes one by one.
This module states that purpose without the packets. A `Walker` has its outcomes in a list, as long
as it likes; `Walker.step` is a round of the walk on it, and `Walker.load` what the arrival of a TNT
payload does. `PtDecoder.walker` reads a decoder as one.

The second half says how outcomes are cut into packets: `payloadOf` is the payload that carries a
list, `tntPackets` the packets of a split, and `decodeFrom` the decoder's run over packets from a
given state.
-/

namespace Vock.Pt

open Library StateTransition

/-! ## The queue -/

/-- A walk over a text, its pending outcomes in a list, oldest first. -/
structure Walker where
  text : List U8
  base : U64
  ip : U64
  pending : List Bool
  out : List Emit
  deriving DecidableEq, Repr

/-- The PCs one step of a walk emits. -/
def atWalk (ip : U64) : List Emit := (emitted ip).map (⟨.walk, ·⟩)

/-- A round of the walk. -/
def Walker.step (w : Walker) : Option Walker :=
  match w.pending with
  | [] => none
  | o :: os =>
    match flowAt w.text w.base w.ip with
    | .leave => none
    | .next ip => some { w with ip }
    | .jump ip => some { w with ip, out := w.out ++ atWalk ip }
    | .cond taken fall =>
      let ip := if o then taken else fall
      some { w with ip, pending := os, out := w.out ++ atWalk ip }

/-- The text base after the correction at an address. -/
def corrected (text : List U8) (base ip : U64) : U64 :=
  ({ text, textVaddr := base, trace := [], ip } : PtDecoder).correctKaslr.textVaddr

/-- Enter a walk: correct the base and take rounds to the end. -/
def Walker.walk (w : Walker) : Part Walker :=
  eval Walker.step { w with base := corrected w.text w.base w.ip }

/-- The arrival of outcomes: they replace the pending ones, and are walked unless the IP is 0. -/
def Walker.load (w : Walker) (os : List Bool) : Part Walker :=
  if w.ip = 0#64 then Part.some { w with pending := os } else Walker.walk { w with pending := os }

/-- Outcomes arriving in several packets. -/
def Walker.loadAll (w : Walker) : List (List Bool) → Part Walker
  | [] => Part.some w
  | os :: rest => (w.load os).bind fun e => Walker.loadAll e rest

/-- The outcomes a window of `n` bits holds, the oldest in the highest bit. -/
def windowBits (bits : U64) : Nat → List Bool
  | 0 => []
  | n + 1 => bits.getLsbD n :: windowBits bits n

namespace PtDecoder

/-- The decoder's pending outcomes. -/
def pending (d : PtDecoder) : List Bool := windowBits d.tntBits d.tntCount

/-- The decoder as a walker. -/
def walker (d : PtDecoder) : Walker := ⟨d.text, d.textVaddr, d.ip, d.pending, d.out⟩

end PtDecoder

/-! ## Packets of outcomes -/

/-- The outcomes under a stop bit, the newest lowest. -/
def payloadNat (os : List Bool) : Nat := os.foldl (fun n o => 2 * n + o.toNat) 1

/-- The TNT payload that carries a list of outcomes. -/
def payloadOf (os : List Bool) : U64 := BitVec.ofNat 64 (payloadNat os)

/-- A way to cut a list of outcomes into TNT payloads: none empty, none over the 47 a packet
holds. -/
structure IsSplit (os : List Bool) (split : List (List Bool)) : Prop where
  joins : split.flatten = os
  sizes : ∀ p ∈ split, p ≠ [] ∧ p.length ≤ 47

/-- The packets of a split. -/
def tntPackets (split : List (List Bool)) : List Packet :=
  split.map fun os => .tnt64 ⟨leBytes 6 (payloadOf os), length_leBytes 6 _⟩

/-- An IP packet. -/
structure IpPacket where
  kind : IpKind
  code : IpCode
  payload : Bytes code.bytes

def ipPackets : Option IpPacket → List Packet
  | none => []
  | some p => [.ip p.kind p.code p.payload]

/-- The arrival of an IP packet: the address is emitted, and pending outcomes are walked from there.
A suppressed one binds nothing. -/
def Walker.takeIp (w : Walker) : Option IpPacket → Part Walker
  | none => Part.some w
  | some p =>
    if p.code = .suppressed then Part.some w
    else
      let ip := ipUpdate p.code.enc (leValue p.payload.1) w.ip
      let bound : Walker := { w with ip, out := w.out ++ (emitted ip).map (⟨.packet, ·⟩) }
      if w.pending = [] then Part.some bound else bound.walk

/-- The decoder's run over the packets, from the fields of `d`. -/
def decodeFrom (d : PtDecoder) (ps : List Packet) : Part (Point × PtDecoder) :=
  eval PtDecoder.step (.packet, { d with trace := encodeAll ps, pos := 0 })

/-- However the outcomes are cut into packets, with or without the same IP packet after them: where
both decodes end they end alike. -/
def CutsAgree (d : PtDecoder) (os : List Bool) : Prop :=
  ∀ split split', IsSplit os split → IsSplit os split' → ∀ last,
    ∀ m ∈ decodeFrom d (tntPackets split ++ ipPackets last),
      ∀ m' ∈ decodeFrom d (tntPackets split' ++ ipPackets last),
        m.2.ip = m'.2.ip ∧ m.2.out = m'.2.out ∧ m.2.pending = m'.2.pending

end Vock.Pt
