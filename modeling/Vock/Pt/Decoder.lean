import Vock.Pt.Insn
import Vock.Pt.TipOnly

/-!
# The full decoder

`PtDecoder` of `vock/src/mode/engine.rs`: the packet loop of `run` and, inside it, the loop of
`walk_tnt` that steps the kernel text under the pending branch outcomes. `walk_tnt` is called
last in its packet's arm, so the two loops make one step function over a program point and the
decoder's fields: a call of `walk_tnt` goes to `Point.walk`, and the walk comes back to
`Point.packet` where its loop is left.

`text_size` is the length of `text`, and `pc_count` the length of `out`. An entry of `out` keeps,
besides the address, which of the code's two kinds of `emit_ip` call made it.
-/

namespace Vock.Pt

open Library StateTransition

/-- Where an address was emitted: at an IP packet, or while walking TNT bits. -/
inductive Site where
  | packet
  | walk
  deriving DecidableEq, Repr

/-- One emitted PC. -/
structure Emit where
  site : Site
  ip : U64
  deriving DecidableEq, Repr

/-- The decoder's fields. `tntBits` holds `tntCount` outcomes, the oldest in the highest bit. -/
structure PtDecoder where
  text : List U8
  textVaddr : U64
  trace : List U8
  pos : Nat := 0
  ip : U64 := 0#64
  tntBits : U64 := 0#64
  tntCount : Nat := 0
  block : Option Nat := none
  stats : PtStats := {}
  out : List Emit := []
  deriving DecidableEq, Repr

/-! ## The instruction at an address -/

/-- What the walk does at an address. -/
inductive Flow where
  /-- The loop is left: outside the text, or a return, an indirect or a null branch. -/
  | leave
  /-- Not a branch: on to the next instruction. -/
  | next (ip : U64)
  /-- A direct call or jump, followed and emitted. -/
  | jump (ip : U64)
  /-- A conditional branch: where it goes taken, and where not. -/
  | cond (taken fall : U64)
  deriving DecidableEq, Repr

/-- `text_vaddr.wrapping_add(text_size)`. -/
def textEnd (text : List U8) (base : U64) : U64 := base + BitVec.ofNat 64 text.length

/-- The address lies in the text, as the loop's guard tests it. -/
def InText (text : List U8) (base ip : U64) : Prop := base ≤ ip ∧ ip < textEnd text base

instance (text : List U8) (base ip : U64) : Decidable (InText text base ip) := by
  unfold InText; infer_instance

/-- The bytes the decoder sees at an offset of the text: at most 15. -/
def window (text : List U8) (off : Nat) : List U8 :=
  let remain := text.length - off
  (text.drop off).take (if remain > 15 then 15 else remain)

/-- What a decoded instruction at `ip` does. -/
def insnFlow (insn : Insn) (ip : U64) : Flow :=
  let fall := ip + BitVec.ofNat 64 insn.len
  if insn.len = 0 then .leave
  else if insn.isBranch && insn.isCond then .cond (fall + insn.rel) fall
  else if insn.isBranch then
    if insn.rel ≠ 0#64 ∧ 1 < insn.len then .jump (fall + insn.rel) else .leave
  else .next fall

/-- The loop's guard on the address, the fetch and the decode. -/
def flowAt (text : List U8) (base ip : U64) : Flow :=
  if InText text base ip then
    let off := (ip - base).toNat
    if text.length < off then .leave
    else if text.length - off < 1 then .leave
    else insnFlow (decodeInsn (window text off)) ip
  else .leave

/-! ## The walk -/

namespace PtDecoder

/-- `emit_ip`. -/
def emitIp (d : PtDecoder) (site : Site) (ip : U64) : PtDecoder :=
  { d with out := d.out ++ (emitted ip).map (⟨site, ·⟩) }

/-- The KASLR correction at the head of `walk_tnt`. -/
def correctKaslr (d : PtDecoder) : PtDecoder :=
  if kernelBase ≤ d.ip ∧ d.ip ≠ 0#64 ∧ d.text ≠ [] then
    if d.ip < d.textVaddr ∨ textEnd d.text d.textVaddr ≤ d.ip then
      let offset := ((d.ip - d.textVaddr) >>> 21) <<< 21
      if 0#64 < offset ∧ offset < 0x80000000#64 then
        { d with textVaddr := d.textVaddr + offset }
      else d
    else d
  else d

/-- The oldest pending outcome. -/
def nextOutcome (d : PtDecoder) : Bool := (d.tntBits >>> (d.tntCount - 1)) &&& 1#64 != 0#64

/-- One round of the loop of `walk_tnt`; `none` where it is left. -/
def walkStep (d : PtDecoder) : Option PtDecoder :=
  if 0 < d.tntCount then
    match flowAt d.text d.textVaddr d.ip with
    | .leave => none
    | .next ip => some { d with ip }
    | .jump ip => some (emitIp { d with ip } .walk ip)
    | .cond taken fall =>
      let ip := if d.nextOutcome then taken else fall
      some (emitIp { d with ip, tntCount := d.tntCount - 1 } .walk ip)
  else none

end PtDecoder

/-! ## The packet loop -/

/-- The program point: at the head of the packet loop, at the head of the walk loop, or past
both. -/
inductive Point where
  | packet
  | walk
  | done
  deriving DecidableEq, Repr

namespace PtDecoder

/-- `walk_tnt`: correct the text base, then enter the loop. -/
def walkTnt (d : PtDecoder) : Point × PtDecoder := (.walk, d.correctKaslr)

/-- `drop_tnt`. -/
def dropTnt (d : PtDecoder) : PtDecoder := { d with tntBits := 0#64, tntCount := 0 }

/-- `load_tnt`: the highest set bit of the payload is the stop bit, the bits below it are the
outcomes. They replace the ones still held. -/
def loadTnt (d : PtDecoder) (payload : U64) : Point × PtDecoder :=
  if payload = 0#64 then
    (.packet, { d with stats := { d.stats with badPackets := d.stats.badPackets + 1 } }.dropTnt)
  else
    let stop := payload.toNat.log2
    let d := { d with tntBits := payload &&& ((1#64 <<< stop) - 1#64), tntCount := stop }
    if d.text ≠ [] ∧ d.ip ≠ 0#64 ∧ 0 < d.tntCount then d.walkTnt else (.packet, d)

/-- `pt_read_ip` at the payload's first byte: `none` where it answers -1. -/
def ptReadIp (d : PtDecoder) (enc : U8) : Option PtDecoder :=
  let bytes := (ipPayloadLen enc).getD 0
  if bytes = 0 then some d
  else if d.trace.length < d.pos + bytes then none
  else
    let val := leValue ((d.trace.drop d.pos).take bytes)
    some { d with ip := ipUpdate enc val d.ip, pos := d.pos + bytes }

/-- What follows a read IP: emit it, then resume the walk with any outcome still pending. -/
def takeIp (d : PtDecoder) : Point × PtDecoder :=
  let d := d.emitIp .packet d.ip
  if d.text ≠ [] ∧ 0 < d.tntCount then d.walkTnt else (.packet, d)

/-- One packet, `len` bytes long. -/
def packet (d : PtDecoder) (pkt : Pkt) (len : Nat) : Point × PtDecoder :=
  match pkt with
  | .pad | .skip => (.packet, { d with pos := d.pos + len })
  | .tnt8 payload => { d with pos := d.pos + len }.loadTnt payload
  | .tnt64 payload => { d with pos := d.pos + len }.loadTnt payload
  | .ip _ enc =>
    if enc = 0#8 then (.packet, { d with pos := d.pos + len })
    else
      match ptReadIp { d with pos := d.pos + 1 } enc with
      | none => (.done, { d with pos := d.pos + 1, stats := { d.stats with truncated := true } })
      | some d => d.takeIp
  | .psb => (.packet, { d with pos := d.pos + len }.dropTnt)
  | .ovf =>
    (.packet, { d with pos := d.pos + len, ip := 0#64,
                       stats := { d.stats with overflows := d.stats.overflows + 1 } }.dropTnt)
  | .bbp wide => (.packet, { d with pos := d.pos + len, block := some (if wide then 8 else 4) })
  | .bep => (.packet, { d with pos := d.pos + len, block := none })
  | .truncated => (.done, { d with stats := { d.stats with truncated := true } })
  | .bad =>
    let stats := { d.stats with badPackets := d.stats.badPackets + 1 }
    match findPsb d.trace (d.pos + 1) with
    | some next =>
      (.packet, { d with ip := 0#64, block := none, pos := next,
                         stats := { stats with resyncs := stats.resyncs + 1 } }.dropTnt)
    | none => (.done, { d with ip := 0#64, block := none, stats }.dropTnt)

/-- One round of the packet loop. -/
def packetStep (d : PtDecoder) : Point × PtDecoder :=
  if d.pos < d.trace.length then
    let scan := scanPacket d.trace d.pos d.block
    d.packet scan.pkt scan.len
  else (.done, d)

/-- One round of whichever loop the decoder is in. -/
def step : Point × PtDecoder → Option (Point × PtDecoder)
  | (.packet, d) => some d.packetStep
  | (.walk, d) =>
    match d.walkStep with
    | some d' => some (.walk, d')
    | none => some (.packet, d)
  | (.done, _) => none

/-- The state `run` starts from. -/
def start (d : PtDecoder) : Point × PtDecoder :=
  (.packet, { d with pos := 0, ip := 0#64, block := none, stats := {} }.dropTnt)

/-- `run`, as far as it terminates. -/
def run (d : PtDecoder) : Part (Point × PtDecoder) := eval step d.start

/-- The decoder `init` makes over a loaded text and a trace. -/
def new (text : List U8) (base : U64) (trace : List U8) : PtDecoder :=
  { text, textVaddr := base, trace }

end PtDecoder

end Vock.Pt
