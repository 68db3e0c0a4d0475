import Vock.Word

/-!
# The Intel PT packet layer

The packet scanner of `vock/src/mode/engine.rs`: the opcode constants, the packets the decoders
act on, and the one length table every packet of the stream is measured by. The scanner is read at
a position through the bytes from that position on, so `avail` is the length of what is left.
-/

namespace Vock.Pt

/-! ## Opcodes -/

def opcPad : U8 := 0x00#8
def opcExt : U8 := 0x02#8
def opcMode : U8 := 0x99#8
def opcTsc : U8 := 0x19#8
def opcMtc : U8 := 0x59#8

def opmIp : U8 := 0x1f#8
def opcTip : U8 := 0x0d#8
def opcTipPge : U8 := 0x11#8
def opcTipPgd : U8 := 0x01#8
def opcFup : U8 := 0x1d#8

def opmBip : U8 := 0x07#8
def opcBip : U8 := 0x04#8

def opmTnt8 : U8 := 0x01#8
def opcTnt8 : U8 := 0x00#8

def opmCyc : U8 := 0x03#8
def opcCyc : U8 := 0x03#8
def cycExp0 : U8 := 0x04#8
def cycExpN : U8 := 0x01#8
def cycMaxLen : Nat := 9

def extPsb : U8 := 0x82#8
def extTnt64 : U8 := 0xa3#8
def extPip : U8 := 0x43#8
def extOvf : U8 := 0xf3#8
def extPsbend : U8 := 0x23#8
def extCbr : U8 := 0x03#8
def extTma : U8 := 0x73#8
def extStop : U8 := 0x83#8
def extVmcs : U8 := 0xc8#8
def extExt2 : U8 := 0xc3#8
def extExstop : U8 := 0x62#8
def extExstopIp : U8 := 0xe2#8
def extMwait : U8 := 0xc2#8
def extPwre : U8 := 0x22#8
def extPwrx : U8 := 0xa2#8
def extBbp : U8 := 0x63#8
def extBep : U8 := 0x33#8
def extBepIp : U8 := 0xb3#8
def extCfe : U8 := 0x13#8
def extEvd : U8 := 0x53#8
def extPtw : U8 := 0x12#8
def ext2Mnt : U8 := 0x88#8

/-- The resynchronization point: `02 82` eight times. -/
def psb : List U8 :=
  [0x02#8, 0x82#8, 0x02#8, 0x82#8, 0x02#8, 0x82#8, 0x02#8, 0x82#8,
   0x02#8, 0x82#8, 0x02#8, 0x82#8, 0x02#8, 0x82#8, 0x02#8, 0x82#8]

/-! ## Packets -/

/-- The packets the decoders act on, and the outcomes that are not packets. -/
inductive Pkt where
  | pad
  /-- Short TNT: 7 payload bits, stop bit included. -/
  | tnt8 (payload : U64)
  /-- Long TNT: 48 payload bits, stop bit included. -/
  | tnt64 (payload : U64)
  /-- TIP, FUP, TIP.PGE or TIP.PGD; `enc` is the IPBytes field. -/
  | ip (opcode enc : U8)
  | psb
  | ovf
  | bbp (wide : Bool)
  | bep
  | skip
  | bad
  | truncated
  deriving DecidableEq, Repr

/-- A packet with its encoded length, which is zero for `bad` and `truncated`. -/
structure Scan where
  pkt : Pkt
  len : Nat
  deriving DecidableEq, Repr

def Scan.bad : Scan := ⟨.bad, 0⟩
def Scan.trunc : Scan := ⟨.truncated, 0⟩

/-- Payload size of a TIP-family packet. Codes 5 and 7 are reserved. -/
def ipPayloadLen (enc : U8) : Option Nat :=
  if enc = 0#8 then some 0
  else if enc = 1#8 then some 2
  else if enc = 2#8 then some 4
  else if enc = 3#8 ∨ enc = 4#8 then some 6
  else if enc = 6#8 then some 8
  else none

/-- The extended opcodes whose packet and length the second byte alone decides. -/
def extFixed (e : U8) : Option (Pkt × Nat) :=
  if e = extPsb then some (.psb, 16)
  else if e = extPsbend then some (.skip, 2)
  else if e = extPip then some (.skip, 8)
  else if e = extOvf then some (.ovf, 2)
  else if e = extCbr then some (.skip, 4)
  else if e = extTma then some (.skip, 7)
  else if e = extStop then some (.skip, 2)
  else if e = extVmcs then some (.skip, 7)
  else if e = extExstop ∨ e = extExstopIp then some (.skip, 2)
  else if e = extMwait then some (.skip, 12)
  else if e = extPwre then some (.skip, 4)
  else if e = extPwrx then some (.skip, 7)
  else if e = extCfe then some (.skip, 4)
  else if e = extEvd then some (.skip, 9)
  else if e = extBep ∨ e = extBepIp then some (.bep, 2)
  else none

/-- One arm of the extended-opcode match over the bytes after `02 e`: the packet and its total
length, or the scan an early `return` answers. -/
def extArm (e : U8) (payload : List U8) : Except Scan (Pkt × Nat) :=
  match extFixed e with
  | some r => .ok r
  | none =>
    if e = extTnt64 then
      if payload.length + 2 < 8 then .error .trunc
      else .ok (.tnt64 (leValue (payload.take 6)), 8)
    else if e = extBbp then
      match payload with
      | [] => .error .trunc
      -- bit 7 of the payload byte selects 8-byte BIPs
      | p :: _ => .ok (.bbp (p &&& 0x80#8 != 0#8), 3)
    else if e = extExt2 then
      match payload with
      | [] => .error .trunc
      | p :: _ => if p = ext2Mnt then .ok (.skip, 11) else .error .bad
    else if e &&& opmIp = extPtw then
      -- PTW: the length code is in bits 6:5 of the second byte
      if (e >>> 5) &&& 3#8 = 0#8 then .ok (.skip, 6)
      else if (e >>> 5) &&& 3#8 = 1#8 then .ok (.skip, 10)
      else .error .bad
    else .error .bad

/-- The extended opcodes, over the bytes after `02`. -/
def scanExt : List U8 → Scan
  | [] => .trunc
  | e :: payload =>
    match extArm e payload with
    | .error s => s
    | .ok (pkt, total) => if payload.length + 2 < total then .trunc else ⟨pkt, total⟩

/-- The CYC loop over the bytes after the first `n`: `more` is the continuation flag last read. -/
def scanCyc (n : Nat) : List U8 → Bool → Scan
  | _, false => ⟨.skip, n⟩
  | [], true => if cycMaxLen ≤ n then .bad else .trunc
  | c :: rest, true =>
    if cycMaxLen ≤ n then .bad else scanCyc (n + 1) rest (c &&& cycExpN != 0#8)

/-- CYC and short TNT, the last two families tested. -/
def scanTail (b : U8) (rest : List U8) : Scan :=
  if b &&& opmCyc = opcCyc then scanCyc 1 rest (b &&& cycExp0 != 0#8)
  else if b &&& opmTnt8 = opcTnt8 then ⟨.tnt8 ((b >>> 1).setWidth 64), 1⟩
  else .bad

/-- A packet of `n` bytes, if so many are there. -/
def sized (avail : Nat) (pkt : Pkt) (n : Nat) : Scan := if avail < n then .trunc else ⟨pkt, n⟩

/-- The opcode is one of the TIP family's. -/
def isIpOpcode (short : U8) : Prop :=
  short = opcTip ∨ short = opcFup ∨ short = opcTipPge ∨ short = opcTipPgd

instance (short : U8) : Decidable (isIpOpcode short) := by unfold isIpOpcode; infer_instance

/-- Decode one packet header at the front of the remaining bytes. `block` is `some width` between
a BBP and its BEP. -/
def scanAt : List U8 → Option Nat → Scan
  | [], _ => .trunc
  | b :: rest, block =>
    if b = opcPad then ⟨.pad, 1⟩
    else if b = opcExt then scanExt rest
    else if b = opcMode then sized (rest.length + 1) .skip 2
    else if b = opcTsc then sized (rest.length + 1) .skip 8
    else if b = opcMtc then sized (rest.length + 1) .skip 2
    else if isIpOpcode (b &&& opmIp) then
      match ipPayloadLen ((b >>> 5) &&& 7#8) with
      | none => .bad
      | some n => sized (rest.length + 1) (.ip (b &&& opmIp) ((b >>> 5) &&& 7#8)) (1 + n)
    else
      match block with
      | none => scanTail b rest
      -- inside a block a byte with low bits 100 is a BIP of the announced width
      | some width =>
        if b &&& opmBip = opcBip then sized (rest.length + 1) .skip (1 + width)
        else scanTail b rest

/-- `scan_packet`: decode one packet header at `pos`. -/
def scanPacket (data : List U8) (pos : Nat) (block : Option Nat) : Scan :=
  scanAt (data.drop pos) block

/-- `find_psb`: the offset of the next PSB at or after `start`. -/
def findPsb (data : List U8) (start : Nat) : Option Nat :=
  if data.length < psb.length then none
  else
    let last := data.length - psb.length
    let lo := min start (last + 1)
    (List.range' lo (last + 1 - lo)).find? fun i => (data.drop i).take psb.length = psb

/-- Stream-health counters. -/
structure PtStats where
  badPackets : Nat := 0
  resyncs : Nat := 0
  overflows : Nat := 0
  truncated : Bool := false
  deriving DecidableEq, Repr

/-- How a packet changes the open block: a BBP opens one and fixes the BIP width, a BEP closes
it. -/
def blockAfter (block : Option Nat) : Pkt → Option Nat
  | .bbp wide => some (if wide then 8 else 4)
  | .bep => none
  | _ => block

end Vock.Pt
