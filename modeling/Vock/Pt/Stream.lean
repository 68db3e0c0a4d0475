import Vock.Pt.TipOnly

/-!
# Packet streams

What the packet layer is for, in its own terms: the packets of the trace format with their
payloads, the bytes they are written as, and the addresses their IP packets stand for. Nothing here
is read from the decoder: a packet's fields carry the proofs that it is one, so every `Packet` is
a packet the format allows.

`ScansFrom` is the one link to the scanner: what scanning a byte string from an offset on yields,
with the open block tracked from packet to packet.
-/

namespace Vock.Pt

/-- `n` payload bytes. -/
abbrev Bytes (n : Nat) := { l : List U8 // l.length = n }

/-- The TIP family. -/
inductive IpKind where
  | tip
  | fup
  | tipPge
  | tipPgd
  deriving DecidableEq, Repr

def IpKind.opcode : IpKind → U8
  | .tip => 0x0d#8
  | .fup => 0x1d#8
  | .tipPge => 0x11#8
  | .tipPgd => 0x01#8

/-- The IPBytes codes that are not reserved. -/
inductive IpCode where
  | suppressed
  | update16
  | update32
  | sext48
  | update48
  | full
  deriving DecidableEq, Repr

def IpCode.enc : IpCode → U8
  | .suppressed => 0#8
  | .update16 => 1#8
  | .update32 => 2#8
  | .sext48 => 3#8
  | .update48 => 4#8
  | .full => 6#8

def IpCode.bytes : IpCode → Nat
  | .suppressed => 0
  | .update16 => 2
  | .update32 => 4
  | .sext48 => 6
  | .update48 => 6
  | .full => 8

/-- The extended packets of fixed length that carry nothing the decoders use. -/
inductive ExtKind where
  | psbend | pip | cbr | tma | stop | vmcs | exstop | exstopIp | mwait | pwre | pwrx | cfe | evd
  deriving DecidableEq, Repr

def ExtKind.opcode : ExtKind → U8
  | .psbend => 0x23#8
  | .pip => 0x43#8
  | .cbr => 0x03#8
  | .tma => 0x73#8
  | .stop => 0x83#8
  | .vmcs => 0xc8#8
  | .exstop => 0x62#8
  | .exstopIp => 0xe2#8
  | .mwait => 0xc2#8
  | .pwre => 0x22#8
  | .pwrx => 0xa2#8
  | .cfe => 0x13#8
  | .evd => 0x53#8

def ExtKind.bytes : ExtKind → Nat
  | .psbend | .stop | .exstop | .exstopIp => 0
  | .cbr | .pwre | .cfe => 2
  | .tma | .vmcs | .pwrx => 5
  | .pip => 6
  | .evd => 7
  | .mwait => 10

/-- A chain of continuation bytes: each but the last has its low bit set, and the last has not.
`more` says whether a byte is to follow. -/
def CycChain : Bool → List U8 → Prop
  | false, [] => True
  | true, c :: cs => CycChain (c &&& 1#8 != 0#8) cs
  | _, _ => False

/-- The width of a wide or a narrow payload. -/
def widthOf (wide : Bool) : Nat := if wide then 8 else 4

/-- A packet of the trace format. -/
inductive Packet where
  | pad
  /-- A short TNT is an even byte that is neither PAD nor the extended opcode. -/
  | tnt8 (b : U8) (even : b &&& 1#8 = 0#8) (notPad : b ≠ 0#8) (notExt : b ≠ 2#8)
  | tnt64 (payload : Bytes 6)
  | ip (kind : IpKind) (code : IpCode) (payload : Bytes code.bytes)
  | psb
  | ovf
  /-- Bit 7 of a BBP's byte announces 8-byte BIPs. -/
  | bbp (b : U8)
  | bep (hasIp : Bool)
  | bip (b : U8) (low : b &&& 7#8 = 4#8) (wide : Bool) (payload : Bytes (widthOf wide))
  | mode (payload : Bytes 1)
  | tsc (payload : Bytes 7)
  | mtc (payload : Bytes 1)
  | cyc (b : U8) (low : b &&& 3#8 = 3#8) (chain : List U8)
      (linked : CycChain (b &&& 4#8 != 0#8) chain) (short : chain.length ≤ 8)
  | ptw (hasIp wide : Bool) (payload : Bytes (widthOf wide))
  | mnt (payload : Bytes 8)
  | ext (kind : ExtKind) (payload : Bytes kind.bytes)

namespace Packet

/-- The second byte of a PTW: the length code in bits 6:5, the IP flag in bit 7. -/
def ptwByte (hasIp wide : Bool) : U8 :=
  0x12#8 ||| (if wide then 0x20#8 else 0#8) ||| (if hasIp then 0x80#8 else 0#8)

/-- The bytes a packet is written as. -/
def encode : Packet → List U8
  | .pad => [0x00#8]
  | .tnt8 b _ _ _ => [b]
  | .tnt64 payload => 0x02#8 :: 0xa3#8 :: payload.1
  | .ip kind code payload => (kind.opcode ||| (code.enc <<< 5)) :: payload.1
  | .psb => Pt.psb
  | .ovf => [0x02#8, 0xf3#8]
  | .bbp b => [0x02#8, 0x63#8, b]
  | .bep hasIp => [0x02#8, if hasIp then 0xb3#8 else 0x33#8]
  | .bip b _ _ payload => b :: payload.1
  | .mode payload => 0x99#8 :: payload.1
  | .tsc payload => 0x19#8 :: payload.1
  | .mtc payload => 0x59#8 :: payload.1
  | .cyc b _ chain _ _ => b :: chain
  | .ptw hasIp wide payload => 0x02#8 :: ptwByte hasIp wide :: payload.1
  | .mnt payload => 0x02#8 :: 0xc3#8 :: 0x88#8 :: payload.1
  | .ext kind payload => 0x02#8 :: kind.opcode :: payload.1

/-- The packet a decoder is to see. -/
def pkt : Packet → Pkt
  | .pad => .pad
  | .tnt8 b _ _ _ => .tnt8 ((b >>> 1).setWidth 64)
  | .tnt64 payload => .tnt64 (leValue payload.1)
  | .ip kind code _ => .ip kind.opcode code.enc
  | .psb => .psb
  | .ovf => .ovf
  | .bbp b => .bbp (b.getLsbD 7)
  | .bep _ => .bep
  | _ => .skip

/-- A packet with its length. -/
def scan (p : Packet) : Scan := ⟨p.pkt, p.encode.length⟩

/-- A packet may stand where `block` is open: a BIP only in a block of its width, and a short TNT
that looks like one only outside. -/
def Fits (block : Option Nat) : Packet → Prop
  | .tnt8 b _ _ _ => b &&& 7#8 = 4#8 → block = none
  | .bip _ _ wide _ => block = some (widthOf wide)
  | _ => True

end Packet

/-- A list of packets, each where it may stand. -/
def Framed : Option Nat → List Packet → Prop
  | _, [] => True
  | block, p :: ps => p.Fits block ∧ Framed (blockAfter block p.pkt) ps

/-- The bytes of a list of packets. -/
def encodeAll (ps : List Packet) : List U8 := ps.flatMap Packet.encode

/-- Scanning `data` from `pos` on yields these packets and stops at the end, the block tracked from
packet to packet and `final` what is open there. No scan on the way is `bad` or `truncated`. -/
inductive ScansFrom (data : List U8) : Nat → Option Nat → List Scan → Option Nat → Prop where
  | stop (block : Option Nat) : ScansFrom data data.length block [] block
  | packet {pos : Nat} {block final : Option Nat} {rest : List Scan} (inside : pos < data.length)
      (notBad : (scanPacket data pos block).pkt ≠ .bad)
      (notCut : (scanPacket data pos block).pkt ≠ .truncated)
      (after : ScansFrom data (pos + (scanPacket data pos block).len)
        (blockAfter block (scanPacket data pos block).pkt) rest final) :
      ScansFrom data pos block (scanPacket data pos block :: rest) final

/-! ## Addresses -/

/-- `payload` is a valid compression of `target` under `code` against the previous address. `none`
stands for no address to compress against, after a PSB. -/
def IpCode.Compresses (prev : Option U64) (payload : List U8) (target : U64) : IpCode → Prop
  | .suppressed => False
  | .update16 => (∃ p, prev = some p ∧ target >>> 16 = p >>> 16) ∧ payload = leBytes 2 target
  | .update32 => (∃ p, prev = some p ∧ target >>> 32 = p >>> 32) ∧ payload = leBytes 4 target
  | .sext48 => target = (target.setWidth 48).signExtend 64 ∧ payload = leBytes 6 target
  | .update48 => (∃ p, prev = some p ∧ target >>> 48 = p >>> 48) ∧ payload = leBytes 6 target
  | .full => payload = leBytes 8 target

/-- The target addresses of a list's IP packets, in order, each validly compressed against the one
before: 0 after an OVF, none after a PSB. A suppressed IP binds nothing. -/
inductive Addressed : Option U64 → List Packet → List U64 → Prop where
  | nil (prev : Option U64) : Addressed prev [] []
  | ip {prev : Option U64} {kind : IpKind} {code : IpCode} {payload : Bytes code.bytes} {target : U64}
      {ps : List Packet} {targets : List U64} (valid : code.Compresses prev payload.1 target)
      (after : Addressed (some target) ps targets) :
      Addressed prev (.ip kind code payload :: ps) (target :: targets)
  | suppressed {prev : Option U64} {kind : IpKind} {payload : Bytes IpCode.suppressed.bytes}
      {ps : List Packet} {targets : List U64} (after : Addressed prev ps targets) :
      Addressed prev (.ip kind .suppressed payload :: ps) targets
  | ovf {prev : Option U64} {ps : List Packet} {targets : List U64}
      (after : Addressed (some 0#64) ps targets) : Addressed prev (.ovf :: ps) targets
  | psb {prev : Option U64} {ps : List Packet} {targets : List U64}
      (after : Addressed none ps targets) : Addressed prev (.psb :: ps) targets
  | other {prev : Option U64} {p : Packet} {ps : List Packet} {targets : List U64}
      (plain : p.pkt ≠ .psb ∧ p.pkt ≠ .ovf ∧ ∀ op enc, p.pkt ≠ .ip op enc)
      (after : Addressed prev ps targets) : Addressed prev (p :: ps) targets

end Vock.Pt
