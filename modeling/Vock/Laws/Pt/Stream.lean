import Vock.Pt.Stream
import Vock.Laws.Pt.TipOnly

/-!
# Packet boundaries and addresses

Forward laws for the packet layer. `scanAt_encode` reads one written packet back, whatever follows
it; `scansFrom_encodeAll` composes it over a list. `ipUpdate_of_compresses` undoes every valid
compression of an address. `emits_of_addressed` puts them together: over a written stream the
TIP-only decode gets to the end having emitted the kernel addresses among the targets.
-/

namespace Vock.Pt

open Library StateTransition List

variable {b : U8} {ps : List Packet} {p : Packet} {prev : Option U64} {block : Option Nat} {n : Nat} {target : U64}
  {targets : List U64} {code : IpCode} {front : List U8}

/-! ## One packet -/

theorem sized_of_le {avail : Nat} (pkt : Pkt) (h : n ≤ avail) : sized avail pkt n = ⟨pkt, n⟩ := by
  rw [sized, if_neg (by omega)]

/-- The high bit of a byte, as the scanner tests it. -/
theorem wide_bit : ∀ b : U8, (b &&& 0x80#8 != 0#8) = b.getLsbD 7 := by
  decide +kernel

/-- A byte that is none of the opcodes tested first. -/
structure LateOpcode (b : U8) : Prop where
  pad : b ≠ opcPad
  ext : b ≠ opcExt
  mode : b ≠ opcMode
  tsc : b ≠ opcTsc
  mtc : b ≠ opcMtc
  ip : ¬ isIpOpcode (b &&& opmIp)

section

variable (late : LateOpcode b) (rest : List U8)
include late

theorem scanAt_late_outside : scanAt (b :: rest) none = scanTail b rest := by
  simp [scanAt, if_neg late.pad, if_neg late.ext, if_neg late.mode, if_neg late.tsc, if_neg late.mtc, if_neg late.ip]

theorem scanAt_late_inside (width : Nat) :
    scanAt (b :: rest) (some width) =
      if b &&& opmBip = opcBip then sized (rest.length + 1) .skip (1 + width)
      else scanTail b rest := by
  simp [scanAt, if_neg late.pad, if_neg late.ext, if_neg late.mode, if_neg late.tsc, if_neg late.mtc, if_neg late.ip]

theorem scanAt_late_tail (h : b &&& opmBip = opcBip → block = none) : scanAt (b :: rest) block = scanTail b rest := by
  cases block with
  | none => exact scanAt_late_outside late rest
  | some width =>
    rw [scanAt_late_inside late]
    exact if_neg fun hb => nomatch h hb

end

/-- An even byte that is neither PAD nor the extended opcode comes late, and is no CYC. -/
theorem even_late (even : b &&& 1#8 = 0#8) (notPad : b ≠ opcPad) (notExt : b ≠ opcExt) :
    LateOpcode b ∧ b &&& opmCyc ≠ opcCyc := by
  have table : ∀ b : U8, b &&& 1#8 = 0#8 → b ≠ opcMode ∧ b ≠ opcTsc ∧ b ≠ opcMtc ∧
      ¬ isIpOpcode (b &&& opmIp) ∧ b &&& opmCyc ≠ opcCyc := by decide +kernel
  obtain ⟨hmode, htsc, hmtc, hip, hcyc⟩ := table b even
  exact ⟨⟨notPad, notExt, hmode, htsc, hmtc, hip⟩, hcyc⟩

/-- A byte with low bits 100 comes late. -/
theorem bip_late (low : b &&& 7#8 = 4#8) : LateOpcode b := by
  have table : ∀ b : U8, b &&& 7#8 = 4#8 → b &&& 1#8 = 0#8 ∧ b ≠ opcPad ∧ b ≠ opcExt := by
    decide +kernel
  obtain ⟨even, notPad, notExt⟩ := table b low
  exact (even_late even notPad notExt).1

/-- A byte with low bits 11 comes late, and is no BIP. -/
theorem cyc_late (low : b &&& 3#8 = 3#8) : LateOpcode b ∧ b &&& opmBip ≠ opcBip := by
  have table : ∀ b : U8, b &&& 3#8 = 3#8 → b ≠ opcPad ∧ b ≠ opcExt ∧ b ≠ opcMode ∧ b ≠ opcTsc ∧
      b ≠ opcMtc ∧ ¬ isIpOpcode (b &&& opmIp) ∧ b &&& opmBip ≠ opcBip := by decide +kernel
  obtain ⟨hpad, hext, hmode, htsc, hmtc, hip, hbip⟩ := table b low
  exact ⟨⟨hpad, hext, hmode, htsc, hmtc, hip⟩, hbip⟩

theorem scanCyc_chain {more : Bool} {chain : List U8} (n : Nat) (linked : CycChain more chain)
    (short : n + chain.length ≤ 9) (t : List U8) :
    scanCyc n (chain ++ t) more = ⟨.skip, n + chain.length⟩ := by
  induction chain generalizing n more with
  | nil =>
    cases more with
    | false => cases t <;> rfl
    | true => exact linked.elim
  | cons c cs ih =>
    cases more with
    | false => exact linked.elim
    | true =>
      rw [length_cons] at short
      simp only [cons_append, scanCyc]
      rw [if_neg (by show ¬ 9 ≤ n; omega)]
      refine (ih (n + 1) linked (by omega)).trans ?_
      rw [length_cons, Nat.add_right_comm, Nat.add_assoc]

/-- The extended opcodes with a fixed length, over their payload. -/
theorem scanExt_fixed {e : U8} {pkt : Pkt} (h : extFixed e = some (pkt, n + 2))
    (payload : Bytes n) (t : List U8) : scanExt (e :: (payload.1 ++ t)) = ⟨pkt, n + 2⟩ := by
  have hlen : (payload.1 ++ t).length = n + t.length := by rw [length_append, payload.2]
  simp only [scanExt, extArm, h]
  rw [if_neg (by omega)]

/-- The table of fixed lengths has every extended packet that carries nothing. -/
theorem extFixed_ext (kind : ExtKind) : extFixed kind.opcode = some (.skip, kind.bytes + 2) := by
  cases kind <;> rfl

theorem scanExt_ptw (hasIp wide : Bool) (payload : Bytes (widthOf wide)) (t : List U8) :
    scanExt (Packet.ptwByte hasIp wide :: (payload.1 ++ t)) = ⟨.skip, widthOf wide + 2⟩ := by
  have harm : extArm (Packet.ptwByte hasIp wide) (payload.1 ++ t) =
      .ok (.skip, widthOf wide + 2) := by
    cases hasIp <;> cases wide <;> rfl
  simp only [scanExt, harm]
  rw [if_neg (by rw [length_append]; omega)]

theorem scanExt_tnt64 (payload : Bytes 6) (t : List U8) :
    scanExt (0xa3#8 :: (payload.1 ++ t)) = ⟨.tnt64 (leValue payload.1), 8⟩ := by
  have hlen : (payload.1 ++ t).length = 6 + t.length := by rw [length_append, payload.2]
  have harm : extArm 0xa3#8 (payload.1 ++ t) = .ok (.tnt64 (leValue payload.1), 8) := by
    show (if (payload.1 ++ t).length + 2 < 8 then Except.error Scan.trunc
      else Except.ok (Pkt.tnt64 (leValue ((payload.1 ++ t).take 6)), 8)) = _
    rw [if_neg (by omega), take_append_of_le_length (Nat.le_of_eq payload.2.symm),
      take_of_length_le (Nat.le_of_eq payload.2)]
  simp only [scanExt, harm]
  rw [if_neg (by omega)]

theorem scanExt_mnt (payload : Bytes 8) (t : List U8) :
    scanExt (0xc3#8 :: 0x88#8 :: (payload.1 ++ t)) = ⟨.skip, 11⟩ := by
  have harm : extArm 0xc3#8 (0x88#8 :: (payload.1 ++ t)) = .ok (.skip, 11) := rfl
  simp only [scanExt, harm]
  rw [if_neg (by rw [length_cons, length_append]; omega)]

theorem scanExt_bbp (b : U8) (t : List U8) :
    scanExt (0x63#8 :: b :: t) = ⟨.bbp (b.getLsbD 7), 3⟩ := by
  have harm : extArm 0x63#8 (b :: t) = .ok (.bbp (b &&& 0x80#8 != 0#8), 3) := rfl
  simp only [scanExt, harm, wide_bit]
  rw [if_neg (by rw [length_cons]; omega)]

/-- A byte of the TIP family, whatever its code. -/
theorem scanAt_ip_encode (kind : IpKind) (code : IpCode) (payload : Bytes code.bytes) (t : List U8)
    (block : Option Nat) :
    scanAt ((kind.opcode ||| (code.enc <<< 5)) :: (payload.1 ++ t)) block =
      ⟨.ip kind.opcode code.enc, 1 + code.bytes⟩ := by
  have hsized : scanAt ((kind.opcode ||| (code.enc <<< 5)) :: (payload.1 ++ t)) block =
      sized ((payload.1 ++ t).length + 1) (.ip kind.opcode code.enc) (1 + code.bytes) := by
    cases kind <;> cases code <;> rfl
  rw [hsized, sized_of_le]
  rw [length_append]
  omega

/-- A written packet is read back, with its length, whatever follows it. -/
theorem scanAt_encode (p : Packet) (block : Option Nat) (fits : p.Fits block) (t : List U8) :
    scanAt (p.encode ++ t) block = p.scan := by
  cases p with
  | pad => rfl
  | tnt8 b even notPad notExt =>
    obtain ⟨late, hcyc⟩ := even_late even notPad notExt
    show scanAt (b :: t) block = _
    rw [scanAt_late_tail late t fits, scanTail, if_neg hcyc]
    exact if_pos even
  | tnt64 payload =>
    refine (scanExt_tnt64 payload t).trans ?_
    rw [Packet.scan, Packet.encode, length_cons, length_cons, payload.2]
    rfl
  | ip kind code payload =>
    refine (scanAt_ip_encode kind code payload t block).trans ?_
    rw [Packet.scan, Packet.encode, length_cons, payload.2, Nat.add_comm]
    rfl
  | psb =>
    exact scanExt_fixed (e := 0x82#8) rfl ⟨psb.drop 2, rfl⟩ t
  | ovf => exact scanExt_fixed (e := 0xf3#8) (n := 0) rfl ⟨[], rfl⟩ t
  | bbp b => exact scanExt_bbp b t
  | bep hasIp =>
    cases hasIp with
    | false => exact scanExt_fixed (e := 0x33#8) rfl ⟨[], rfl⟩ t
    | true => exact scanExt_fixed (e := 0xb3#8) (n := 0) rfl ⟨[], rfl⟩ t
  | bip b low wide payload =>
    show scanAt (b :: (payload.1 ++ t)) block = _
    rw [show block = some (widthOf wide) from fits, scanAt_late_inside (bip_late low)]
    rw [if_pos (show b &&& opmBip = opcBip from low), sized_of_le, Packet.scan, Packet.encode,
      length_cons, payload.2, Nat.add_comm]
    · rfl
    · rw [length_append]
      omega
  | mode payload | mtc payload =>
    show sized ((payload.1 ++ t).length + 1) .skip 2 = _
    rw [sized_of_le, Packet.scan, Packet.encode, length_cons, payload.2]
    · rfl
    · rw [length_append]
      omega
  | tsc payload =>
    show sized ((payload.1 ++ t).length + 1) .skip 8 = _
    rw [sized_of_le, Packet.scan, Packet.encode, length_cons, payload.2]
    · rfl
    · rw [length_append]
      omega
  | cyc b low chain linked short =>
    obtain ⟨late, hbip⟩ := cyc_late low
    show scanAt (b :: (chain ++ t)) block = _
    rw [scanAt_late_tail late _ (fun h => absurd h hbip), scanTail,
      if_pos (show b &&& opmCyc = opcCyc from low)]
    refine (scanCyc_chain 1 linked (by omega) t).trans ?_
    rw [Packet.scan, Nat.add_comm]
    rfl
  | ptw hasIp wide payload =>
    refine (scanExt_ptw hasIp wide payload t).trans ?_
    rw [Packet.scan, Packet.encode, length_cons, length_cons, payload.2]
    rfl
  | mnt payload =>
    refine (scanExt_mnt payload t).trans ?_
    rw [Packet.scan, Packet.encode, length_cons, length_cons, length_cons, payload.2]
    rfl
  | ext kind payload =>
    refine (scanExt_fixed (extFixed_ext kind) payload t).trans ?_
    rw [Packet.scan, Packet.encode, length_cons, length_cons, payload.2]
    rfl

/-! ## Lists of packets -/

theorem encode_ne_nil (p : Packet) : p.encode ≠ [] := by
  cases p <;> exact fun h => nomatch h

theorem pkt_ok (p : Packet) : p.scan.Ok := by
  constructor <;> cases p <;> exact fun h => nomatch h

theorem length_encodeAll_cons (p : Packet) (ps : List Packet) :
    (encodeAll (p :: ps)).length = p.encode.length + (encodeAll ps).length := by
  rw [encodeAll, flatMap_cons, length_append]
  rfl

/-- One written packet, scanned where it stands. -/
theorem scanPacket_encode (front : List U8) (ps : List Packet)
    (fits : p.Fits block) :
    scanPacket (front ++ encodeAll (p :: ps)) front.length block = p.scan := by
  rw [scanPacket, drop_left]
  exact scanAt_encode p block fits _

/-- The block open after a list of packets. -/
def blockAt : Option Nat → List Packet → Option Nat
  | block, [] => block
  | block, p :: ps => blockAt (blockAfter block p.pkt) ps

/-- A written list of packets is scanned as those packets, to the end. -/
theorem scansFrom_encodeAll (framed : Framed block ps)
    (front : List U8) :
    ScansFrom (front ++ encodeAll ps) front.length block (ps.map Packet.scan) (blockAt block ps) := by
  induction ps generalizing block front with
  | nil =>
    have hend : front.length = (front ++ encodeAll []).length := by
      rw [show encodeAll [] = [] from rfl, append_nil]
    rw [hend]
    exact .stop block
  | cons p ps ih =>
    obtain ⟨fits, rest⟩ := framed
    have hscan := scanPacket_encode front ps fits
    have hlong := length_pos_iff.mpr (encode_ne_nil p)
    -- the rest of the list, scanned from the end of this packet
    have hsplit : front ++ encodeAll (p :: ps) = (front ++ p.encode) ++ encodeAll ps := by
      rw [encodeAll, append_assoc]
      rfl
    have hafter := ih rest (front ++ p.encode)
    rw [← hsplit, length_append] at hafter
    rw [map_cons, ← hscan]
    refine .packet ?_ ?_ ?_ ?_
    · rw [length_append, length_encodeAll_cons]
      omega
    · rw [hscan]
      exact (pkt_ok p).1
    · rw [hscan]
      exact (pkt_ok p).2
    · rw [hscan]
      exact hafter

/-! ## Addresses -/

/-- Upper bits kept, lower bits replaced. -/
theorem merge_eq {prev mask : U64}
    (hmask : ∀ j < 64, mask.getLsbD j = decide (j < 8 * n))
    (same : target >>> (8 * n) = prev >>> (8 * n)) :
    (prev &&& ~~~mask) ||| leValue (leBytes n target) = target := by
  apply BitVec.eq_of_getLsbD_eq
  intro j hj
  rw [BitVec.getLsbD_or, BitVec.getLsbD_and, BitVec.getLsbD_not, getLsbD_leValue_leBytes n target j hj,
    hmask j hj, decide_eq_true hj, Bool.true_and]
  by_cases hlow : j < 8 * n
  · rw [decide_eq_true hlow, Bool.not_true, Bool.and_false, Bool.false_or, Bool.true_and]
  · have hbit := congrArg (fun w : U64 => w.getLsbD (j - 8 * n)) same
    simp only [BitVec.getLsbD_ushiftRight, Nat.add_sub_cancel' (Nat.not_lt.mp hlow)] at hbit
    rw [decide_eq_false hlow, Bool.not_false, Bool.and_true, Bool.false_and, Bool.or_false, hbit]

/-- The low 48 bits of a sign-extended address, extended again. -/
theorem sext_eq (canonical : target = (target.setWidth 48).signExtend 64) :
    (if leValue (leBytes 6 target) &&& (1#64 <<< 47) ≠ 0#64
      then leValue (leBytes 6 target) ||| 0xFFFF000000000000#64
      else leValue (leBytes 6 target)) = target := by
  have hlow : ∀ j < 64, (leValue (leBytes 6 target)).getLsbD j = (decide (j < 48) && target.getLsbD j) :=
    fun j hj => getLsbD_leValue_leBytes 6 target j hj
  have hhigh : ∀ j < 64, 48 ≤ j → target.getLsbD j = target.getLsbD 47 := by
    intro j hj hge
    rw [canonical, BitVec.getLsbD_signExtend, BitVec.getLsbD_signExtend, BitVec.msb_setWidth]
    simp [hj, Nat.not_lt.mpr hge]
  have hmask : ∀ j < 64, (0xFFFF000000000000#64).getLsbD j = decide (48 ≤ j) := by decide
  have hbit : leValue (leBytes 6 target) &&& (1#64 <<< 47) =
      if target.getLsbD 47 then 1#64 <<< 47 else 0#64 := by
    have hsign := hlow 47 (by decide)
    rw [show (1#64 <<< 47) = BitVec.twoPow 64 47 from rfl, BitVec.and_twoPow, hsign, decide_eq_true (by decide),
      Bool.true_and]
  apply BitVec.eq_of_getLsbD_eq
  intro j hj
  cases hsign : target.getLsbD 47 with
  | true =>
    rw [hbit, hsign, if_pos (by decide), BitVec.getLsbD_or, hlow j hj, hmask j hj]
    by_cases hge : 48 ≤ j
    · rw [decide_eq_true hge, Bool.or_true, hhigh j hj hge, hsign]
    · rw [decide_eq_false hge, Bool.or_false, decide_eq_true (Nat.not_le.mp hge), Bool.true_and]
  | false =>
    rw [hbit, hsign, if_neg Bool.false_ne_true, if_neg (not_not.mpr rfl), hlow j hj]
    by_cases hge : 48 ≤ j
    · rw [decide_eq_false (Nat.not_lt.mpr hge), Bool.false_and, hhigh j hj hge, hsign]
    · rw [decide_eq_true (Nat.not_le.mp hge), Bool.true_and]

/-- Decompression undoes every valid compression against the last IP, or against no address. -/
theorem ipUpdate_of_compresses {payload : List U8}
    {lastIp : U64} (valid : code.Compresses prev payload target)
    (known : ∀ p, prev = some p → p = lastIp) :
    ipUpdate code.enc (leValue payload) lastIp = target := by
  cases code with
  | suppressed => exact valid.elim
  | update16 =>
    obtain ⟨⟨p, hp, same⟩, rfl⟩ := valid
    rw [known p hp] at same
    exact merge_eq (by decide) same
  | update32 =>
    obtain ⟨⟨p, hp, same⟩, rfl⟩ := valid
    rw [known p hp] at same
    exact merge_eq (by decide) same
  | sext48 =>
    obtain ⟨canonical, rfl⟩ := valid
    exact sext_eq canonical
  | update48 =>
    obtain ⟨⟨p, hp, same⟩, rfl⟩ := valid
    rw [known p hp] at same
    exact merge_eq (by decide) same
  | full =>
    obtain rfl : payload = leBytes 8 target := valid
    exact leValue_leBytes_eight target

/-! ## The decode of a written stream -/

theorem ipPayloadLen_enc (code : IpCode) : ipPayloadLen code.enc = some code.bytes := by
  cases code <;> rfl

/-- The payload a decoder reads at a written IP packet. -/
theorem ipPayload_encode {kind : IpKind} {payload : Bytes code.bytes} :
    ipPayload (front ++ encodeAll (.ip kind code payload :: ps)) front.length code.enc =
      leValue payload.1 := by
  rw [ipPayload, drop_front, ipPayloadLen_enc]
  show leValue (((payload.1 ++ flatMap Packet.encode ps)).take code.bytes) = _
  rw [take_append_of_le_length (Nat.le_of_eq payload.2.symm),
    take_of_length_le (Nat.le_of_eq payload.2)]

/-- The kernel addresses of a list, in order. -/
def kernelPcs (targets : List U64) : List U64 := targets.filter (kernelBase ≤ ·)

theorem kernelPcs_cons (target : U64) (targets : List U64) :
    kernelPcs (target :: targets) = emitted target ++ kernelPcs targets := by
  by_cases h : kernelBase ≤ target
  · rw [kernelPcs, filter_cons_of_pos (by simpa only [decide_eq_true_eq] using h), emitted, if_pos h]
    rfl
  · rw [kernelPcs, filter_cons_of_neg (by simpa only [decide_eq_true_eq] using h), emitted, if_neg h]
    rfl

/-- One written packet, handled where it stands. -/
theorem tip_packet (ps : List Packet) {s : TipState}
    (fits : p.Fits s.block) (hpos : s.pos = front.length) (hrun : s.stopped = false) :
    ∃ s', tipStep (front ++ encodeAll (p :: ps)) s = some s' ∧
      Handled (front ++ encodeAll (p :: ps)) s p.scan s' := by
  have hscan := scanPacket_encode front ps fits
  have hlong := length_pos_iff.mpr (encode_ne_nil p)
  refine ⟨_, tipStep_of_live hrun ?_, ?_⟩
  · rw [length_append, length_encodeAll_cons]
    omega
  · rw [hpos, hscan]
    exact packet_handled _ _ (pkt_ok p)

/-- From any state at the packets `ps` that knows the previous address, the decode gets to their
end with the kernel ones of `targets` emitted. -/
def Emits (prev : Option U64) (ps : List Packet) (targets : List U64) : Prop :=
  ∀ (front : List U8) (s : TipState), Framed s.block ps → s.pos = front.length → s.stopped = false →
    (∀ p, prev = some p → p = s.lastIp) →
    ∃ s', Reaches (tipStep (front ++ encodeAll ps)) s s' ∧
      s'.pos = (front ++ encodeAll ps).length ∧ s'.stopped = false ∧
      s'.out = s.out ++ kernelPcs targets

/-- One packet in front: it must leave the address the rest is compressed against, and emit the
kernel ones of its own targets. -/
theorem Emits.cons {prev' : Option U64}
    (own : List U64)
    (leaves : ∀ front (s : TipState), (∀ q, prev = some q → q = s.lastIp) →
      (∀ q, prev' = some q →
        q = lastIpAfter (front ++ encodeAll (p :: ps)) front.length s.lastIp p.pkt) ∧
      pcsOf (front ++ encodeAll (p :: ps)) front.length s.lastIp p.pkt = kernelPcs own)
    (rest : Emits prev' ps targets) : Emits prev (p :: ps) (own ++ targets) := by
  intro front s framed hpos hrun known
  obtain ⟨hleft, hpcs⟩ := leaves front s known
  obtain ⟨s₁, hstep, handled⟩ := tip_packet ps framed.1 hpos hrun
  have hsplit : front ++ encodeAll (p :: ps) = (front ++ p.encode) ++ encodeAll ps := by
    rw [encodeAll, append_assoc]
    rfl
  obtain ⟨s', hreach, hpos', hrun', hout'⟩ := rest (front ++ p.encode) s₁
    (by rw [handled.block]; exact framed.2)
    (by rw [handled.pos, hpos, length_append]; rfl)
    (by rw [handled.stopped, hrun])
    (by rw [handled.lastIp, hpos]; exact hleft)
  rw [← hsplit] at hreach hpos'
  refine ⟨s', .head hstep hreach, hpos', hrun', ?_⟩
  have hown : s₁.out = s.out ++ kernelPcs own := by
    rw [handled.out, hpos]
    exact congrArg (s.out ++ ·) hpcs
  rw [hout', hown, append_assoc, kernelPcs, kernelPcs, kernelPcs, filter_append]

/-- A packet that binds no address and keeps the last one. -/
theorem Emits.cons_plain (keeps : ∀ data pos ip, lastIpAfter data pos ip p.pkt = ip ∧ pcsOf data pos ip p.pkt = [])
    (rest : Emits prev ps targets) : Emits prev (p :: ps) targets := by
  refine Emits.cons [] (fun front s known => ⟨?_, (keeps _ _ _).2⟩) rest
  rw [(keeps _ _ _).1]
  exact known

/-- Over a written stream the decode gets to the end with the kernel targets emitted. -/
theorem emits_of_addressed (addressed : Addressed prev ps targets) : Emits prev ps targets := by
  induction addressed with
  | nil prev =>
    intro front s framed hpos hrun known
    refine ⟨s, .refl, ?_, hrun, (append_nil _).symm⟩
    rw [hpos, show encodeAll [] = [] from rfl, append_nil]
  | @ip prev kind code payload target ps targets valid after ih =>
    have hne : 0 < (ipPayloadLen code.enc).getD 0 := by
      cases code with
      | suppressed => exact valid.elim
      | _ => decide
    refine Emits.cons [target] (fun front s known => ?_) ih
    have hip : ipUpdate code.enc (ipPayload (front ++ encodeAll (.ip kind code payload :: ps))
        front.length code.enc) s.lastIp = target := by
      rw [ipPayload_encode]
      exact ipUpdate_of_compresses valid known
    rw [show (Packet.ip kind code payload).pkt = .ip kind.opcode code.enc from rfl, lastIpAfter_ip,
      pcsOf_ip, if_pos hne, if_pos hne, hip, kernelPcs_cons]
    exact ⟨fun q hq => (Option.some.inj hq).symm, (append_nil _).symm⟩
  | suppressed after ih => exact ih.cons_plain fun _ _ _ => ⟨rfl, rfl⟩
  | ovf after ih =>
    exact Emits.cons [] (fun _ _ _ => ⟨fun q hq => (Option.some.inj hq).symm, rfl⟩) ih
  | psb after ih =>
    refine Emits.cons [] (fun _ _ _ => ⟨?_, rfl⟩) ih
    intro q hq
    cases hq
  | @other prev p ps targets plain after ih =>
    obtain ⟨hpsb, hovf, hip⟩ := plain
    refine ih.cons_plain fun data pos ip => ?_
    cases hp : p.pkt with
    | ip op enc => exact absurd hp (hip op enc)
    | ovf => exact absurd hp hovf
    | _ => exact ⟨rfl, rfl⟩

end Vock.Pt
