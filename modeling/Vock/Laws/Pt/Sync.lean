import Vock.Laws.Pt.Stream

/-!
# What survives a PSB

The TIP-only decode steps over a PSB and keeps its last IP and its open block. So what it emits
after a PSB is what it emits from the PSB alone exactly when the packets before it leave nothing
behind that matters: no open block, and no last IP in the kernel range (`psb_sync_iff`).
-/

namespace Vock.Pt

open Library StateTransition List

variable {data : List U8} {block : Option Nat} {s : TipState} {ip : U64} {pos : Nat}

/-! ## A packet-aligned prefix -/

/-- The scanner consumes the bytes completely, with no undecodable and no cut packet. -/
def Aligned (data : List U8) : Prop := ∃ scans final, ScansFrom data 0 none scans final

theorem scanPacket_append_right (t : List U8)
    (inside : pos < data.length) (notCut : (scanPacket data pos block).pkt ≠ .truncated) :
    scanPacket (data ++ t) pos block = scanPacket data pos block := by
  rw [scanPacket, drop_append_of_le_length (Nat.le_of_lt inside)]
  exact scanAt_append t notCut

theorem ipPayload_append_right (t : List U8) {enc : U8}
    (h : pos + 1 + (ipPayloadLen enc).getD 0 ≤ data.length) :
    ipPayload (data ++ t) pos enc = ipPayload data pos enc := by
  rw [ipPayload, ipPayload, drop_append_of_le_length (by omega),
    take_append_of_le_length (by rw [length_drop]; omega)]

theorem packet_ip (data : List U8) (s : TipState) (op enc : U8) (len : Nat) :
    s.packet data (.ip op enc) len =
      if 0 < (ipPayloadLen enc).getD 0 then
        { s with lastIp := ipUpdate enc (ipPayload data s.pos enc) s.lastIp,
                 out := s.out ++ emitted (ipUpdate enc (ipPayload data s.pos enc) s.lastIp),
                 pos := s.pos + len }
      else { s with pos := s.pos + len } := rfl

/-- A packet of the data is handled the same when more bytes follow. -/
theorem packet_append_right (t : List U8)
    (inside : s.pos < data.length) (ok : (scanPacket data s.pos s.block).Ok) :
    s.packet (data ++ t) (scanPacket data s.pos s.block).pkt (scanPacket data s.pos s.block).len =
      s.packet data (scanPacket data s.pos s.block).pkt (scanPacket data s.pos s.block).len := by
  have hext : (scanPacket data s.pos s.block).len ≤ (data.drop s.pos).length :=
    (scanAt_extent _ _ ok).2
  rw [length_drop] at hext
  cases hp : (scanPacket data s.pos s.block).pkt with
  | ip op enc =>
    obtain ⟨n, hn, hlen⟩ := scanAt_ip hp
    have hpay : ipPayload (data ++ t) s.pos enc = ipPayload data s.pos enc := by
      apply ipPayload_append_right
      have : (scanPacket data s.pos s.block).len = 1 + n := hlen
      rw [hn, Option.getD_some]
      omega
    rw [packet_ip, packet_ip, hpay]
  | bad => exact absurd hp ok.1
  | truncated => exact absurd hp ok.2
  | _ => rfl

/-- Over an aligned prefix the decode takes the same rounds whatever follows it. -/
theorem tip_prefix {final : Option Nat} {scans : List Scan}
    (h : ScansFrom data pos block scans final) (hpos : s.pos = pos)
    (hblock : s.block = block) (hrun : s.stopped = false) :
    ∃ s', (∀ t, Reaches (tipStep (data ++ t)) s s') ∧ s'.pos = data.length ∧ s'.stopped = false := by
  induction h generalizing s with
  | stop block => exact ⟨s, fun _ => .refl, hpos, hrun⟩
  | @packet pos block final rest inside notBad notCut after ih =>
    subst hpos hblock
    have ok : (scanPacket data s.pos s.block).Ok := ⟨notBad, notCut⟩
    have handled := packet_handled data s ok
    obtain ⟨s', hreach, hpos', hrun'⟩ := ih handled.pos handled.block (handled.stopped.trans hrun)
    refine ⟨s', fun t => .head ?_ (hreach t), hpos', hrun'⟩
    have inside' : s.pos < (data ++ t).length := by rw [length_append]; omega
    rw [Option.mem_def, tipStep_of_live hrun inside', scanPacket_append_right t inside notCut,
      packet_append_right t inside ok]

theorem tipStep_at_end (data : List U8) (h : s.pos = data.length) : tipStep data s = none := by
  rw [tipStep, if_pos (.inr (Nat.le_of_eq h.symm))]

/-- Where an aligned prefix leaves the decode: at its end, whatever follows. -/
theorem tip_aligned (aligned : Aligned data) :
    (∀ t, Reaches (tipStep (data ++ t)) {} (tipDecode data)) ∧ (tipDecode data).pos = data.length ∧
      (tipDecode data).stopped = false := by
  obtain ⟨scans, final, h⟩ := aligned
  obtain ⟨s', hreach, hpos, hrun⟩ := tip_prefix h (s := {}) rfl rfl rfl
  have hself := hreach []
  rw [append_nil] at hself
  have hdecode : tipDecode data = s' :=
    (tipRun_of_reaches hself).trans (tipRun_of_end (tipStep_at_end data hpos))
  rw [hdecode]
  exact ⟨hreach, hpos, hrun⟩

/-- What an encoder writes is packet-aligned. -/
theorem aligned_encodeAll {ps : List Packet} (framed : Framed none ps) : Aligned (encodeAll ps) :=
  ⟨_, _, scansFrom_encodeAll framed []⟩

/-! ## The block the decode can hold -/

/-- A block is open with one of the two widths a BBP announces. -/
def BlockOk (block : Option Nat) : Prop := block = none ∨ block = some 4 ∨ block = some 8

theorem blockOk_after (h : BlockOk block) (pkt : Pkt) : BlockOk (blockAfter block pkt) := by
  cases pkt with
  | bbp wide =>
    cases wide with
    | false => exact .inr (.inl rfl)
    | true => exact .inr (.inr rfl)
  | bep => exact .inl rfl
  | _ => exact h

theorem tipStep_blockOk (s s' : TipState) (h : BlockOk s.block)
    (hstep : tipStep data s = some s') : BlockOk s'.block := by
  obtain ⟨-, -, rfl⟩ := tipStep_some hstep
  by_cases ok : (scanPacket data s.pos s.block).Ok
  · rw [(packet_handled data s ok).block]
    exact blockOk_after h _
  · rcases not_ok_cases ok with hbad | htrunc
    · rw [hbad]
      cases hf : findPsb data (s.pos + 1) with
      | none => rw [packet_bad_lost _ hf]; exact .inl rfl
      | some next => rw [packet_bad_found _ hf]; exact .inl rfl
    · rw [htrunc]
      exact h

theorem tipDecode_blockOk (data : List U8) : BlockOk (tipDecode data).block :=
  reaches_invariant (P := fun s : TipState => BlockOk s.block) tipStep_blockOk
    (reaches_exec (tipStep data) (data.length + 1) {}) (.inl rfl)

/-! ## After the PSB -/

/-- The state right after a PSB that the decode meets with last IP `ip` and block `block`. -/
def afterPsb (ip : U64) (block : Option Nat) : TipState := { lastIp := ip, block, pos := psb.length }

/-- What a decode emits after a PSB, from the last IP and the block it carries over it. -/
def pcsAfterPsb (ip : U64) (block : Option Nat) (rest : List U8) : List U64 :=
  (tipRun (psb ++ rest) (afterPsb ip block)).out

theorem scanPacket_psb (rest : List U8) (block : Option Nat) :
    scanPacket (psb ++ rest) 0 block = ⟨.psb, 16⟩ :=
  scanAt_encode .psb block trivial rest

/-- Over a PSB the decode keeps its last IP and its block. -/
theorem tip_over_psb (front rest : List U8) (hpos : s.pos = front.length)
    (hrun : s.stopped = false) :
    (tipRun (front ++ (psb ++ rest)) s).out = s.out ++ pcsAfterPsb s.lastIp s.block rest := by
  have inside : s.pos < (front ++ (psb ++ rest)).length := by
    rw [length_append, length_append]
    have : psb.length = 16 := rfl
    omega
  have hscan : scanPacket (front ++ (psb ++ rest)) s.pos s.block = ⟨.psb, 16⟩ := by
    rw [hpos]
    exact (scanPacket_append front _ 0 s.block).trans (scanPacket_psb rest s.block)
  have hstep := tipStep_of_live hrun inside
  rw [hscan] at hstep
  have follows : Follows front s.out [] (afterPsb s.lastIp s.block)
      (s.packet (front ++ (psb ++ rest)) .psb 16) :=
    ⟨congrArg (· + 16) hpos, rfl, .inl rfl, hrun, [], (append_nil _).symm, rfl⟩
  rw [tipRun_of_reaches (.single hstep)]
  obtain ⟨w, hout, hout'⟩ := (tip_follows (psb ++ rest) follows).out
  rw [hout, pcsAfterPsb, hout', nil_append]

/-- The decode of a stream that begins with a PSB. -/
theorem tipOnlyDecode_psb (rest : List U8) :
    tipOnlyDecode (psb ++ rest) = pcsAfterPsb 0#64 none rest :=
  tip_over_psb [] rest (s := {}) rfl rfl

/-- The decode of an aligned prefix, a PSB, and more. -/
theorem tipOnlyDecode_aligned_psb {front : List U8} (aligned : Aligned front) (rest : List U8) :
    tipOnlyDecode (front ++ psb ++ rest) =
      tipOnlyDecode front ++ pcsAfterPsb (tipDecode front).lastIp (tipDecode front).block rest := by
  obtain ⟨hreach, hpos, hrun⟩ := tip_aligned aligned
  have hrun' := tipRun_of_reaches (hreach (psb ++ rest))
  rw [append_assoc]
  show (tipRun (front ++ (psb ++ rest)) {}).out = _
  rw [hrun']
  exact tip_over_psb front rest hpos hrun

/-- A last IP outside the kernel range is as good as none. -/
theorem pcsAfterPsb_low (h : ip < kernelBase) (block : Option Nat) (rest : List U8) :
    pcsAfterPsb ip block rest = pcsAfterPsb 0#64 block rest := by
  have follows : Follows [] [] [] (afterPsb 0#64 block) (afterPsb ip block) :=
    ⟨(Nat.zero_add _).symm, rfl, .inr ⟨h, show 0#64 < kernelBase by decide⟩, rfl, [], rfl, rfl⟩
  obtain ⟨w, hout, hout'⟩ := (tip_follows (psb ++ rest) follows).out
  rw [nil_append, nil_append] at hout
  rw [nil_append] at hout'
  rw [pcsAfterPsb, pcsAfterPsb, hout, hout']

/-- A TIP with a two-byte update of zero. -/
def tipUpdate16 : List U8 := [0x2d#8, 0x00#8, 0x00#8]

/-- A kernel last IP shows at the first compressed packet after the PSB. -/
theorem pcsAfterPsb_update16 : pcsAfterPsb ip block tipUpdate16 = emitted (ipUpdate 1#8 0#64 ip) := by
  let s := afterPsb ip block
  have hscan : scanPacket (psb ++ tipUpdate16) s.pos s.block = ⟨.ip 0x0d#8 1#8, 3⟩ := rfl
  have inside : s.pos < (psb ++ tipUpdate16).length := show 16 < 19 by decide
  have hstep : tipStep (psb ++ tipUpdate16) s =
      some (s.packet (psb ++ tipUpdate16) (.ip 0x0d#8 1#8) 3) := by
    rw [tipStep_of_live rfl inside, hscan]
  have handled : Handled (psb ++ tipUpdate16) s ⟨.ip 0x0d#8 1#8, 3⟩ _ :=
    packet_handled _ _ ⟨Pkt.noConfusion, Pkt.noConfusion⟩
  have hend := tipRun_of_end (tipStep_at_end (psb ++ tipUpdate16) handled.pos)
  rw [pcsAfterPsb, tipRun_of_reaches (.single hstep), hend, handled.out, pcsOf_ip, if_pos (by decide)]
  rfl

theorem emitted_update16 (h : kernelBase ≤ ip) : emitted (ipUpdate 1#8 0#64 ip) ≠ [] := by
  have hkernel : kernelBase ≤ ipUpdate 1#8 0#64 ip := (ipUpdate_kernel (.inl rfl) (by decide) ip).mpr h
  rw [emitted, if_pos hkernel]
  exact cons_ne_nil _ _

/-- A byte that is a short TNT outside a block and a BIP inside, then a TIP with a full address. -/
def bipOrTip : List U8 := 0x04#8 :: 0xcd#8 :: leBytes 8 0xffffffffffffffff#64

/-- The PSB synchronizes the decode behind an aligned prefix, whatever follows, exactly when the
prefix leaves no kernel address as the last IP and no block open. -/
theorem psb_sync_iff (front : List U8) (aligned : Aligned front) :
    (∀ rest, tipOnlyDecode (front ++ psb ++ rest) =
        tipOnlyDecode front ++ tipOnlyDecode (psb ++ rest)) ↔
      (tipDecode front).lastIp < kernelBase ∧ (tipDecode front).block = none := by
  have reduce : (∀ rest, tipOnlyDecode (front ++ psb ++ rest) =
        tipOnlyDecode front ++ tipOnlyDecode (psb ++ rest)) ↔
      ∀ rest, pcsAfterPsb (tipDecode front).lastIp (tipDecode front).block rest =
        pcsAfterPsb 0#64 none rest := by
    refine forall_congr' fun rest => ?_
    rw [tipOnlyDecode_aligned_psb aligned, tipOnlyDecode_psb, append_cancel_left_eq]
  rw [reduce]
  constructor
  · intro same
    have hlow : (tipDecode front).lastIp < kernelBase := by
      rw [← BitVec.not_le]
      intro hkernel
      have hupdate := same tipUpdate16
      rw [pcsAfterPsb_update16, pcsAfterPsb_update16] at hupdate
      exact emitted_update16 hkernel (hupdate.trans rfl)
    refine ⟨hlow, ?_⟩
    have hbip := same bipOrTip
    rw [pcsAfterPsb_low hlow] at hbip
    rcases tipDecode_blockOk front with hnone | hfour | height
    · exact hnone
    · rw [hfour] at hbip
      exact absurd hbip (by decide)
    · rw [height] at hbip
      exact absurd hbip (by decide)
  · rintro ⟨hlow, hnone⟩ rest
    rw [hnone, pcsAfterPsb_low hlow]

/-- A TIP with a full kernel address. -/
def kernelTip : List Packet := [.ip .tip .full ⟨leBytes 8 0xffffffff81001234#64, length_leBytes 8 _⟩]

/-- A block that is begun and not ended. -/
def openBlock : List Packet := [.bbp 0x00#8]

theorem psb_sync_iff_kernelTip :
    (∀ rest, tipOnlyDecode (encodeAll kernelTip ++ psb ++ rest) =
        tipOnlyDecode (encodeAll kernelTip) ++ tipOnlyDecode (psb ++ rest)) ↔
      (tipDecode (encodeAll kernelTip)).lastIp < kernelBase ∧
        (tipDecode (encodeAll kernelTip)).block = none :=
  psb_sync_iff (encodeAll kernelTip) (aligned_encodeAll ⟨trivial, trivial⟩)

/-- Both carry-overs show: a TIP after the PSB is completed with the address before it, and a byte
after the PSB is read as an item of the block before it. -/
theorem psb_carries_over :
    Aligned (encodeAll kernelTip) ∧ Aligned (encodeAll openBlock) ∧
      tipOnlyDecode (encodeAll kernelTip ++ psb ++ tipUpdate16) =
        [0xffffffff81001234#64, 0xffffffff81000000#64] ∧
      tipOnlyDecode (encodeAll kernelTip) ++ tipOnlyDecode (psb ++ tipUpdate16) =
        [0xffffffff81001234#64] ∧
      tipOnlyDecode (encodeAll openBlock ++ psb ++ bipOrTip) = [] ∧
      tipOnlyDecode (encodeAll openBlock) ++ tipOnlyDecode (psb ++ bipOrTip) =
        [0xffffffffffffffff#64] :=
  ⟨aligned_encodeAll ⟨trivial, trivial⟩, aligned_encodeAll ⟨trivial, trivial⟩, by decide, by decide,
    by decide, by decide⟩

end Vock.Pt
