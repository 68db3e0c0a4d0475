import Vock.Pt.TipOnly
import Vock.Laws.Pt.Packet

/-!
# The TIP-only decode: it ends, and what it depends on

`tipRun_mem_eval` says the loop ends within its bound from every state. `tip_follows` says two runs
of the loop, over a byte string and over the same bytes further along in a longer one, emit the
same PCs from states that agree on what matters: the position, the open block, and a last IP that
is equal or on neither side a kernel address.
-/

namespace Vock.Pt

open Library StateTransition List

variable {data front : List U8} {s s' : TipState} {enc : U8} {a b : U64} {o o' : List U64} {scan : Scan}
  {t : TipState} {val : U64}

/-! ## The resynchronization search -/

/-- A PSB that is found lies at or after the start of the search, and is one. -/
theorem findPsb_spec {start i : Nat} (h : findPsb data start = some i) :
    start ≤ i ∧ i + psb.length ≤ data.length ∧ (data.drop i).take psb.length = psb := by
  unfold findPsb at h
  split at h
  · exact nomatch h
  · rename_i hlen
    have hfound := find?_some h
    have hmem := mem_of_find?_eq_some h
    rw [mem_range'_1] at hmem
    refine ⟨by omega, by omega, ?_⟩
    simpa only [decide_eq_true_eq] using hfound

/-- The search in a longer string, from the end of what was put in front. -/
theorem findPsb_append (front data : List U8) (start : Nat) :
    findPsb (front ++ data) (front.length + start) =
      (findPsb data start).map (front.length + ·) := by
  unfold findPsb
  by_cases hshort : data.length < psb.length
  · rw [if_pos hshort]
    split
    · rfl
    · rename_i hlen
      rw [length_append] at hlen
      have hempty : (front ++ data).length - psb.length + 1 -
          min (front.length + start) ((front ++ data).length - psb.length + 1) = 0 := by
        rw [length_append]; omega
      dsimp only
      rw [hempty]
      rfl
  · rw [if_neg hshort, if_neg (by rw [length_append]; omega)]
    have hlast : (front ++ data).length - psb.length = front.length + (data.length - psb.length) := by
      rw [length_append]; omega
    dsimp only
    rw [hlast, Nat.add_assoc, Nat.add_min_add_left, Nat.add_sub_add_left, ← map_add_range',
      find?_map]
    congr 2
    funext i
    simp

/-! ## The loop ends -/

/-- Rounds left: the bytes ahead and one, or none after a `break`. -/
def TipState.left (data : List U8) (s : TipState) : Nat :=
  if s.stopped then 0 else data.length - s.pos + 1

/-- The last IP after a packet at `pos`. -/
def lastIpAfter (data : List U8) (pos : Nat) (lastIp : U64) : Pkt → U64
  | .ip _ enc =>
    if 0 < (ipPayloadLen enc).getD 0 then ipUpdate enc (ipPayload data pos enc) lastIp else lastIp
  | .ovf => 0#64
  | _ => lastIp

/-- The PCs a packet at `pos` emits. -/
def pcsOf (data : List U8) (pos : Nat) (lastIp : U64) : Pkt → List U64
  | .ip _ enc =>
    if 0 < (ipPayloadLen enc).getD 0 then emitted (ipUpdate enc (ipPayload data pos enc) lastIp)
    else []
  | _ => []

theorem lastIpAfter_ip (data : List U8) (pos : Nat) (lastIp : U64) (op enc : U8) :
    lastIpAfter data pos lastIp (.ip op enc) =
      if 0 < (ipPayloadLen enc).getD 0 then ipUpdate enc (ipPayload data pos enc) lastIp
      else lastIp := rfl

theorem pcsOf_ip (data : List U8) (pos : Nat) (lastIp : U64) (op enc : U8) :
    pcsOf data pos lastIp (.ip op enc) =
      if 0 < (ipPayloadLen enc).getD 0 then emitted (ipUpdate enc (ipPayload data pos enc) lastIp)
      else [] := rfl

/-- What a packet does to each field, for a scan that found one. -/
structure Handled (data : List U8) (s : TipState) (scan : Scan) (s' : TipState) : Prop where
  pos : s'.pos = s.pos + scan.len
  block : s'.block = blockAfter s.block scan.pkt
  lastIp : s'.lastIp = lastIpAfter data s.pos s.lastIp scan.pkt
  out : s'.out = s.out ++ pcsOf data s.pos s.lastIp scan.pkt
  stopped : s'.stopped = s.stopped

theorem packet_handled (data : List U8) (s : TipState) (ok : scan.Ok) :
    Handled data s scan (s.packet data scan.pkt scan.len) := by
  obtain ⟨pkt, len⟩ := scan
  obtain ⟨hbad, htrunc⟩ := ok
  cases pkt with
  | ip op enc =>
    by_cases h : 0 < (ipPayloadLen enc).getD 0
    · have hp : s.packet data (.ip op enc) len =
          { s with lastIp := ipUpdate enc (ipPayload data s.pos enc) s.lastIp,
                   out := s.out ++ emitted (ipUpdate enc (ipPayload data s.pos enc) s.lastIp),
                   pos := s.pos + len } := if_pos h
      rw [hp]
      exact ⟨rfl, rfl, (if_pos h).symm, congrArg (s.out ++ ·) (if_pos h).symm, rfl⟩
    · have hp : s.packet data (.ip op enc) len = { s with pos := s.pos + len } := if_neg h
      rw [hp]
      refine ⟨rfl, rfl, (if_neg h).symm, ?_, rfl⟩
      rw [show pcsOf data s.pos s.lastIp (.ip op enc) = [] from if_neg h, append_nil]
  | bad => exact absurd rfl hbad
  | truncated => exact absurd rfl htrunc
  | _ => exact ⟨rfl, rfl, rfl, (append_nil _).symm, rfl⟩

theorem packet_truncated (data : List U8) (s : TipState) (len : Nat) :
    s.packet data .truncated len =
      { s with stats := { s.stats with truncated := true }, stopped := true } := rfl

theorem packet_bad_found {next : Nat} (len : Nat)
    (h : findPsb data (s.pos + 1) = some next) :
    s.packet data .bad len =
      { s with lastIp := 0#64, block := none, pos := next,
               stats := { s.stats with badPackets := s.stats.badPackets + 1,
                                       resyncs := s.stats.resyncs + 1 } } := by
  unfold TipState.packet
  rw [h]

theorem packet_bad_lost (len : Nat)
    (h : findPsb data (s.pos + 1) = none) :
    s.packet data .bad len =
      { s with lastIp := 0#64, block := none, stopped := true,
               stats := { s.stats with badPackets := s.stats.badPackets + 1 } } := by
  unfold TipState.packet
  rw [h]

/-- A round is a packet, handled while there are bytes left. -/
theorem tipStep_some (h : tipStep data s = some s') :
    s.stopped = false ∧ s.pos < data.length ∧
      s' = s.packet data (scanPacket data s.pos s.block).pkt (scanPacket data s.pos s.block).len := by
  unfold tipStep at h
  split at h
  · exact nomatch h
  · rename_i hlive
    rw [not_or, Bool.not_eq_true, Nat.not_le] at hlive
    exact ⟨hlive.1, hlive.2, (Option.some.inj h).symm⟩

theorem tipStep_of_live (hrun : s.stopped = false)
    (hpos : s.pos < data.length) :
    tipStep data s =
      some (s.packet data (scanPacket data s.pos s.block).pkt (scanPacket data s.pos s.block).len) := by
  unfold tipStep
  rw [if_neg]
  rw [not_or, Bool.not_eq_true, Nat.not_le]
  exact ⟨hrun, hpos⟩

theorem not_ok_cases (h : ¬ scan.Ok) : scan.pkt = .bad ∨ scan.pkt = .truncated := by
  rw [Scan.Ok, not_and_or, not_not, not_not] at h
  exact h

/-- A round lowers the rounds left. -/
theorem tipStep_left (h : tipStep data s = some s') : s'.left data < s.left data := by
  obtain ⟨hrun, hpos, rfl⟩ := tipStep_some h
  have hleft : s.left data = data.length - s.pos + 1 := by
    rw [TipState.left, hrun, if_neg Bool.false_ne_true]
  by_cases ok : (scanPacket data s.pos s.block).Ok
  · have handled := packet_handled data s ok
    have hext := scanAt_extent (data.drop s.pos) s.block ok
    have hone : 1 ≤ (scanPacket data s.pos s.block).len := hext.1
    rw [TipState.left, handled.stopped, handled.pos, hrun, if_neg Bool.false_ne_true]
    omega
  · rw [hleft]
    rcases not_ok_cases ok with hbad | htrunc
    · rw [hbad]
      cases hf : findPsb data (s.pos + 1) with
      | none =>
        rw [packet_bad_lost _ hf, TipState.left, if_pos rfl]
        omega
      | some next =>
        obtain ⟨hge, -, -⟩ := findPsb_spec hf
        rw [packet_bad_found _ hf, hrun]
        show data.length - next + 1 < data.length - s.pos + 1
        omega
    · rw [htrunc, packet_truncated, TipState.left, if_pos rfl]
      omega

/-- The decoder's loop from any state, to its end. -/
def tipRun (data : List U8) (s : TipState) : TipState := exec (tipStep data) (data.length + 1) s

/-- The bound on the rounds is enough from every state. -/
theorem tipRun_mem_eval (data : List U8) (s : TipState) : tipRun data s ∈ eval (tipStep data) s := by
  apply exec_mem_eval
  apply exec_done (P := fun _ => True) (fun _ _ _ _ => trivial) (TipState.left data)
    (fun _ _ _ => tipStep_left) trivial
  unfold TipState.left
  split <;> omega

/-- What a run reaches goes on to the same end. -/
theorem tipRun_of_reaches (h : Reaches (tipStep data) s t) : tipRun data s = tipRun data t := by
  have hs := tipRun_mem_eval data s
  rw [reaches_eval h] at hs
  exact Part.mem_unique hs (tipRun_mem_eval data t)

theorem tipRun_of_end (h : tipStep data s = none) : tipRun data s = s :=
  exec_of_none h _

/-! ## Kernel addresses -/

/-- A kernel address has its top sixteen bits set. -/
theorem kernelBase_le_iff (ip : U64) : kernelBase ≤ ip ↔ ip >>> 48 = 0xffff#64 := by
  rw [← BitVec.toNat_inj, BitVec.toNat_ushiftRight, BitVec.le_def]
  have hbase : kernelBase.toNat = 0xffff000000000000 := rfl
  have htop : (0xffff#64).toNat = 0xffff := rfl
  omega

theorem emitted_of_lt {ip : U64} (h : ip < kernelBase) : emitted ip = [] := by
  rw [emitted, if_neg (BitVec.not_le.mpr h)]

/-- The codes that keep upper bits of the last IP. -/
def isCompressed (enc : U8) : Prop := enc = 1#8 ∨ enc = 2#8 ∨ enc = 4#8

instance (enc : U8) : Decidable (isCompressed enc) := by unfold isCompressed; infer_instance

/-- The low bits of an address that a payload of this code writes. -/
def ipBits (enc : U8) : Nat := 8 * (ipPayloadLen enc).getD 0

theorem ipPayload_ushiftRight (data : List U8) (pos : Nat) (enc : U8) :
    ipPayload data pos enc >>> ipBits enc = 0#64 := by
  apply leValue_ushiftRight
  rw [length_take]
  exact Nat.min_le_left _ _

theorem and_not_mask {mask : U64} {n : Nat}
    (hmask : ∀ i : Fin 64, mask.getLsbD i = decide (i.val < n)) (ip : U64) :
    ip &&& ~~~mask = (ip >>> n) <<< n := by
  apply BitVec.eq_of_getLsbD_eq
  intro i hi
  rw [BitVec.getLsbD_and, BitVec.getLsbD_not, hmask ⟨i, hi⟩]
  by_cases hlow : i < n
  · simp [hlow]
  · simp [hlow, hi, Nat.add_sub_cancel' (Nat.not_lt.mp hlow)]

/-- A compressed payload replaces the low bits. -/
theorem ipUpdate_compressed (h : isCompressed enc) (val ip : U64) :
    ipUpdate enc val ip = ((ip >>> ipBits enc) <<< ipBits enc) ||| val := by
  rcases h with rfl | rfl | rfl
  · exact congrArg (· ||| val) (and_not_mask (by decide) ip)
  · exact congrArg (· ||| val) (and_not_mask (by decide) ip)
  · exact congrArg (· ||| val) (and_not_mask (by decide) ip)

/-- A compressed payload keeps the bits above it. -/
theorem ipUpdate_ushiftRight (h : isCompressed enc)
    (hval : val >>> ipBits enc = 0#64) (ip : U64) :
    ipUpdate enc val ip >>> ipBits enc = ip >>> ipBits enc := by
  rw [ipUpdate_compressed h, BitVec.ushiftRight_or_distrib, hval]
  apply BitVec.eq_of_getLsbD_eq
  intro i hi
  by_cases hin : ipBits enc + i < 64
  · simp [hin]
  · simp [BitVec.getLsbD_of_ge ip _ (Nat.not_lt.mp hin)]

/-- So it stays on its side of the kernel range. -/
theorem ipUpdate_kernel (h : isCompressed enc)
    (hval : val >>> ipBits enc = 0#64) (ip : U64) :
    kernelBase ≤ ipUpdate enc val ip ↔ kernelBase ≤ ip := by
  have hbits : ipBits enc + (48 - ipBits enc) = 48 := by
    rcases h with rfl | rfl | rfl
    · rfl
    · rfl
    · rfl
  rw [kernelBase_le_iff, kernelBase_le_iff, ← hbits, BitVec.shiftRight_add, BitVec.shiftRight_add,
    ipUpdate_ushiftRight h hval]

/-- The codes that are not compressed forget the last IP. -/
theorem ipUpdate_full (h : ¬ isCompressed enc) (hbytes : 0 < (ipPayloadLen enc).getD 0)
    (val ip ip' : U64) : ipUpdate enc val ip = ipUpdate enc val ip' := by
  rw [isCompressed, not_or, not_or] at h
  obtain ⟨h1, h2, h4⟩ := h
  by_cases h3 : enc = 3#8
  · subst h3; rfl
  · by_cases h6 : enc = 6#8
    · subst h6; rfl
    · -- what is left has no payload
      have hnone : (ipPayloadLen enc).getD 0 = 0 := by
        unfold ipPayloadLen
        rw [if_neg h2, if_neg (not_or.mpr ⟨h3, h4⟩)]
        split <;> rfl
      omega

/-! ## Runs over the same bytes -/

/-- Last IPs the emissions cannot tell apart: equal, or neither a kernel address. -/
def SameLastIp (a b : U64) : Prop := a = b ∨ (a < kernelBase ∧ b < kernelBase)

theorem SameLastIp.emitted_eq (h : SameLastIp a b) : emitted a = emitted b := by
  rcases h with rfl | ⟨ha, hb⟩
  · rfl
  · rw [emitted_of_lt ha, emitted_of_lt hb]

theorem SameLastIp.update (h : SameLastIp a b) {pos : Nat}
    (hbytes : 0 < (ipPayloadLen enc).getD 0) :
    SameLastIp (ipUpdate enc (ipPayload data pos enc) a) (ipUpdate enc (ipPayload data pos enc) b) := by
  rcases h with rfl | ⟨ha, hb⟩
  · exact .inl rfl
  · by_cases hc : isCompressed enc
    · have low : ∀ ip : U64, ip < kernelBase →
          ipUpdate enc (ipPayload data pos enc) ip < kernelBase := by
        intro ip hip
        rw [← BitVec.not_le] at hip ⊢
        rwa [ipUpdate_kernel hc (ipPayload_ushiftRight _ _ _)]
      exact .inr ⟨low a ha, low b hb⟩
    · exact .inl (ipUpdate_full hc hbytes _ a b)

theorem SameLastIp.after (h : SameLastIp a b) (data : List U8) (pos : Nat) (pkt : Pkt) :
    SameLastIp (lastIpAfter data pos a pkt) (lastIpAfter data pos b pkt) ∧
      pcsOf data pos a pkt = pcsOf data pos b pkt := by
  cases pkt with
  | ip op enc =>
    rw [lastIpAfter_ip, lastIpAfter_ip, pcsOf_ip, pcsOf_ip]
    by_cases hbytes : 0 < (ipPayloadLen enc).getD 0
    · rw [if_pos hbytes, if_pos hbytes, if_pos hbytes, if_pos hbytes]
      exact ⟨h.update hbytes, (h.update hbytes).emitted_eq⟩
    · rw [if_neg hbytes, if_neg hbytes, if_neg hbytes, if_neg hbytes]
      exact ⟨h, rfl⟩
  | ovf => exact ⟨.inl rfl, rfl⟩
  | _ => exact ⟨h, rfl⟩

theorem drop_front (front data : List U8) (n : Nat) :
    (front ++ data).drop (front.length + n) = data.drop n := by
  rw [drop_append, drop_eq_nil_of_le (Nat.le_add_right _ n), nil_append,
    Nat.add_sub_cancel_left]

theorem scanPacket_append (front data : List U8) (pos : Nat) (block : Option Nat) :
    scanPacket (front ++ data) (front.length + pos) block = scanPacket data pos block := by
  rw [scanPacket, scanPacket, drop_front]

theorem ipPayload_append (front data : List U8) (pos : Nat) (enc : U8) :
    ipPayload (front ++ data) (front.length + pos) enc = ipPayload data pos enc := by
  rw [ipPayload, ipPayload, Nat.add_assoc, drop_front]

/-- `s` stands in `front ++ data` where `s'` stands in `data`, and since they came from emissions
`o` and `o'` they emitted the same. -/
structure Follows (front : List U8) (o o' : List U64) (s' s : TipState) : Prop where
  pos : s.pos = front.length + s'.pos
  block : s.block = s'.block
  lastIp : SameLastIp s.lastIp s'.lastIp
  stopped : s.stopped = s'.stopped
  out : ∃ w, s.out = o ++ w ∧ s'.out = o' ++ w

theorem lastIpAfter_append (front data : List U8) (pos : Nat) (ip : U64) (pkt : Pkt) :
    lastIpAfter (front ++ data) (front.length + pos) ip pkt = lastIpAfter data pos ip pkt := by
  cases pkt with
  | ip op enc => rw [lastIpAfter_ip, lastIpAfter_ip, ipPayload_append]
  | _ => rfl

theorem pcsOf_append (front data : List U8) (pos : Nat) (ip : U64) (pkt : Pkt) :
    pcsOf (front ++ data) (front.length + pos) ip pkt = pcsOf data pos ip pkt := by
  cases pkt with
  | ip op enc => rw [pcsOf_ip, pcsOf_ip, ipPayload_append]
  | _ => rfl

theorem Follows.handled {t' : TipState}
    (h : Follows front o o' s' s) (ht' : Handled data s' scan t')
    (ht : Handled (front ++ data) s scan t) : Follows front o o' t' t := by
  obtain ⟨w, ho, ho'⟩ := h.out
  have hip := h.lastIp.after data s'.pos scan.pkt
  refine ⟨?_, ?_, ?_, ?_, w ++ pcsOf data s'.pos s'.lastIp scan.pkt, ?_, ?_⟩
  · rw [ht.pos, ht'.pos, h.pos, Nat.add_assoc]
  · rw [ht.block, ht'.block, h.block]
  · rw [ht.lastIp, ht'.lastIp, h.pos, lastIpAfter_append]
    exact hip.1
  · rw [ht.stopped, ht'.stopped, h.stopped]
  · rw [ht.out, h.pos, pcsOf_append, hip.2, ho, append_assoc]
  · rw [ht'.out, ho', append_assoc]

/-- One packet keeps the two runs together. -/
theorem Follows.packet (h : Follows front o o' s' s) (scan : Scan) :
    Follows front o o' (s'.packet data scan.pkt scan.len)
      (s.packet (front ++ data) scan.pkt scan.len) := by
  by_cases ok : scan.Ok
  · exact h.handled (packet_handled data s' ok) (packet_handled (front ++ data) s ok)
  · rcases not_ok_cases ok with hbad | htrunc
    · rw [hbad]
      have hfind : findPsb (front ++ data) (s.pos + 1) =
          (findPsb data (s'.pos + 1)).map (front.length + ·) := by
        rw [h.pos, Nat.add_assoc, findPsb_append]
      cases hf : findPsb data (s'.pos + 1) with
      | none =>
        rw [hf] at hfind
        rw [packet_bad_lost _ hf, packet_bad_lost _ hfind]
        exact ⟨h.pos, rfl, .inl rfl, rfl, h.out⟩
      | some next =>
        rw [hf] at hfind
        rw [packet_bad_found _ hf, packet_bad_found _ hfind]
        exact ⟨rfl, rfl, .inl rfl, h.stopped, h.out⟩
    · rw [htrunc]
      exact ⟨h.pos, h.block, h.lastIp, rfl, h.out⟩

theorem follows_respects (front data : List U8) (o o' : List U64) :
    Respects (tipStep data) (tipStep (front ++ data)) (Follows front o o') := by
  intro s' s h
  by_cases hlive : s'.stopped = false ∧ s'.pos < data.length
  · have hpos : s.pos < (front ++ data).length := by
      rw [h.pos, length_append]; omega
    rw [tipStep_of_live hlive.1 hlive.2]
    refine ⟨_, ?_, .single (tipStep_of_live (h.stopped.trans hlive.1) hpos)⟩
    rw [h.pos, h.block, scanPacket_append]
    exact h.packet _
  · have hnone : tipStep data s' = none := by
      cases hs : tipStep data s' with
      | none => rfl
      | some t => exact absurd ⟨(tipStep_some hs).1, (tipStep_some hs).2.1⟩ hlive
    rw [hnone]
    cases hs : tipStep (front ++ data) s with
    | none => rfl
    | some t =>
      obtain ⟨hrun, hpos, -⟩ := tipStep_some hs
      rw [h.pos, length_append] at hpos
      exact absurd ⟨h.stopped.symm.trans hrun, by omega⟩ hlive

/-- Two runs that stand together end together. -/
theorem tip_follows (data : List U8)
    (h : Follows front o o' s' s) : Follows front o o' (tipRun data s') (tipRun (front ++ data) s) := by
  obtain ⟨t, hfollows, ht⟩ := tr_eval (follows_respects front data o o') h (tipRun_mem_eval data s')
  rwa [Part.mem_unique (tipRun_mem_eval (front ++ data) s) ht]

end Vock.Pt
