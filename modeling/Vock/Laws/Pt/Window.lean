import Vock.Pt.Outcomes
import Vock.Laws.Pt.Kaslr
import Vock.Laws.Pt.Stream

/-!
# The outcome window is a queue

The decoder keeps its pending outcomes in the low bits of a word. Read as a `Walker` it does what
the queue does: round by round (`walkStep_walker`), for each TNT payload that arrives
(`loadTnt_walker`), over the packets of any split with or without an IP packet after them
(`decodeFrom_walker`), and from one TNT packet to the next (`window_queue`).

Not established: that the processor sends no more outcomes than the window holds, or that the text is what was run.
-/

namespace Vock.Pt

open Library StateTransition PtDecoder List

variable {d : PtDecoder} {front : List U8} {os : List Bool}
  {next : Point × PtDecoder} {ps : List Packet} {last : Option IpPacket} {split : List (List Bool)}

/-! ## Payloads -/

theorem payloadNat_append (os : List Bool) (o : Bool) :
    payloadNat (os ++ [o]) = 2 * payloadNat os + o.toNat := by
  rw [payloadNat, foldl_append]
  rfl

/-- The stop bit stands right above the outcomes. -/
theorem payloadNat_bounds (os : List Bool) :
    2 ^ os.length ≤ payloadNat os ∧ payloadNat os < 2 ^ (os.length + 1) := by
  induction os using reverseRecOn with
  | nil => exact ⟨Nat.le_refl 1, by decide⟩
  | append_singleton os o ih =>
    have hbit := o.toNat_le
    rw [payloadNat_append, length_append, length_singleton]
    omega

theorem toNat_payloadOf (short : os.length ≤ 47) : (payloadOf os).toNat = payloadNat os := by
  have hbound := (payloadNat_bounds os).2
  have hpow : 2 ^ (os.length + 1) ≤ 2 ^ 64 := Nat.pow_le_pow_right (by decide) (by omega)
  rw [payloadOf, BitVec.toNat_ofNat, Nat.mod_eq_of_lt (by omega)]

theorem log2_payloadOf (short : os.length ≤ 47) : (payloadOf os).toNat.log2 = os.length := by
  have hbounds := payloadNat_bounds os
  rw [toNat_payloadOf short, Nat.log2_eq_iff (by have := Nat.two_pow_pos os.length; omega)]
  exact hbounds

/-- The window of a payload, read with one outcome less. -/
theorem windowBits_concat (bits : U64) (n : Nat) :
    windowBits bits (n + 1) = windowBits (bits >>> 1) n ++ [bits.getLsbD 0] := by
  induction n with
  | zero => rfl
  | succ n ih =>
    rw [windowBits, ih, windowBits, cons_append, BitVec.getLsbD_ushiftRight, Nat.add_comm 1 n]

theorem windowBits_congr {bits bits' : U64} {n : Nat}
    (h : ∀ i < n, bits.getLsbD i = bits'.getLsbD i) : windowBits bits n = windowBits bits' n := by
  induction n with
  | zero => rfl
  | succ n ih =>
    rw [windowBits, windowBits, h n (Nat.lt_succ_self n),
      ih fun i hi => h i (Nat.lt_succ_of_lt hi)]

theorem windowBits_payloadOf (os : List Bool) (short : os.length ≤ 47) :
    windowBits (payloadOf os) os.length = os := by
  induction os using reverseRecOn with
  | nil => rfl
  | append_singleton os o ih =>
    have hlen : (os ++ [o]).length = os.length + 1 := by rw [length_append]; rfl
    have hshort : os.length ≤ 47 := by omega
    have hnat : (payloadOf (os ++ [o])).toNat = 2 * payloadNat os + o.toNat := by
      rw [toNat_payloadOf short, payloadNat_append]
    have hbit := o.toNat_le
    have hshift : payloadOf (os ++ [o]) >>> 1 = payloadOf os := by
      rw [← BitVec.toNat_inj, BitVec.toNat_ushiftRight, toNat_payloadOf hshort]
      omega
    have hlow : (payloadOf (os ++ [o])).getLsbD 0 = o := by
      rw [BitVec.getLsbD, hnat]
      cases o with
      | false | true => simp
    rw [hlen, windowBits_concat, hshift, ih hshort, hlow]

/-- Cutting a word to its window keeps the outcomes. -/
theorem windowBits_masked (bits : U64) {n : Nat} (hn : n < 64) :
    windowBits (bits &&& ((1#64 <<< n) - 1#64)) n = windowBits bits n := by
  have hpow : 2 ^ n < 2 ^ 64 := Nat.pow_lt_pow_right (by decide) hn
  have hpos := Nat.two_pow_pos n
  have hone : (1#64 <<< n).toNat = 2 ^ n := by
    rw [BitVec.toNat_shiftLeft, BitVec.toNat_ofNat]
    omega
  have hmask : ((1#64 <<< n) - 1#64).toNat = 2 ^ n - 1 := by
    rw [BitVec.toNat_sub, BitVec.toNat_ofNat]
    omega
  refine windowBits_congr fun i hi => ?_
  rw [BitVec.getLsbD_and, BitVec.getLsbD.eq_1 (1#64 <<< n - 1#64), hmask, Nat.testBit_two_pow_sub_one, decide_eq_true hi,
    Bool.and_true]

theorem length_windowBits (bits : U64) (n : Nat) : (windowBits bits n).length = n := by
  induction n with
  | zero => rfl
  | succ n ih => rw [windowBits, length_cons, ih]

/-! ## Rounds -/

theorem nextOutcome_eq {n : Nat} (h : d.tntCount = n + 1) : d.nextOutcome = d.tntBits.getLsbD n := by
  have hbit : ∀ x : U64, (x &&& 1#64 != 0#64) = x.getLsbD 0 := by
    intro x
    rw [Bool.eq_iff_iff, bne_iff_ne, ne_eq, ← BitVec.toNat_inj, BitVec.toNat_and, BitVec.getLsbD]
    have hone : (1#64).toNat = 1 := rfl
    have hzero : (0#64).toNat = 0 := rfl
    rw [hone, Nat.and_one_is_mod, Nat.testBit_zero, decide_eq_true_eq]
    omega
  rw [nextOutcome, h, Nat.add_sub_cancel, hbit, BitVec.getLsbD_ushiftRight, Nat.add_zero]

/-- A round of the decoder's walk is a round of the queue's. -/
theorem walkStep_walker (d : PtDecoder) : d.walkStep.map walker = d.walker.step := by
  unfold walkStep Walker.step walker
  cases hcount : d.tntCount with
  | zero =>
    rw [pending, hcount]
    rfl
  | succ n =>
    have hpending : d.pending = d.tntBits.getLsbD n :: windowBits d.tntBits n := by
      rw [pending, hcount]
      rfl
    rw [hpending]
    cases hf : flowAt d.text d.textVaddr d.ip with
    | leave | next ip | jump ip => rfl
    | cond taken fall =>
      rw [nextOutcome_eq hcount]
      rfl

theorem eval_walkStep (d : PtDecoder) : (eval walkStep d).map walker = eval Walker.step d.walker :=
  eval_map walker walkStep_walker d

/-! ## A payload arrives -/

/-- The rest of a packet's arm: the walk, where one is entered. -/
def settle : Point × PtDecoder → Part PtDecoder
  | (.walk, d) => eval walkStep d
  | (.packet, d) => Part.some d
  | (.done, d) => Part.some d

theorem eval_settle (live : next.1 ≠ .done) :
    eval step next = (settle next).bind fun e => eval step (.packet, e) := by
  obtain ⟨point, d⟩ := next
  cases point with
  | packet => exact (Part.bind_some d fun e => eval step (.packet, e)).symm
  | done => exact absurd rfl live
  | walk =>
    refine Part.ext fun t => ?_
    rw [Part.mem_bind_iff]
    constructor
    · intro ht
      obtain ⟨e, he⟩ := Part.dom_iff_mem.mp (walk_dom_of_run (Part.dom_iff_mem.mpr ⟨t, ht⟩))
      rw [reaches_eval (reaches_after_walk he)] at ht
      exact ⟨e, he, ht⟩
    · rintro ⟨e, he, ht⟩
      rwa [reaches_eval (reaches_after_walk he)]

/-- What is left alone until the next packet. -/
theorem settle_frame {e : PtDecoder} (on : GoesOn d next)
    (he : e ∈ settle next) :
    e.text = d.text ∧ e.trace = d.trace ∧ e.pos = d.pos ∧ e.block = d.block := by
  obtain ⟨-, htext, htrace, hpos, hblock, -⟩ := on.frame
  rcases on with rfl | ⟨rfl, -, -⟩
  · obtain rfl := Part.mem_some_iff.mp he
    exact ⟨rfl, rfl, rfl, rfl⟩
  · have frame := walk_frame (mem_eval.mp he).1
    exact ⟨frame.text.trans htext, frame.trace.trans htrace, frame.pos.trans hpos,
      frame.block.trans hblock⟩

/-- The correction depends on the text, the base and the address only. -/
theorem correctKaslr_corrected (d : PtDecoder) :
    d.correctKaslr.textVaddr = corrected d.text d.textVaddr d.ip := by
  let bare : PtDecoder := { text := d.text, textVaddr := d.textVaddr, trace := [], ip := d.ip }
  show d.correctKaslr.textVaddr = bare.correctKaslr.textVaddr
  by_cases hmoves : Moves d.text d.textVaddr d.ip
  · rw [← BitVec.toNat_inj, correctKaslr_of_moves hmoves, correctKaslr_of_moves (d := bare) hmoves]
  · rw [correctKaslr_of_not_moves hmoves, correctKaslr_of_not_moves (d := bare) hmoves]

theorem corrected_of_not_moves {text : List U8} {base ip : U64} (h : ¬ Moves text base ip) :
    corrected text base ip = base := by
  rw [corrected, correctKaslr_of_not_moves h]

/-- Entering a walk, as the queue does. -/
theorem walkTnt_walker (d : PtDecoder) : (settle d.walkTnt).map walker = d.walker.walk := by
  have hcorrect : d.correctKaslr.walker =
      { d.walker with base := corrected d.text d.textVaddr d.ip } := by
    rw [correctKaslr_eq, correctKaslr_corrected]
    rfl
  show (eval walkStep d.correctKaslr).map walker = _
  rw [eval_walkStep, hcorrect]
  rfl

theorem flowAt_nil (base ip : U64) : flowAt [] base ip = .leave := by
  unfold flowAt
  split
  · dsimp only
    split
    · rfl
    · split
      · rfl
      · rename_i hlong
        exact absurd (Nat.lt_of_le_of_lt (Nat.sub_le _ _) Nat.one_pos) hlong
  · rfl

/-- With no text a walk is over at once. -/
theorem walk_unloaded {w : Walker} (h : w.text = []) : w.walk = Part.some w := by
  have hbase : corrected w.text w.base w.ip = w.base :=
    corrected_of_not_moves fun hmoves => hmoves.loaded h
  have hstuck : w.step = none := by
    unfold Walker.step
    cases w.pending with
    | nil => rfl
    | cons o os =>
      rw [h, flowAt_nil]
  rw [Walker.walk, hbase]
  exact Part.eq_some_iff.mpr (mem_eval.mpr ⟨.refl, hstuck⟩)

/-- The arrival of outcomes that may be none: nothing is walked then. -/
def Walker.arrive (w : Walker) (os : List Bool) : Part Walker :=
  if os = [] then Part.some { w with pending := [] } else w.load os

/-- A TNT payload arrives. -/
theorem loadTnt_walker (d : PtDecoder) {payload : U64} (hne : payload ≠ 0#64) :
    (settle (d.loadTnt payload)).map walker = d.walker.arrive (windowBits payload payload.toNat.log2) := by
  have hlog : payload.toNat.log2 < 64 := (Nat.log2_lt fun h => hne (BitVec.eq_of_toNat_eq h)).mpr payload.isLt
  have hlen := length_windowBits payload payload.toNat.log2
  have hpending := windowBits_masked payload hlog
  rw [loadTnt, if_neg hne]
  generalize payload.toNat.log2 = n at hlen hpending
  generalize windowBits payload n = os at hlen hpending
  have hwalker : ∀ e : PtDecoder, e.tntBits = payload &&& ((1#64 <<< n) - 1#64) → e.tntCount = n → e.pending = os := by
    intro e hbits hcount
    rw [pending, hbits, hcount, hpending]
  unfold Walker.arrive Walker.load
  by_cases hnil : os = []
  · have hzero : ¬ 0 < n := by rw [← hlen, hnil]; exact Nat.lt_irrefl 0
    rw [if_neg fun h => hzero h.2.2, if_pos hnil, settle, Part.map_some, walker, hwalker _ rfl rfl, hnil]
    rfl
  rw [if_neg hnil]
  by_cases hip : d.ip = 0#64
  · rw [if_neg fun h => h.2.1 hip, if_pos (show d.walker.ip = 0#64 from hip), settle, Part.map_some,
      walker, hwalker _ rfl rfl]
    rfl
  · rw [if_neg (show ¬ d.walker.ip = 0#64 from hip)]
    by_cases htext : d.text = []
    · rw [if_neg fun h => h.1 htext, settle, Part.map_some, walker, hwalker _ rfl rfl,
        walk_unloaded htext]
      rfl
    · rw [if_pos ⟨htext, hip, hlen ▸ length_pos_iff.mpr hnil⟩, walkTnt_walker, walker, hwalker _ rfl rfl]
      rfl

/-- An address has been read. -/
theorem takeIp_walker (d : PtDecoder) :
    (settle d.takeIp).map walker =
      if d.pending = [] then Part.some (d.emitIp .packet d.ip).walker
      else (d.emitIp .packet d.ip).walker.walk := by
  have hnil : d.pending = [] ↔ d.tntCount = 0 := by
    unfold pending
    cases d.tntCount with
    | zero => exact ⟨fun _ => rfl, fun _ => rfl⟩
    | succ n => exact ⟨fun h => (nomatch h), fun h => (nomatch h)⟩
  unfold takeIp
  by_cases hcount : d.tntCount = 0
  · rw [if_neg (fun h => absurd hcount (Nat.ne_of_gt h.2)), if_pos (hnil.mpr hcount), settle,
      Part.map_some]
  · rw [if_neg (mt hnil.mp hcount)]
    by_cases htext : d.text = []
    · rw [if_neg fun h => h.1 htext, settle, Part.map_some,
        walk_unloaded (show (d.emitIp .packet d.ip).walker.text = [] from htext)]
    · rw [if_pos ⟨htext, Nat.pos_of_ne_zero hcount⟩, walkTnt_walker]

/-! ## Over packets -/

/-- The decoder stands at the packets `ps` of its trace. -/
structure Stands (front : List U8) (ps : List Packet) (d : PtDecoder) : Prop where
  trace : d.trace = front ++ encodeAll ps
  pos : d.pos = front.length

/-- At a written packet: its arm, then the rest from where it ends. -/
theorem eval_written {p : Packet}
    (h : Stands front (p :: ps) d) (fits : p.Fits d.block) :
    (eval step (.packet, d) =
        (settle (d.packet p.pkt p.encode.length)).bind fun e => eval step (.packet, e)) ∧
      ∀ e ∈ settle (d.packet p.pkt p.encode.length), Stands (front ++ p.encode) ps e := by
  have hscan : scanPacket d.trace d.pos d.block = p.scan := by
    rw [h.trace, h.pos]
    exact scanPacket_encode front ps fits
  have inside : d.pos < d.trace.length := by
    have hlong := length_pos_iff.mpr (encode_ne_nil p)
    rw [h.trace, h.pos, length_append, length_encodeAll_cons]
    omega
  have hok : (scanPacket d.trace d.pos d.block).Ok := by
    rw [hscan]
    exact pkt_ok p
  obtain ⟨e, on, taken⟩ := packet_taken d hok
  rw [hscan] at on taken
  have hstep : step (.packet, d) = some (d.packet p.pkt p.encode.length) := by
    show some d.packetStep = _
    rw [packetStep_inside inside, hscan]
    rfl
  refine ⟨(reaches_eval (.single hstep)).trans (eval_settle on.frame.1), fun f hf => ?_⟩
  obtain ⟨-, htrace, hpos, -⟩ := settle_frame on hf
  refine ⟨?_, ?_⟩
  · rw [htrace, taken.trace, h.trace, append_assoc]
    rfl
  · rw [hpos, taken.pos, h.pos, length_append]
    rfl

theorem eval_at_end (h : Stands front [] d) : eval step (.packet, d) = Part.some (.done, d) := by
  have hend : d.trace.length ≤ d.pos := by
    rw [h.trace, h.pos, show encodeAll [] = [] from rfl, append_nil]
  have hstep : step (.packet, d) = some (.done, d) := congrArg some (packetStep_at_end hend)
  exact Part.eq_some_iff.mpr (mem_eval.mpr ⟨.single hstep, rfl⟩)

theorem leValue_payloadOf (short : os.length ≤ 47) : leValue (leBytes 6 (payloadOf os)) = payloadOf os := by
  apply BitVec.eq_of_getLsbD_eq
  intro j hj
  rw [getLsbD_leValue_leBytes 6 _ j hj]
  by_cases hlow : j < 8 * 6
  · rw [decide_eq_true hlow, Bool.true_and]
  · have hbound := (payloadNat_bounds os).2
    have hpow : 2 ^ (os.length + 1) ≤ 2 ^ j := Nat.pow_le_pow_right (by decide) (by omega)
    rw [decide_eq_false hlow, Bool.false_and, BitVec.getLsbD, toNat_payloadOf short,
      Nat.testBit_lt_two_pow (by omega)]

/-- The arm of an IP packet, as the queue takes it. -/
theorem packet_ip_walker {p : IpPacket}
    (h : Stands front (.ip p.kind p.code p.payload :: ps) d) (len : Nat) :
    (settle (d.packet (.ip p.kind.opcode p.code.enc) len)).map walker = d.walker.takeIp (some p) := by
  unfold Walker.takeIp
  dsimp only
  by_cases hcode : p.code = .suppressed
  · rw [if_pos hcode, hcode]
    rfl
  · have hne : p.code.enc ≠ 0#8 := by
      intro henc
      cases hc : p.code with
      | suppressed => exact hcode hc
      | _ => rw [hc] at henc; exact absurd henc (by decide)
    have inside : d.pos + (1 + p.code.bytes) ≤ d.trace.length := by
      have hlen : (Packet.ip p.kind p.code p.payload).encode.length = 1 + p.code.bytes := by
        rw [Packet.encode, length_cons, p.payload.2, Nat.add_comm]
      rw [h.trace, h.pos, length_append, length_encodeAll_cons]
      omega
    have hpay : ipPayload d.trace d.pos p.code.enc = leValue p.payload.1 := by
      rw [h.trace, h.pos]
      exact ipPayload_encode
    rw [if_neg hcode, packet_ip_read _ _ (ipPayloadLen_enc p.code) hne inside, takeIp_walker, hpay]
    rfl

/-- At an IP packet, or at the end. -/
theorem eval_ipPackets
    (h : Stands front (ipPackets last) d) :
    (eval step (.packet, d)).map (fun m => m.2.walker) = d.walker.takeIp last := by
  cases last with
  | none =>
    rw [eval_at_end h]
    rfl
  | some p =>
    obtain ⟨heval, hafter⟩ := eval_written h trivial
    rw [heval, bind_congr_mem fun e he => eval_at_end (hafter e he), Part.bind_some_eq_map,
      Part.map_map]
    exact packet_ip_walker h _

/-- Over the packets of a split and what follows them. -/
theorem eval_tntPackets (sizes : ∀ p ∈ split, p ≠ [] ∧ p.length ≤ 47)
    (h : Stands front (tntPackets split ++ ipPackets last) d) :
    (eval step (.packet, d)).map (fun m => m.2.walker) =
      (d.walker.loadAll split).bind fun w => w.takeIp last := by
  induction split generalizing front d with
  | nil => rw [eval_ipPackets h, Walker.loadAll, Part.bind_some]
  | cons os split ih =>
    obtain ⟨nonempty, short⟩ := sizes os (mem_cons_self ..)
    obtain ⟨heval, hafter⟩ := eval_written h trivial
    have hrest : ∀ e ∈ settle (d.packet (.tnt64 (leValue (leBytes 6 (payloadOf os)))) 8),
        (eval step (.packet, e)).map (fun m => m.2.walker) =
          (e.walker.loadAll split).bind fun w => w.takeIp last :=
      fun e he => ih (fun p hp => sizes p (mem_cons_of_mem _ hp)) (hafter e he)
    have hload : (settle (d.packet (.tnt64 (leValue (leBytes 6 (payloadOf os)))) 8)).map walker =
        d.walker.load os := by
      have hne : payloadOf os ≠ 0#64 := by
        intro hzero
        have hpos := (payloadNat_bounds os).1
        rw [← toNat_payloadOf short, hzero] at hpos
        exact absurd hpos (Nat.not_le.mpr (Nat.two_pow_pos _))
      have harrive := loadTnt_walker { d with pos := d.pos + 8 } hne
      rw [log2_payloadOf short, windowBits_payloadOf os short, Walker.arrive, if_neg nonempty] at harrive
      rw [leValue_payloadOf short]
      exact harrive
    rw [heval, Part.map_bind, Walker.loadAll, Part.bind_assoc, ← hload]
    exact bind_congr_mem hrest

/-- The decoder over the packets of a split, with or without an IP packet after them, is the queue
taking the payloads one after the other. -/
theorem decodeFrom_walker (d : PtDecoder)
    (sizes : ∀ p ∈ split, p ≠ [] ∧ p.length ≤ 47) (last : Option IpPacket) :
    (decodeFrom d (tntPackets split ++ ipPackets last)).map (fun m => m.2.walker) =
      (d.walker.loadAll split).bind fun w => w.takeIp last := by
  have start : Stands [] (tntPackets split ++ ipPackets last)
      { d with trace := encodeAll (tntPackets split ++ ipPackets last), pos := 0 } := ⟨rfl, rfl⟩
  exact eval_tntPackets sizes start

/-! ## From one TNT packet to the next -/

/-- What the queue does at an address from an IP packet. -/
def Walker.resume (w : Walker) (ip : U64) : Part Walker :=
  let bound : Walker := { w with ip, out := w.out ++ (emitted ip).map (⟨.packet, ·⟩) }
  if w.pending = [] then Part.some bound else bound.walk

/-- The decoders from a payload on, until outcomes come or are dropped: rounds of a walk, addresses that resume it, and
packets that leave the window alone. -/
inductive Holding (payload : U64) : PtDecoder → Prop
  | load (d : PtDecoder) : Holding payload (d.loadTnt payload).2
  | walk {d e : PtDecoder} (h : Holding payload d) (hstep : d.walkStep = some e) : Holding payload e
  | resume {d : PtDecoder} (h : Holding payload d) : Holding payload d.takeIp.2
  | other {d e : PtDecoder} (h : Holding payload d) (bits : e.tntBits = d.tntBits)
      (count : e.tntCount = d.tntCount) : Holding payload e

theorem walkTnt_count (d : PtDecoder) : d.walkTnt.2.tntCount = d.tntCount := (correctKaslr_frame d).2.2.2.2.2.2.1

theorem Holding.count_le {payload : U64} (h : Holding payload d) : d.tntCount ≤ payload.toNat.log2 := by
  induction h with
  | load d =>
    rw [loadTnt]
    split
    · exact Nat.zero_le _
    · dsimp only
      split
      · rw [walkTnt_count]
      · exact Nat.le_refl _
  | walk _ hstep ih =>
    obtain ⟨-, ⟨ip, -, rfl⟩ | ⟨ip, -, rfl⟩ | ⟨taken, fall, ip, -, -, rfl⟩⟩ := walkStep_cases hstep
    · exact ih
    · exact ih
    · exact (Nat.sub_le _ 1).trans ih
  | resume _ ih =>
    rw [takeIp]
    split
    · rw [walkTnt_count]
      exact ih
    · exact ih
  | other _ _ count ih => rwa [count]

theorem foldlM_takeIp (ips : List U64) (d : PtDecoder) :
    (ips.foldlM (fun (e : PtDecoder) ip => settle { e with ip }.takeIp) d).map walker =
      ips.foldlM Walker.resume d.walker := by
  induction ips generalizing d with
  | nil => exact Part.map_some _ _
  | cons ip ips ih =>
    have htake : (settle { d with ip }.takeIp).map walker = d.walker.resume ip := takeIp_walker { d with ip }
    rw [foldlM_cons, foldlM_cons, ← htake]
    simp only [Part.bind_eq_bind, Part.map_bind, Part.bind_map, ih]

/-- The window is a queue. Over any text, base and address, the walks from a TNT packet on are those of the list of the
bits below the stop bit: round by round, and over any addresses that resume them. The count is the number of outcomes
that are left, and no shift is by more than 47. -/
theorem window_queue {data : List U8} {pos : Nat} {block : Option Nat} {payload : U64}
    (hscan : (scanPacket data pos block).pkt = .tnt8 payload ∨ (scanPacket data pos block).pkt = .tnt64 payload)
    (hne : payload ≠ 0#64) :
    payload.toNat.log2 ≤ 47 ∧
      (∀ (d : PtDecoder) (ips : List U64),
        ((settle (d.loadTnt payload)).bind (ips.foldlM fun e ip => settle { e with ip }.takeIp)).map walker =
          (d.walker.arrive (windowBits payload payload.toNat.log2)).bind (ips.foldlM Walker.resume)) ∧
      ∀ d, Holding payload d →
        d.walkStep.map walker = d.walker.step ∧ d.tntCount = d.walker.pending.length ∧ d.tntCount ≤ 47 := by
  have hbits : payload.toNat < 2 ^ 48 := by
    have hlt := scanAt_outcomes (data.drop pos) block
    rcases hscan with h | h
    · rwa [show (scanAt (data.drop pos) block).pkt = _ from h] at hlt
    · rwa [show (scanAt (data.drop pos) block).pkt = _ from h] at hlt
  have hlog : payload.toNat.log2 ≤ 47 :=
    Nat.le_of_lt_succ ((Nat.log2_lt fun h => hne (BitVec.eq_of_toNat_eq h)).mpr hbits)
  refine ⟨hlog, fun d ips => ?_, fun d h => ⟨walkStep_walker d, (length_windowBits _ _).symm, h.count_le.trans hlog⟩⟩
  simp only [Part.map_bind, ← loadTnt_walker d hne, Part.bind_map, foldlM_takeIp]

/-- Four outcomes of a short packet. -/
theorem window_queue_short :
    (scanPacket [0x2c#8] 0 none).pkt = .tnt8 22#64 ∧ windowBits 22#64 4 = [false, true, true, false] ∧
      ∀ d, Holding 22#64 d → d.tntCount = d.walker.pending.length :=
  have hscan : (scanPacket [0x2c#8] 0 none).pkt = .tnt8 22#64 := rfl
  ⟨hscan, rfl, fun d h => ((window_queue (.inl hscan) (by decide)).2.2 d h).2.1⟩

end Vock.Pt
