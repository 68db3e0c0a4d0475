import Vock.Laws.Pt.Run
import Vock.Laws.Pt.Stream

/-!
# The full decoder against the TIP-only decode

The two decoders take the same packets: `Abreast` relates a state of the full decoder's run to the
state of the TIP-only decode at the same position, and every round of the run keeps it
(`Abreast.step`). What they can disagree on is the address a compressed IP packet is completed
with: the full decoder completes it with its walk position, the other with the last IP.

* `packet_pcs_agree_iff`: the PCs emitted at IP packets agree all along a run exactly when the two
  hold the same bits above the payload at every compressed IP packet, or neither holds a kernel
  address there.
* `decode_written`: over the stream an encoder wrote, the boundaries are recovered, and both
  decoders emit the kernel addresses that were encoded, the full one with no text to walk.
-/

namespace Vock.Pt

open Library StateTransition PtDecoder

variable {m m' : Point × PtDecoder} {s : TipState} {trace text : List U8} {base : U64}
  {d : PtDecoder} {data : List U8} {t : TipState}

/-! ## The same packet -/

/-- Both decoders stand at the same packet. -/
structure InStep (d : PtDecoder) (s : TipState) : Prop where
  pos : d.pos = s.pos
  block : d.block = s.block
  running : s.stopped = false

/-- The packet a decoder stands at. -/
def pktAt (d : PtDecoder) : Pkt := (scanPacket d.trace d.pos d.block).pkt

/-- The packet at hand, taken by both: what either emits, and that equal addresses stay equal. -/
structure BothTake (d : PtDecoder) (s : TipState) (e : PtDecoder) (s' : TipState) : Prop where
  step : tipStep d.trace s = some s'
  text : e.text = d.text
  trace : e.trace = d.trace
  out : e.out = d.out ++ atPacket (pcsOf d.trace d.pos d.ip (pktAt d))
  tipOut : s'.out = s.out ++ pcsOf d.trace d.pos s.lastIp (pktAt d)
  ip : d.ip = s.lastIp → e.ip = s'.lastIp

theorem InStep.packetStep (h : InStep d s)
    (inside : d.pos < d.trace.length) :
    ∃ e s',
      ((GoesOn e d.packetStep ∧ InStep e s') ∨ (d.packetStep = (.done, e) ∧ s'.stopped = true)) ∧
      BothTake d s e s' := by
  have inside' : s.pos < d.trace.length := h.pos ▸ inside
  have hstep := tipStep_of_live h.running inside'
  rw [← h.pos, ← h.block] at hstep
  rw [packetStep_inside inside]
  by_cases ok : (scanPacket d.trace d.pos d.block).Ok
  · obtain ⟨e, on, taken⟩ := packet_taken d ok
    have handled := packet_handled d.trace s ok
    refine ⟨e, _, .inl ⟨on, ?_, ?_, ?_⟩, hstep, taken.text, taken.trace, taken.out, ?_, ?_⟩
    · rw [taken.pos, handled.pos, h.pos]
    · rw [taken.block, handled.block, h.block]
    · rw [handled.stopped, h.running]
    · rw [handled.out, ← h.pos]
      rfl
    · intro hip
      rw [taken.ip, handled.lastIp, hip, ← h.pos]
  · have hnil : ∀ ip, pcsOf d.trace d.pos ip (pktAt d) = [] := by
      intro ip
      rcases not_ok_cases ok with hbad | htrunc
      · rw [pktAt, hbad]; rfl
      · rw [pktAt, htrunc]; rfl
    have hquiet : ∀ ip, d.out = d.out ++ atPacket (pcsOf d.trace d.pos ip (pktAt d)) := by
      intro ip
      rw [hnil]
      exact (List.append_nil _).symm
    have htip : ∀ ip, s.out = s.out ++ pcsOf d.trace d.pos ip (pktAt d) := by
      intro ip
      rw [hnil, List.append_nil]
    rcases not_ok_cases ok with hbad | htrunc
    · rw [hbad] at hstep ⊢
      cases hf : findPsb d.trace (d.pos + 1) with
      | none =>
        rw [packet_bad_lost _ (h.pos ▸ hf)] at hstep
        rw [PtDecoder.packet_bad_lost _ hf]
        exact ⟨_, _, .inr ⟨rfl, rfl⟩, hstep, rfl, rfl, hquiet _, htip _, fun _ => rfl⟩
      | some next =>
        rw [packet_bad_found _ (h.pos ▸ hf)] at hstep
        rw [PtDecoder.packet_bad_found _ hf]
        refine ⟨_, _, .inl ⟨.inl rfl, ?_⟩, hstep, rfl, rfl, hquiet _, htip _, fun _ => rfl⟩
        exact ⟨rfl, rfl, h.running⟩
    · rw [htrunc] at hstep
      rw [htrunc]
      exact ⟨_, _, .inr ⟨rfl, rfl⟩, hstep, rfl, rfl, hquiet _, htip _, id⟩

/-! ## Along a run -/

/-- A state of the run and the state of the other decode beside it: at the same packet until the run
is over, and at its own end then. -/
structure Abreast (trace : List U8) (m : Point × PtDecoder) (s : TipState) : Prop where
  sameTrace : m.2.trace = trace
  reached : Reaches (tipStep trace) {} s
  inStep : m.1 ≠ .done → InStep m.2 s
  ended : m.1 = .done → tipStep trace s = none

/-- The rounds of the pair: a round of a walk, which the other decode waits for; the end of the
trace; a packet. -/
inductive Round : Point × PtDecoder → TipState → Point × PtDecoder → TipState → Prop where
  | walk {d : PtDecoder} {m' : Point × PtDecoder} {s : TipState} (frame : WalkFrame d m'.2) :
      Round (.walk, d) s m' s
  | stop {d : PtDecoder} {s : TipState} : Round (.packet, d) s (.done, d) s
  | packet {d e : PtDecoder} {m' : Point × PtDecoder} {s s' : TipState}
      (goes : GoesOn e m' ∨ m' = (.done, e)) (take : BothTake d s e s') :
      Round (.packet, d) s m' s'

theorem Abreast.step (h : Abreast trace m s) (hstep : PtDecoder.step m = some m') :
    ∃ s', Round m s m' s' ∧ Abreast trace m' s' := by
  obtain ⟨point, d⟩ := m
  have htrace : d.trace = trace := h.sameTrace
  cases point with
  | packet =>
    obtain rfl : d.packetStep = m' := Option.some.inj hstep
    have inStep : InStep d s := h.inStep Point.noConfusion
    by_cases inside : d.pos < d.trace.length
    · obtain ⟨e, s', goes, take⟩ := inStep.packetStep inside
      have reached : Reaches (tipStep trace) {} s' := h.reached.tail (htrace ▸ take.step)
      rcases goes with ⟨on, together⟩ | ⟨hdone, stopped⟩
      · obtain ⟨live, -, htr, hpos, hblock, -⟩ := on.frame
        refine ⟨s', .packet (.inl on) take, ?_, reached, fun _ => ⟨?_, ?_, together.running⟩,
          fun hd => absurd hd live⟩
        · rw [htr, take.trace, htrace]
        · rw [hpos, together.pos]
        · rw [hblock, together.block]
      · refine ⟨s', .packet (.inr hdone) take, ?_, reached, fun hlive => ?_, fun _ => ?_⟩
        · rw [hdone, ← htrace, ← take.trace]
        · rw [hdone] at hlive
          exact absurd rfl hlive
        · rw [tipStep, if_pos (.inl stopped)]
    · have outside := Nat.not_lt.mp inside
      rw [packetStep_at_end outside]
      refine ⟨s, .stop, htrace, h.reached, fun hlive => absurd rfl hlive, fun _ => ?_⟩
      rw [tipStep, if_pos (.inr (by rw [← htrace, ← inStep.pos]; exact outside))]
  | walk =>
    have inStep : InStep d s := h.inStep Point.noConfusion
    have key : ∀ e point', WalkFrame d e → point' ≠ .done → (point', e) = m' →
        ∃ s', Round (.walk, d) s m' s' ∧ Abreast trace m' s' := by
      rintro e point' frame live rfl
      refine ⟨s, .walk frame, frame.trace.trans htrace, h.reached, fun _ => ⟨?_, ?_, inStep.running⟩,
        fun hd => absurd hd live⟩
      · exact frame.pos.trans inStep.pos
      · exact frame.block.trans inStep.block
    cases hw : d.walkStep with
    | none =>
      rw [step_walk_none hw] at hstep
      exact key d .packet (.refl d) Point.noConfusion (Option.some.inj hstep)
    | some e =>
      rw [step_walk_some hw] at hstep
      exact key e .walk (walkStep_frame hw) Point.noConfusion (Option.some.inj hstep)
  | done => cases hstep

theorem abreast_start (text : List U8) (base : U64) (trace : List U8) :
    Abreast trace (new text base trace).start {} :=
  ⟨rfl, .refl, fun _ => ⟨rfl, rfl, rfl⟩, nofun⟩

theorem abreast_of_reaches (h : Reaches PtDecoder.step (new text base trace).start m) : ∃ s, Abreast trace m s := by
  refine reaches_invariant (P := fun m => ∃ s, Abreast trace m s) ?_ h ⟨{}, abreast_start _ _ _⟩
  rintro m m' ⟨s, abreast⟩ hstep
  obtain ⟨s', -, abreast'⟩ := abreast.step hstep
  exact ⟨s', abreast'⟩

/-- Beside the end of a run stands the end of the other decode. -/
theorem Abreast.end_eq (h : Abreast trace m s) (done : m.1 = .done) : s = tipDecode trace := by
  have hend := tipRun_of_end (h.ended done)
  rw [← tipRun_of_reaches h.reached] at hend
  exact hend.symm

theorem done_of_step_none (h : PtDecoder.step m = none) : m.1 = .done := by
  obtain ⟨point, d⟩ := m
  cases point with
  | packet => cases h
  | walk =>
    cases hw : d.walkStep with
    | none => rw [step_walk_none hw] at h; cases h
    | some e => rw [step_walk_some hw] at h; cases h
  | done => rfl

/-! ## Two states at one position -/

theorem left_of_reaches (h : Reaches (tipStep data) s t) :
    t = s ∨ t.left data < s.left data := by
  induction h with
  | refl => exact .inl rfl
  | tail _ hstep ih =>
    have hless := tipStep_left hstep
    rcases ih with rfl | hlt
    · exact .inr hless
    · exact .inr (Nat.lt_trans hless hlt)

/-- The decode is at each position once. -/
theorem tip_reached_eq (hs : Reaches (tipStep data) {} s)
    (ht : Reaches (tipStep data) {} t) (running : s.stopped = false) (running' : t.stopped = false)
    (hpos : s.pos = t.pos) : s = t := by
  have hleft : s.left data = t.left data := by
    rw [TipState.left, TipState.left, running, running', hpos]
  rcases reaches_total hs ht with hst | hts
  · rcases left_of_reaches hst with heq | hlt
    · exact heq.symm
    · omega
  · rcases left_of_reaches hts with heq | hlt
    · exact heq
    · omega

/-- The two decoders, each on its own run over the same trace, at the same position. -/
structure Paired (text : List U8) (base : U64) (trace : List U8) (m : Point × PtDecoder)
    (s : TipState) : Prop where
  run : Reaches PtDecoder.step (new text base trace).start m
  live : m.1 ≠ .done
  tip : Reaches (tipStep trace) {} s
  running : s.stopped = false
  pos : m.2.pos = s.pos

theorem Paired.abreast (h : Paired text base trace m s) : Abreast trace m s := by
  obtain ⟨t, abreast⟩ := abreast_of_reaches h.run
  have inStep := abreast.inStep h.live
  have hts : t = s :=
    tip_reached_eq abreast.reached h.tip inStep.running h.running (inStep.pos.symm.trans h.pos)
  exact hts ▸ abreast

/-! ## What an IP packet is completed with -/

/-- Two addresses complete a payload to the same PC: they agree above it, or neither is a kernel
address. -/
def SameAbove (enc : U8) (a b : U64) : Prop :=
  a >>> ipBits enc = b >>> ipBits enc ∨ (a < kernelBase ∧ b < kernelBase)

theorem emitted_update_iff {enc : U8} {val : U64} (h : isCompressed enc)
    (hval : val >>> ipBits enc = 0#64) (a b : U64) :
    emitted (ipUpdate enc val a) = emitted (ipUpdate enc val b) ↔ SameAbove enc a b := by
  have hka := ipUpdate_kernel h hval a
  have hkb := ipUpdate_kernel h hval b
  constructor
  · intro heq
    unfold emitted at heq
    by_cases ha : kernelBase ≤ a
    · by_cases hb : kernelBase ≤ b
      · rw [if_pos (hka.mpr ha), if_pos (hkb.mpr hb), List.cons.injEq] at heq
        left
        rw [← ipUpdate_ushiftRight h hval a, heq.1, ipUpdate_ushiftRight h hval b]
      · rw [if_pos (hka.mpr ha), if_neg (mt hkb.mp hb)] at heq
        cases heq
    · by_cases hb : kernelBase ≤ b
      · rw [if_neg (mt hka.mp ha), if_pos (hkb.mpr hb)] at heq
        cases heq
      · exact .inr ⟨BitVec.not_le.mp ha, BitVec.not_le.mp hb⟩
  · rintro (habove | ⟨ha, hb⟩)
    · rw [ipUpdate_compressed h, ipUpdate_compressed h, habove]
    · rw [emitted_of_lt, emitted_of_lt]
      · exact BitVec.not_le.mp (mt hkb.mp (BitVec.not_le.mpr hb))
      · exact BitVec.not_le.mp (mt hka.mp (BitVec.not_le.mpr ha))

/-- Only at a compressed IP packet do the emissions depend on the address before it. -/
theorem pcsOf_eq_iff (data : List U8) (pos : Nat) (a b : U64) (pkt : Pkt) :
    pcsOf data pos a pkt = pcsOf data pos b pkt ↔
      ∀ op enc, pkt = .ip op enc → isCompressed enc → SameAbove enc a b := by
  cases pkt with
  | ip op enc =>
    rw [pcsOf_ip, pcsOf_ip]
    by_cases hc : isCompressed enc
    · have hbytes : 0 < (ipPayloadLen enc).getD 0 := by
        rcases hc with rfl | rfl | rfl
        · decide
        · decide
        · decide
      rw [if_pos hbytes, if_pos hbytes, emitted_update_iff hc (ipPayload_ushiftRight _ _ _)]
      constructor
      · intro hsame op' enc' heq _
        cases heq
        exact hsame
      · intro hall
        exact hall op enc rfl hc
    · constructor
      · intro _ op' enc' heq hc'
        cases heq
        exact absurd hc' hc
      · intro _
        by_cases hbytes : 0 < (ipPayloadLen enc).getD 0
        · rw [if_pos hbytes, if_pos hbytes, ipUpdate_full hc hbytes _ a b]
        · rw [if_neg hbytes, if_neg hbytes]
  | _ =>
    constructor
    · intro _ op' enc' heq
      cases heq
    · intro _
      rfl

/-! ## Agreement -/

/-- At every point of the run so far the same PCs were emitted at IP packets. -/
def PcsAgree (text : List U8) (base : U64) (trace : List U8) : Prop :=
  ∀ m s, Paired text base trace m s → m.2.packetPcs = s.out

/-- At every compressed IP packet of the run the walk position completes the payload as the last IP
does. -/
def SameBases (text : List U8) (base : U64) (trace : List U8) : Prop :=
  ∀ d s, Paired text base trace (.packet, d) s →
    ∀ op enc, pktAt d = .ip op enc → isCompressed enc → SameAbove enc d.ip s.lastIp

/-- A round keeps the emissions equal when the addresses complete the packet to the same PC. -/
theorem Round.keeps_pcs {s' : TipState} (round : Round m s m' s')
    (same : ∀ d, m = (.packet, d) → ∀ op enc, pktAt d = .ip op enc → isCompressed enc →
      SameAbove enc d.ip s.lastIp)
    (h : m.2.packetPcs = s.out) : m'.2.packetPcs = s'.out := by
  cases round with
  | walk frame => rw [frame.pcs, h]
  | stop => exact h
  | @packet d e _ _ _ goes take =>
    have hout : m'.2.out = e.out := by
      rcases goes with on | rfl
      · exact on.frame.2.2.2.2.2.2.2.2
      · rfl
    have hd : d.packetPcs = s.out := h
    rw [packetPcs_append (hout.trans take.out), take.tipOut, hd,
      (pcsOf_eq_iff _ _ _ _ _).mpr (same d rfl)]

theorem pcs_of_same (same : SameBases text base trace) (h : Reaches PtDecoder.step (new text base trace).start m) :
    ∃ s, Abreast trace m s ∧ m.2.packetPcs = s.out := by
  have hkeeps : Reaches PtDecoder.step (new text base trace).start m ∧
      ∃ s, Abreast trace m s ∧ m.2.packetPcs = s.out := by
    refine reaches_invariant (P := fun m => Reaches PtDecoder.step (new text base trace).start m ∧
      ∃ s, Abreast trace m s ∧ m.2.packetPcs = s.out) ?_ h ⟨.refl, {}, abreast_start _ _ _, rfl⟩
    rintro m m' ⟨reached, s, abreast, hpcs⟩ hstep
    obtain ⟨s', round, abreast'⟩ := abreast.step hstep
    refine ⟨reached.tail hstep, s', abreast', round.keeps_pcs ?_ hpcs⟩
    rintro d rfl
    have inStep := abreast.inStep Point.noConfusion
    exact same d s ⟨reached, Point.noConfusion, abreast.reached, inStep.running, inStep.pos⟩
  exact hkeeps.2

/-- An IP packet is inside the trace, and the loop does not end on it. -/
theorem packetStep_of_ip {op enc : U8} (hp : pktAt d = .ip op enc) :
    d.pos < d.trace.length ∧ d.packetStep.1 ≠ .done := by
  have inside : d.pos < d.trace.length := by
    rw [← Nat.not_le]
    intro outside
    rw [pktAt, scanPacket, List.drop_eq_nil_of_le outside] at hp
    cases hp
  refine ⟨inside, ?_⟩
  have ok : (scanPacket d.trace d.pos d.block).Ok :=
    ⟨fun h => Pkt.noConfusion (hp.symm.trans h), fun h => Pkt.noConfusion (hp.symm.trans h)⟩
  obtain ⟨e, on, -⟩ := packet_taken d ok
  rw [packetStep_inside inside]
  exact on.frame.1

theorem same_of_agree (agree : PcsAgree text base trace) : SameBases text base trace := by
  intro d s paired op enc hp hc
  obtain ⟨inside, live⟩ := packetStep_of_ip hp
  have abreast := paired.abreast
  have htrace : d.trace = trace := abreast.sameTrace
  obtain ⟨e, s', goes, take⟩ := (abreast.inStep Point.noConfusion).packetStep inside
  rcases goes with ⟨on, together⟩ | ⟨hdone, -⟩
  · obtain ⟨-, -, -, hpos, -, -, -, -, hout⟩ := on.frame
    have next : Paired text base trace d.packetStep s' :=
      ⟨paired.run.tail rfl, live, paired.tip.tail (htrace ▸ take.step), together.running,
        hpos.trans together.pos⟩
    have hnext := agree _ _ next
    have hhere : d.packetPcs = s.out := agree _ _ paired
    rw [packetPcs_append (hout.trans take.out), take.tipOut, hhere, List.append_cancel_left_eq] at hnext
    exact (pcsOf_eq_iff _ _ _ _ _).mp hnext op enc hp hc
  · rw [hdone] at live
    exact absurd rfl live

/-- **The PCs at IP packets.** For every text, base and trace: the full decoder and the TIP-only
decode emit the same PCs at IP packets all along the run exactly when the walk position completes
every compressed IP packet as the last IP does; and then, if the run ends, they have emitted the
same sequence. -/
theorem packet_pcs_agree_iff (text : List U8) (base : U64) (trace : List U8) :
    (PcsAgree text base trace ↔ SameBases text base trace) ∧
      (SameBases text base trace →
        ∀ m ∈ (new text base trace).run, m.2.packetPcs = tipOnlyDecode trace) := by
  refine ⟨⟨same_of_agree, ?_⟩, ?_⟩
  · intro same m s paired
    obtain ⟨t, abreast, hpcs⟩ := pcs_of_same same paired.run
    have inStep := abreast.inStep paired.live
    have hts : t = s := tip_reached_eq abreast.reached paired.tip inStep.running paired.running
      (inStep.pos.symm.trans paired.pos)
    exact hpcs.trans (congrArg TipState.out hts)
  · intro same m hm
    obtain ⟨reached, hnone⟩ := mem_eval.mp hm
    obtain ⟨s, abreast, hpcs⟩ := pcs_of_same same reached
    rw [hpcs, abreast.end_eq (done_of_step_none hnone)]
    rfl

/-- A short branch at the text's start, and 64 KiB in its way. -/
def longBranch : List U8 := [0x0f#8, 0x84#8, 0x00#8, 0x00#8, 0x01#8, 0x00#8]

/-- A TIP at the branch, one taken outcome, then a TIP with a two-byte update. -/
def walkedTrace : List U8 :=
  0xcd#8 :: leBytes 8 0xffffffff81000000#64 ++ [0x06#8, 0x2d#8, 0x34#8, 0x12#8]

/-- The walk took the branch, and the update is completed with where it went. -/
theorem walk_moves_next_ip :
    ∃ m ∈ (new longBranch 0xffffffff81000000#64 walkedTrace).run,
      m.2.packetPcs = [0xffffffff81000000#64, 0xffffffff81011234#64] ∧
      tipOnlyDecode walkedTrace = [0xffffffff81000000#64, 0xffffffff81001234#64] :=
  ⟨_, exec_mem_eval (n := 12) (by decide), by decide, by decide⟩

/-! ## With no text -/

/-- With no text there is no walk, the addresses stay equal, and everything is emitted at packets. -/
structure WithoutText (trace : List U8) (m : Point × PtDecoder) (s : TipState) : Prop where
  abreast : Abreast trace m s
  notWalk : m.1 ≠ .walk
  text : m.2.text = []
  ip : m.1 ≠ .done → m.2.ip = s.lastIp
  out : m.2.out = atPacket s.out

theorem WithoutText.step (h : WithoutText trace m s) (hstep : PtDecoder.step m = some m') :
    ∃ s', WithoutText trace m' s' := by
  obtain ⟨s', round, abreast'⟩ := h.abreast.step hstep
  cases round with
  | walk frame => exact absurd rfl h.notWalk
  | stop => exact ⟨s, abreast', Point.noConfusion, h.text, fun hd => absurd rfl hd, h.out⟩
  | @packet d e _ _ _ goes take =>
    have htext : e.text = [] := take.text.trans h.text
    have hip : d.ip = s.lastIp := h.ip Point.noConfusion
    have hd : d.out = atPacket s.out := h.out
    have hout : e.out = atPacket s'.out := by
      rw [take.out, take.tipOut, hd, hip, atPacket, atPacket, atPacket, List.map_append]
    rcases goes with (rfl | ⟨-, -, hne⟩) | rfl
    · exact ⟨s', abreast', Point.noConfusion, htext, fun _ => take.ip hip, hout⟩
    · exact absurd htext hne
    · exact ⟨s', abreast', Point.noConfusion, htext, fun hd => absurd rfl hd, hout⟩

theorem withoutText_of_reaches (h : Reaches PtDecoder.step (new [] base trace).start m) :
    ∃ s, WithoutText trace m s := by
  refine reaches_invariant (P := fun m => ∃ s, WithoutText trace m s) ?_ h
    ⟨{}, abreast_start _ _ _, Point.noConfusion, rfl, fun _ => rfl, rfl⟩
  intro m m' ⟨s, hs⟩ hstep
  exact hs.step hstep

/-- With no text the full decoder ends, and emits what the TIP-only decode does. -/
theorem run_without_text (base : U64) (trace : List U8) :
    ∃ m ∈ (new [] base trace).run, m.2.out = atPacket (tipOnlyDecode trace) := by
  have hdom : ((new [] base trace).run).Dom := by
    refine run_dom_of_walks fun e he => ?_
    obtain ⟨s, hs⟩ := withoutText_of_reaches he
    exact absurd rfl hs.notWalk
  obtain ⟨m, hm⟩ := Part.dom_iff_mem.mp hdom
  obtain ⟨reached, hnone⟩ := mem_eval.mp hm
  obtain ⟨s, hs⟩ := withoutText_of_reaches reached
  refine ⟨m, hm, ?_⟩
  rw [hs.out, hs.abreast.end_eq (done_of_step_none hnone)]
  rfl

/-! ## A written stream -/

theorem tipOnlyDecode_written {ps : List Packet} {targets : List U64} (framed : Framed none ps)
    (addressed : Addressed (some 0#64) ps targets) :
    tipOnlyDecode (encodeAll ps) = kernelPcs targets := by
  obtain ⟨s, reached, hpos, -, hout⟩ := emits_of_addressed addressed [] {} framed rfl rfl
    (fun p hp => (Option.some.inj hp).symm)
  have hend : tipStep (encodeAll ps) s = none := by
    rw [tipStep, if_pos (.inr (Nat.le_of_eq hpos.symm))]
  have hrun : tipDecode (encodeAll ps) = s := (tipRun_of_reaches reached).trans (tipRun_of_end hend)
  rw [tipOnlyDecode, hrun, hout]
  rfl

/-- **Written streams are read back.** Scanning what was written for a list of packets, each where
it may stand, yields these packets with their lengths and stops at the end; and if the IP packets
are valid compressions of `targets`, both decoders emit the kernel addresses among them. -/
theorem decode_written (ps : List Packet) (framed : Framed none ps) :
    ScansFrom (encodeAll ps) 0 none (ps.map Packet.scan) (blockAt none ps) ∧
      ∀ targets, Addressed (some 0#64) ps targets →
        tipOnlyDecode (encodeAll ps) = kernelPcs targets ∧
        ∀ base, ∃ m ∈ (new [] base (encodeAll ps)).run, m.2.out = atPacket (kernelPcs targets) := by
  refine ⟨scansFrom_encodeAll framed [], fun targets addressed => ?_⟩
  have htip := tipOnlyDecode_written framed addressed
  refine ⟨htip, fun base => ?_⟩
  obtain ⟨m, hm, hout⟩ := run_without_text base (encodeAll ps)
  exact ⟨m, hm, hout.trans (congrArg atPacket htip)⟩

/-- PSB, a full address, a block with one item, an update of the address, and a TNT. -/
def writtenStream : List Packet :=
  [.psb, .ip .tipPge .full ⟨leBytes 8 0xffffffff81001234#64, rfl⟩, .bbp 0x00#8,
    .bip 0x04#8 rfl false ⟨[0x01#8, 0x02#8, 0x03#8, 0x04#8], rfl⟩, .bep false,
    .ip .tip .update16 ⟨leBytes 2 0xffffffff81004321#64, rfl⟩,
    .tnt8 0x04#8 (by decide) (by decide) (by decide)]

theorem decode_written_stream :
    ScansFrom (encodeAll writtenStream) 0 none (writtenStream.map Packet.scan) none ∧
      tipOnlyDecode (encodeAll writtenStream) = [0xffffffff81001234#64, 0xffffffff81004321#64] ∧
      ∀ base, ∃ m ∈ (new [] base (encodeAll writtenStream)).run,
        m.2.out = atPacket [0xffffffff81001234#64, 0xffffffff81004321#64] := by
  have framed : Framed none writtenStream :=
    ⟨trivial, trivial, trivial, rfl, trivial, trivial, fun _ => rfl, trivial⟩
  have addressed : Addressed (some 0#64) writtenStream
      [0xffffffff81001234#64, 0xffffffff81004321#64] :=
    .psb (.ip rfl (.other ⟨nofun, nofun, nofun⟩ (.other ⟨nofun, nofun, nofun⟩
      (.other ⟨nofun, nofun, nofun⟩ (.ip ⟨⟨_, rfl, by decide⟩, rfl⟩
        (.other ⟨nofun, nofun, nofun⟩ (.nil _)))))))
  exact ⟨(decode_written writtenStream framed).1, (decode_written writtenStream framed).2 _ addressed⟩

end Vock.Pt
