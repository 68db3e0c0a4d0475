import Vock.Pt.Decoder
import Vock.Laws.Pt.TipOnly

/-!
# The full decoder: what a packet and a walk change

One law for each kind of round. A packet that is scanned leaves the fields of `Taken`, and then the
loop goes on or enters a walk with an outcome pending over a loaded text (`packet_taken`). A round
of a walk keeps everything but the address, the pending outcomes and the PCs of the walk
(`walkStep_frame`). `run_dom_of_walks` and `walk_dom_of_run` tie the end of a run to the end of the
walks it enters.
-/

namespace Vock.Pt.PtDecoder

open Library StateTransition List

variable {d e : PtDecoder} {enc : U8} {m m' : Point × PtDecoder} {n : Nat}

/-! ## The emissions of the two kinds -/

/-- The PCs emitted at IP packets, in order. -/
def packetPcs (d : PtDecoder) : List U64 := (d.out.filter (·.site = .packet)).map (·.ip)

/-- PCs as the packet arm emits them. -/
def atPacket (pcs : List U64) : List Emit := pcs.map (⟨.packet, ·⟩)

theorem packetPcs_append {pcs : List U64} (h : e.out = d.out ++ atPacket pcs) : e.packetPcs = d.packetPcs ++ pcs := by
  have hall : (atPacket pcs).filter (·.site = .packet) = atPacket pcs := by
    rw [filter_eq_self]
    intro x hx
    obtain ⟨pc, -, rfl⟩ := mem_map.mp hx
    rfl
  have hips : (atPacket pcs).map (·.ip) = pcs := by
    rw [atPacket, map_map]
    exact map_id pcs
  rw [packetPcs, packetPcs, h, filter_append, map_append, hall, hips]

theorem packetPcs_emitIp_walk (d : PtDecoder) (ip : U64) :
    (d.emitIp .walk ip).packetPcs = d.packetPcs := by
  rw [emitIp, emitted]
  split
  · simp [packetPcs]
  · simp [packetPcs]

/-! ## Entering a walk -/

/-- The correction touches the text base only. -/
theorem correctKaslr_eq (d : PtDecoder) :
    d.correctKaslr = { d with textVaddr := d.correctKaslr.textVaddr } := by
  unfold correctKaslr
  split
  · split
    · dsimp only
      split
      · rfl
      · rfl
    · rfl
  · rfl

/-- The loop goes on at the next packet, or enters a walk with an outcome pending over a loaded
text. -/
def GoesOn (e : PtDecoder) (next : Point × PtDecoder) : Prop :=
  next = (.packet, e) ∨ (next = e.walkTnt ∧ 0 < e.tntCount ∧ e.text ≠ [])

/-- What a scanned packet leaves in the fields, before any walk. -/
structure Taken (d : PtDecoder) (scan : Scan) (e : PtDecoder) : Prop where
  text : e.text = d.text
  textVaddr : e.textVaddr = d.textVaddr
  trace : e.trace = d.trace
  pos : e.pos = d.pos + scan.len
  block : e.block = blockAfter d.block scan.pkt
  ip : e.ip = lastIpAfter d.trace d.pos d.ip scan.pkt
  out : e.out = d.out ++ atPacket (pcsOf d.trace d.pos d.ip scan.pkt)

theorem loadTnt_goesOn (d : PtDecoder) (payload : U64) :
    ∃ e, GoesOn e (d.loadTnt payload) ∧ e.text = d.text ∧ e.textVaddr = d.textVaddr ∧
      e.trace = d.trace ∧ e.pos = d.pos ∧ e.block = d.block ∧ e.ip = d.ip ∧ e.out = d.out := by
  unfold loadTnt
  split
  · exact ⟨_, .inl rfl, rfl, rfl, rfl, rfl, rfl, rfl, rfl⟩
  · dsimp only
    split
    · rename_i h
      exact ⟨_, .inr ⟨rfl, h.2.2, h.1⟩, rfl, rfl, rfl, rfl, rfl, rfl, rfl⟩
    · exact ⟨_, .inl rfl, rfl, rfl, rfl, rfl, rfl, rfl, rfl⟩

theorem takeIp_goesOn (d : PtDecoder) : GoesOn (d.emitIp .packet d.ip) d.takeIp := by
  unfold takeIp
  dsimp only
  split
  · rename_i h
    exact .inr ⟨rfl, h.2, h.1⟩
  · exact .inl rfl

/-- A payload that the scanner saw in full is read. -/
theorem ptReadIp_of_scan (hn : ipPayloadLen enc = some n)
    (hpos : 0 < n) (inside : d.pos + (1 + n) ≤ d.trace.length) :
    ptReadIp { d with pos := d.pos + 1 } enc =
      some { d with ip := ipUpdate enc (ipPayload d.trace d.pos enc) d.ip,
                    pos := d.pos + 1 + n } := by
  unfold ptReadIp ipPayload
  rw [hn, Option.getD_some]
  dsimp only
  rw [if_neg (by omega), if_neg (by omega)]

theorem ipPayloadLen_pos (h : ipPayloadLen enc = some n) (hne : enc ≠ 0#8) : 0 < n := by
  have table : ∀ enc : U8, enc ≠ 0#8 → ∀ n ∈ ipPayloadLen enc, 0 < n := by decide +kernel
  exact table enc hne n h

/-! ## One packet -/

/-- The arm of an IP packet with a payload. -/
theorem packet_ip_read (op : U8) (len : Nat)
    (hn : ipPayloadLen enc = some n) (hne : enc ≠ 0#8) (inside : d.pos + (1 + n) ≤ d.trace.length) :
    d.packet (.ip op enc) len =
      takeIp { d with ip := ipUpdate enc (ipPayload d.trace d.pos enc) d.ip,
                      pos := d.pos + 1 + n } := by
  rw [packet, if_neg hne, ptReadIp_of_scan hn (ipPayloadLen_pos hn hne) inside]

/-- The packet arm for a scan that found a packet. -/
theorem packet_taken (d : PtDecoder) (ok : (scanPacket d.trace d.pos d.block).Ok) :
    ∃ e, GoesOn e (d.packet (scanPacket d.trace d.pos d.block).pkt
        (scanPacket d.trace d.pos d.block).len) ∧
      Taken d (scanPacket d.trace d.pos d.block) e := by
  have hext : (scanPacket d.trace d.pos d.block).len ≤ (d.trace.drop d.pos).length :=
    (scanAt_extent _ _ ok).2
  have hone : 1 ≤ (scanPacket d.trace d.pos d.block).len := (scanAt_extent _ _ ok).1
  rw [length_drop] at hext
  have hip : ∀ op enc, (scanPacket d.trace d.pos d.block).pkt = .ip op enc →
      ∃ n, ipPayloadLen enc = some n ∧ (scanPacket d.trace d.pos d.block).len = 1 + n :=
    fun _ _ => scanAt_ip
  generalize scanPacket d.trace d.pos d.block = scan at ok hext hip hone ⊢
  obtain ⟨pkt, len⟩ := scan
  dsimp only at hext hip hone ⊢
  cases pkt with
  | tnt8 payload | tnt64 payload =>
    obtain ⟨e, on, htext, hbase, htrace, hpos, hblock, hip, hout⟩ :=
      loadTnt_goesOn { d with pos := d.pos + len } payload
    exact ⟨e, on, htext, hbase, htrace, hpos, hblock, hip, hout.trans (append_nil _).symm⟩
  | ip op enc =>
    obtain ⟨n, hn, hlen⟩ := hip op enc rfl
    by_cases h0 : enc = 0#8
    · subst h0
      have hp : d.packet (.ip op 0#8) len = (.packet, { d with pos := d.pos + len }) := by
        rw [packet, if_pos rfl]
      exact ⟨_, .inl hp, rfl, rfl, rfl, rfl, rfl, rfl, (append_nil _).symm⟩
    · have hpos := ipPayloadLen_pos hn h0
      have hlong : 0 < (ipPayloadLen enc).getD 0 := by rwa [hn]
      rw [packet_ip_read op len hn h0 (by omega)]
      refine ⟨_, takeIp_goesOn _, rfl, rfl, rfl, ?_, rfl, ?_, ?_⟩
      · show d.pos + 1 + n = d.pos + len
        omega
      · exact (if_pos hlong).symm
      · rw [pcsOf_ip, if_pos hlong]
        rfl
  | bad => exact absurd rfl ok.1
  | truncated => exact absurd rfl ok.2
  | _ => exact ⟨_, .inl rfl, rfl, rfl, rfl, rfl, rfl, rfl, (append_nil _).symm⟩

/-- An undecodable packet with a PSB ahead: the decoder forgets what it had and goes on there. -/
theorem packet_bad_found {next : Nat} (len : Nat)
    (h : findPsb d.trace (d.pos + 1) = some next) :
    d.packet .bad len =
      (.packet, { d with ip := 0#64, block := none, pos := next, tntBits := 0#64, tntCount := 0,
                         stats := { d.stats with badPackets := d.stats.badPackets + 1,
                                                 resyncs := d.stats.resyncs + 1 } }) := by
  unfold packet
  rw [h]
  rfl

/-- An undecodable packet with no PSB ahead ends the run. -/
theorem packet_bad_lost (len : Nat) (h : findPsb d.trace (d.pos + 1) = none) :
    d.packet .bad len =
      (.done, { d with ip := 0#64, block := none, tntBits := 0#64, tntCount := 0,
                       stats := { d.stats with badPackets := d.stats.badPackets + 1 } }) := by
  unfold packet
  rw [h]
  rfl

theorem packetStep_inside (h : d.pos < d.trace.length) :
    d.packetStep = d.packet (scanPacket d.trace d.pos d.block).pkt
      (scanPacket d.trace d.pos d.block).len := by
  rw [packetStep, if_pos h]

theorem packetStep_at_end (h : d.trace.length ≤ d.pos) : d.packetStep = (.done, d) := by
  rw [packetStep, if_neg (Nat.not_lt.mpr h)]

/-! ## One round of a walk -/

/-- What the rounds of a walk leave alone. -/
structure WalkFrame (d e : PtDecoder) : Prop where
  text : e.text = d.text
  textVaddr : e.textVaddr = d.textVaddr
  trace : e.trace = d.trace
  pos : e.pos = d.pos
  block : e.block = d.block
  tntBits : e.tntBits = d.tntBits
  pcs : e.packetPcs = d.packetPcs

theorem WalkFrame.refl (d : PtDecoder) : WalkFrame d d := ⟨rfl, rfl, rfl, rfl, rfl, rfl, rfl⟩

theorem WalkFrame.trans {f : PtDecoder} (h : WalkFrame d e) (h' : WalkFrame e f) : WalkFrame d f :=
  ⟨h'.text.trans h.text, h'.textVaddr.trans h.textVaddr, h'.trace.trans h.trace, h'.pos.trans h.pos,
    h'.block.trans h.block, h'.tntBits.trans h.tntBits, h'.pcs.trans h.pcs⟩

/-- The rounds a walk can take: on to the next instruction, along a direct branch, or along one side
of a conditional one, which takes an outcome. -/
theorem walkStep_cases (h : d.walkStep = some e) :
    0 < d.tntCount ∧
      ((∃ ip, flowAt d.text d.textVaddr d.ip = .next ip ∧ e = { d with ip }) ∨
        (∃ ip, flowAt d.text d.textVaddr d.ip = .jump ip ∧ e = emitIp { d with ip } .walk ip) ∨
        (∃ taken fall ip, flowAt d.text d.textVaddr d.ip = .cond taken fall ∧
          ip = (if d.nextOutcome then taken else fall) ∧
          e = emitIp { d with ip, tntCount := d.tntCount - 1 } .walk ip)) := by
  unfold walkStep at h
  split at h
  · rename_i pending
    refine ⟨pending, ?_⟩
    cases hf : flowAt d.text d.textVaddr d.ip with
    | leave => rw [hf] at h; cases h
    | next ip => rw [hf] at h; exact .inl ⟨ip, rfl, (Option.some.inj h).symm⟩
    | jump ip => rw [hf] at h; exact .inr (.inl ⟨ip, rfl, (Option.some.inj h).symm⟩)
    | cond taken fall =>
      rw [hf] at h
      exact .inr (.inr ⟨taken, fall, _, rfl, rfl, (Option.some.inj h).symm⟩)
  · cases h

theorem walkStep_frame (h : d.walkStep = some e) : WalkFrame d e := by
  obtain ⟨-, ⟨ip, -, rfl⟩ | ⟨ip, -, rfl⟩ | ⟨taken, fall, ip, -, -, rfl⟩⟩ := walkStep_cases h
  · exact ⟨rfl, rfl, rfl, rfl, rfl, rfl, rfl⟩
  · exact ⟨rfl, rfl, rfl, rfl, rfl, rfl, packetPcs_emitIp_walk _ _⟩
  · exact ⟨rfl, rfl, rfl, rfl, rfl, rfl, packetPcs_emitIp_walk _ _⟩

theorem walk_frame (h : Reaches walkStep d e) : WalkFrame d e :=
  reaches_invariant (P := WalkFrame d) (fun _ _ frame hstep => frame.trans (walkStep_frame hstep)) h
    (.refl d)

theorem correctKaslr_frame (d : PtDecoder) :
    d.correctKaslr.text = d.text ∧ d.correctKaslr.trace = d.trace ∧ d.correctKaslr.pos = d.pos ∧
      d.correctKaslr.block = d.block ∧ d.correctKaslr.ip = d.ip ∧
      d.correctKaslr.tntBits = d.tntBits ∧ d.correctKaslr.tntCount = d.tntCount ∧
      d.correctKaslr.out = d.out := by
  rw [correctKaslr_eq]
  exact ⟨rfl, rfl, rfl, rfl, rfl, rfl, rfl, rfl⟩

/-- What goes on, or into a walk, is the same but for the text base. -/
theorem GoesOn.frame {next : Point × PtDecoder} (h : GoesOn e next) :
    next.1 ≠ .done ∧ next.2.text = e.text ∧ next.2.trace = e.trace ∧ next.2.pos = e.pos ∧
      next.2.block = e.block ∧ next.2.ip = e.ip ∧ next.2.tntBits = e.tntBits ∧
      next.2.tntCount = e.tntCount ∧ next.2.out = e.out := by
  rcases h with rfl | ⟨rfl, -, -⟩
  · exact ⟨Point.noConfusion, rfl, rfl, rfl, rfl, rfl, rfl, rfl, rfl⟩
  · exact ⟨Point.noConfusion, correctKaslr_frame e⟩

/-! ## Walks inside a run -/

theorem step_walk_some (h : d.walkStep = some e) : step (.walk, d) = some (.walk, e) := by
  rw [step, h]

theorem step_walk_none (h : d.walkStep = none) : step (.walk, d) = some (.packet, d) := by
  rw [step, h]

theorem reaches_walk (h : Reaches walkStep d e) : Reaches step (.walk, d) (.walk, e) := by
  induction h with
  | refl => exact .refl
  | tail _ hstep ih => exact .tail ih (step_walk_some hstep)

/-- A walk that ends hands its state back to the packet loop. -/
theorem reaches_after_walk (h : e ∈ eval walkStep d) : Reaches step (.walk, d) (.packet, e) := by
  obtain ⟨hreach, hnone⟩ := mem_eval.mp h
  exact .tail (reaches_walk hreach) (step_walk_none hnone)

theorem dom_of_reaches (h : Reaches step m m') : (eval step m).Dom ↔ (eval step m').Dom := by
  rw [reaches_eval h]

/-- A run that ends has ended the walk it stands in. -/
theorem walk_dom_of_run (h : (eval step (.walk, d)).Dom) : (eval walkStep d).Dom := by
  obtain ⟨m, hm⟩ := Part.dom_iff_mem.mp h
  obtain ⟨hreach, hnone⟩ := mem_eval.mp hm
  obtain ⟨n, rfl⟩ := exists_exec_of_reaches hreach
  clear h hm hreach
  induction n generalizing d with
  | zero =>
    exfalso
    cases hw : d.walkStep with
    | none => rw [exec, step_walk_none hw] at hnone; cases hnone
    | some e => rw [exec, step_walk_some hw] at hnone; cases hnone
  | succ n ih =>
    cases hw : d.walkStep with
    | none => exact Part.dom_iff_mem.mpr ⟨d, mem_eval.mpr ⟨.refl, hw⟩⟩
    | some e =>
      rw [exec_succ_of_some (step_walk_some hw)] at hnone
      rw [reaches_eval (.single hw)]
      exact ih hnone

/-- A round of the packet loop ends the run, or takes a packet and goes on further along. -/
theorem packetStep_cases (d : PtDecoder) :
    (∃ e, d.packetStep = (.done, e) ∧ e.text = d.text ∧ e.textVaddr = d.textVaddr) ∨
      (d.pos < d.trace.length ∧ ∃ e, GoesOn e d.packetStep ∧ e.text = d.text ∧
        e.textVaddr = d.textVaddr ∧ e.trace = d.trace ∧ d.pos < e.pos) := by
  by_cases inside : d.pos < d.trace.length
  · rw [packetStep_inside inside]
    by_cases ok : (scanPacket d.trace d.pos d.block).Ok
    · obtain ⟨e, on, taken⟩ := packet_taken d ok
      have hone : 1 ≤ (scanPacket d.trace d.pos d.block).len := (scanAt_extent _ _ ok).1
      have hpos : d.pos < e.pos := by rw [taken.pos]; omega
      exact .inr ⟨inside, e, on, taken.text, taken.textVaddr, taken.trace, hpos⟩
    · rcases not_ok_cases ok with hbad | htrunc
      · rw [hbad]
        cases hf : findPsb d.trace (d.pos + 1) with
        | none =>
          rw [packet_bad_lost _ hf]
          exact .inl ⟨_, rfl, rfl, rfl⟩
        | some next =>
          rw [packet_bad_found _ hf]
          refine .inr ⟨inside, _, .inl rfl, rfl, rfl, rfl, ?_⟩
          exact (findPsb_spec hf).1
      · rw [htrunc]
        exact .inl ⟨_, rfl, rfl, rfl⟩
  · rw [packetStep_at_end (Nat.not_lt.mp inside)]
    exact .inl ⟨_, rfl, rfl, rfl⟩

/-- No round touches the text. -/
theorem step_text (h : step m = some m') : m'.2.text = m.2.text := by
  obtain ⟨point, d⟩ := m
  cases point with
  | packet =>
    obtain rfl : d.packetStep = m' := Option.some.inj h
    rcases packetStep_cases d with ⟨e, hnext, htext, -⟩ | ⟨-, e, on, htext, -⟩
    · rw [hnext]
      exact htext
    · exact on.frame.2.1.trans htext
  | walk =>
    cases hw : d.walkStep with
    | none =>
      rw [step_walk_none hw] at h
      cases h
      rfl
    | some e =>
      rw [step_walk_some hw] at h
      cases h
      exact (walkStep_frame hw).text
  | done => cases h

theorem reaches_text (h : Reaches step m m') : m'.2.text = m.2.text :=
  reaches_invariant (P := fun m' => m'.2.text = m.2.text)
    (fun _ _ hkeep hstep => (step_text hstep).trans hkeep) h rfl

/-- A run ends when every walk it enters ends. -/
theorem run_dom_of_walks (walks : ∀ e, Reaches step (.packet, d) (.walk, e) → (eval walkStep e).Dom) :
    (eval step (.packet, d)).Dom := by
  -- on what is left of the trace
  generalize hleft : d.trace.length - d.pos = left
  induction left using Nat.strong_induction_on generalizing d with
  | _ left ih =>
    have hstep : step (.packet, d) = some d.packetStep := rfl
    rw [dom_of_reaches (.single hstep)]
    have hwalks : ∀ e, Reaches step d.packetStep (.walk, e) → (eval walkStep e).Dom :=
      fun e he => walks e (.head hstep he)
    rcases packetStep_cases d with ⟨e, hdone, -, -⟩ | ⟨inside, e, on, -, -, htrace, hpos⟩
    · rw [hdone]
      exact Part.dom_iff_mem.mpr ⟨(.done, e), mem_eval.mpr ⟨.refl, rfl⟩⟩
    · rcases on with hnext | ⟨hnext, -, -⟩
      · rw [hnext] at hwalks ⊢
        exact ih _ (by rw [htrace]; omega) hwalks rfl
      · rw [hnext] at hwalks ⊢
        obtain ⟨f, hf⟩ := Part.dom_iff_mem.mp (hwalks _ .refl)
        have frame := walk_frame (mem_eval.mp hf).1
        obtain ⟨-, hktrace, hkpos, -⟩ := correctKaslr_frame e
        have hback : Reaches step e.walkTnt (.packet, f) := reaches_after_walk hf
        rw [dom_of_reaches hback]
        refine ih _ ?_ (fun g hg => hwalks g (hback.trans hg)) rfl
        rw [frame.trace, frame.pos, hktrace, htrace]
        omega

end Vock.Pt.PtDecoder
