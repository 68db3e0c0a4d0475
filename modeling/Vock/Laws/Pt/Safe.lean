import Vock.Laws.Pt.Recovery
import Vock.Pt.DecoderChecked

/-!
# Arbitrary bytes are safe to decode

The instruction decoder reads no byte outside of the slice it is given (`decodeInsn_eq`), and the walk gives it a
slice of the text (`walkStep_eq`), whatever the text, its base, the address and the outcomes. With the extent of a
packet and the measures of the two loops, this is `decode_safe`.
-/

namespace Vock.Pt

open Library Checked StateTransition List

namespace Machine

variable {p rest : List U8} {len : Nat} {b : U8}

/-! ## The instruction decoder -/

theorem skipPrefixes_eq (n : Nat) (h : p.drop len = rest) :
    skipPrefixes p p.length n len = pure (len + ((rest.take n).takeWhile isPrefixByte).length) := by
  induction n generalizing len rest with
  | zero => rfl
  | succ n ih =>
    rw [skipPrefixes]
    cases rest with
    | nil =>
      rw [if_neg (Nat.not_lt.mpr (drop_eq_nil_iff.mp h))]
      rfl
    | cons b rest =>
      rw [if_pos (lt_of_drop h), get_of_drop h, pure_bind, take_succ_cons, takeWhile_cons]
      by_cases hb : isPrefixByte b = true
      · rw [if_pos hb, if_pos hb, ih (drop_succ_of_drop h), length_cons, Nat.add_assoc, Nat.add_comm 1]
      · rw [if_neg hb, if_neg hb]
        rfl

theorem rel8_eq (isCond : Bool) (h : p.drop len = rest) : rel8 p p.length len isCond = pure (Pt.rel8 len isCond rest) := by
  rw [rel8]
  cases rest with
  | nil =>
    rw [if_neg (Nat.not_lt.mpr (drop_eq_nil_iff.mp h))]
    rfl
  | cons b rest =>
    rw [if_pos (lt_of_drop h), get_of_drop h]
    rfl

theorem rel32_eq (isCond : Bool) (hlen : len ≤ p.length) (h : p.drop len = rest) :
    rel32 p p.length len isCond = pure (Pt.rel32 len isCond rest) := by
  have four : len + 4 ≤ p.length ↔ 4 ≤ rest.length := by
    rw [← h, length_drop]
    omega
  rw [rel32, Pt.rel32]
  by_cases hr : 4 ≤ rest.length
  · rw [if_pos (four.mpr hr)]
    obtain ⟨b₀, b₁, b₂, b₃, rest, rfl⟩ : ∃ b₀ b₁ b₂ b₃ tail, rest = b₀ :: b₁ :: b₂ :: b₃ :: tail := by
      match rest, hr with
      | b₀ :: b₁ :: b₂ :: b₃ :: tail, _ => exact ⟨b₀, b₁, b₂, b₃, tail, rfl⟩
    rw [get_of_drop h, get_add p len 1, get_add p len 2, get_add p len 3, h]
    rfl
  · rw [if_neg (fun h' => hr (four.mp h')), if_neg hr]

theorem decodeTwoByte_eq (h : p.drop len = b :: rest) :
    decodeTwoByte p p.length len = pure (Pt.decodeTwoByte (len + 1) b rest) := by
  have next := drop_succ_of_drop h
  rw [decodeTwoByte, get_of_drop h, pure_bind]
  unfold Pt.decodeTwoByte
  split
  · exact rel32_eq true (lt_of_drop h) next
  · split
    · rfl
    · cases rest with
      | nil =>
        rw [if_neg (Nat.not_lt.mpr (drop_eq_nil_iff.mp next))]
      | cons modrm rest =>
        rw [if_pos (lt_of_drop next), get_of_drop next, pure_bind]

theorem decodeOpcode_eq (h : p.drop len = b :: rest) :
    decodeOpcode p p.length len = pure (Pt.decodeOpcode (len + 1) b rest) := by
  have next := drop_succ_of_drop h
  rw [decodeOpcode, get_of_drop h, pure_bind]
  unfold Pt.decodeOpcode
  split
  · exact rel8_eq true next
  · split
    · exact rel8_eq false next
    · split
      · exact rel32_eq false (lt_of_drop h) next
      · split
        · rfl
        · cases rest with
          | nil =>
            have past : ¬ len + 1 < p.length := Nat.not_lt.mpr (drop_eq_nil_iff.mp next)
            simp [past]
          | cons byte rest =>
            simp only [lt_of_drop next, and_true, true_and]
            split
            · exact decodeTwoByte_eq next
            · split
              · rw [decodeGroupFf, get_of_drop next, pure_bind]
              · split
                · rw [get_of_drop next, pure_bind]
                · rfl

/-- No byte outside of the slice is read. -/
theorem decodeInsn_eq (p : List U8) : decodeInsn p p.length = pure (Pt.decodeInsn p) := by
  rw [decodeInsn, Pt.decodeInsn]
  by_cases hp : p = []
  · subst hp
    rfl
  · have pos : ¬ p.length < 1 := Nat.not_lt.mpr (length_pos_iff.mpr hp)
    rw [if_neg pos, if_neg hp, skipPrefixes_eq 15 drop_zero, pure_bind, Nat.zero_add]
    cases hd : p.drop ((p.take 15).takeWhile isPrefixByte).length with
    | nil =>
      rw [if_pos (drop_eq_nil_iff.mp hd)]
      dsimp only
      rw [hd]
    | cons op rest =>
      rw [if_neg (Nat.not_le.mpr (lt_of_drop hd)), decodeOpcode_eq hd]
      dsimp only
      rw [hd]

/-! ## The walk -/

theorem flowAt_eq (text : List U8) (base ip : U64) : flowAt text base ip = pure (Pt.flowAt text base ip) := by
  rw [flowAt, Pt.flowAt]
  by_cases inText : InText text base ip
  · have hle : base.toNat ≤ ip.toNat := inText.1
    have hoff : (ip - base).toNat = ip.toNat - base.toNat := BitVec.toNat_sub_of_le inText.1
    rw [if_pos inText, if_pos inText, sub_eq hle, pure_bind, hoff]
    generalize ip.toNat - base.toNat = off
    dsimp only
    by_cases past : text.length < off
    · rw [if_pos past, if_pos past]
    · rw [if_neg past, if_neg past, sub_eq (Nat.not_lt.mp past), pure_bind]
      by_cases short : text.length - off < 1
      · rw [if_pos short, if_pos short]
      · rw [if_neg short, if_neg short, window]
        generalize hmaxl : (if text.length - off > 15 then 15 else text.length - off) = maxl
        have within : maxl ≤ text.length - off := by
          rw [← hmaxl]
          split
          · omega
          · omega
        have code : ((text.drop off).take maxl).length = maxl := by
          rw [length_take, length_drop]
          omega
        have read := decodeInsn_eq ((text.drop off).take maxl)
        rw [code] at read
        rw [slice_eq (by omega) (by omega), pure_bind, Nat.add_sub_cancel_left, read, pure_bind]
  · rw [if_neg inText, if_neg inText]

/-- No round of the walk is stopped. -/
theorem walkStep_eq (d : PtDecoder) : walkStep d = Checked.of d.walkStep := by
  rw [walkStep, PtDecoder.walkStep]
  split
  · rw [flowAt_eq]
    cases Pt.flowAt d.text d.textVaddr d.ip with
    | leave | next ip | jump ip | cond taken fall => rfl
  · rfl

end Machine

/-! ## Progress -/

variable {data : List U8}

theorem scanPacket_extent {pos : Nat} {block : Option Nat} (ok : (scanPacket data pos block).Ok)
    (inside : pos < data.length) :
    1 ≤ (scanPacket data pos block).len ∧ pos + (scanPacket data pos block).len ≤ data.length := by
  obtain ⟨hpos, hle⟩ := scanAt_extent (data.drop pos) block ok
  rw [length_drop] at hle
  rw [scanPacket]
  exact ⟨hpos, by omega⟩

theorem tipStep_advances {s s' : TipState} (h : tipStep data s = some s')
    (bad : (scanPacket data s.pos s.block).pkt = .bad) (running : s'.stopped = false) : s.pos < s'.pos := by
  obtain ⟨-, -, rfl⟩ := tipStep_some h
  rw [bad] at running ⊢
  cases hf : findPsb data (s.pos + 1) with
  | none =>
    rw [packet_bad_lost _ hf] at running
    cases running
  | some next =>
    rw [packet_bad_found _ hf]
    exact (findPsb_spec hf).1

theorem packetStep_advances {d d' : PtDecoder} (h : d.packetStep = (.packet, d')) : d.pos < d'.pos := by
  rcases d.packetStep_cases with ⟨e, hdone, -⟩ | ⟨-, e, on, -, -, -, hpos⟩
  · rw [hdone] at h
    cases h
  · rw [h] at on
    obtain ⟨-, -, -, heq, -⟩ := on.frame
    exact Nat.lt_of_lt_of_eq hpos heq.symm

/-- **Arbitrary bytes are safe to decode.** Both decoders come to their end, the full one with no text; a packet is a
byte long at least and ends inside of the buffer; a decoder that goes on behind an undecodable packet does so further
along; and no round of a walk reads outside of the text, nor the instruction decoder outside of what it is given. -/
theorem decode_safe :
    (∀ data, tipDecode data ∈ eval (tipStep data) {}) ∧
    (∀ base data, (PtDecoder.new [] base data).run.Dom) ∧
    (∀ data pos block, pos < data.length → (scanPacket data pos block).Ok →
      1 ≤ (scanPacket data pos block).len ∧ pos + (scanPacket data pos block).len ≤ data.length) ∧
    (∀ data s s', tipStep data s = some s' → (scanPacket data s.pos s.block).pkt = .bad → s'.stopped = false →
      s.pos < s'.pos) ∧
    (∀ d d', pktAt d = .bad → d.packetStep = (.packet, d') → d.pos < d'.pos) ∧
    (∀ d, Machine.walkStep d = Checked.of d.walkStep) ∧
    ∀ code, Machine.decodeInsn code code.length = pure (decodeInsn code) := by
  refine ⟨fun data => tipRun_mem_eval data {}, fun base data => ?_, fun data pos block inside ok => ?_,
    fun data s s' h bad running => tipStep_advances h bad running, fun d d' _ h => packetStep_advances h,
    Machine.walkStep_eq, Machine.decodeInsn_eq⟩
  · obtain ⟨m, hm, -⟩ := run_without_text base data
    exact Part.dom_iff_mem.mpr ⟨m, hm⟩
  · exact scanPacket_extent ok inside

/-- A PSB, and the round that goes on behind damage. -/
theorem decode_safe_damaged :
    0 + (scanPacket psb 0 (some 4)).len ≤ psb.length ∧
      ∃ s', tipStep damaged atDamage = some s' ∧ s'.stopped = false ∧ 12 < s'.pos := by
  obtain ⟨-, -, extent, advances, -⟩ := decode_safe
  refine ⟨(extent psb 0 (some 4) (by decide) (by decide)).2, _, rfl, by decide, ?_⟩
  exact advances damaged atDamage _ rfl (by decide) (by decide)

end Vock.Pt
