import Mathlib.Order.Bounds.Basic
import Vock.Laws.Pt.Agree

/-!
# Recovery after damage

An undecodable packet makes a decoder forget all that it holds and go on at the next PSB (`findPsb_eq_some_iff`: the
first one behind). From there on it does what it does with the bytes from the PSB alone (`recovers`); with no PSB
behind, it is over.

The full decoder is compared with no text only. Not established: that a PSB found was written as one, and does not stand
in the payload of a lost packet.
-/

namespace Vock.Pt

open Library StateTransition PtDecoder List

variable {data : List U8} {start q : Nat}

/-! ## The next PSB -/

/-- The 16-byte pattern starts at `q`. -/
def PsbAt (data : List U8) (q : Nat) : Prop := psb <+: data.drop q

instance (data : List U8) (q : Nat) : Decidable (PsbAt data q) := by unfold PsbAt; infer_instance

theorem psbAt_iff : PsbAt data q ↔ (data.drop q).take psb.length = psb := by
  rw [PsbAt, prefix_iff_eq_take]
  exact eq_comm

theorem PsbAt.inside (h : PsbAt data q) : q + psb.length ≤ data.length := by
  have hle := h.length_le
  rw [length_drop] at hle
  have pos : 0 < psb.length := Nat.zero_lt_succ _
  omega

theorem findPsb_eq_some_iff : findPsb data start = some q ↔ IsLeast {i | start ≤ i ∧ PsbAt data i} q := by
  constructor
  · intro h
    obtain ⟨hge, -, hpsb⟩ := findPsb_spec h
    refine ⟨⟨hge, psbAt_iff.mpr hpsb⟩, fun i ⟨hi, hpsb'⟩ => ?_⟩
    have inside := hpsb'.inside
    unfold findPsb at h
    rw [if_neg (by omega)] at h
    obtain ⟨-, hmem, hfirst⟩ := find?_range'_eq_some.mp h
    apply Nat.le_of_not_lt
    intro hlt
    have hnot := hfirst i (by omega) hlt
    rw [psbAt_iff.mp hpsb'] at hnot
    simp at hnot
  · rintro ⟨⟨hge, hpsb⟩, hleast⟩
    have inside := hpsb.inside
    unfold findPsb
    rw [if_neg (by omega)]
    refine find?_range'_eq_some.mpr ⟨decide_eq_true (psbAt_iff.mp hpsb), ?_, fun i hi hlt => ?_⟩
    · rw [mem_range'_1]
      omega
    · rw [Bool.not_eq_true', decide_eq_false_iff_not]
      intro hpsb'
      have := hleast ⟨by omega, psbAt_iff.mpr hpsb'⟩
      omega

theorem findPsb_eq_none_iff : findPsb data start = none ↔ ∀ i, start ≤ i → ¬ PsbAt data i := by
  constructor
  · intro h i hi hpsb
    have found : ∃ i, start ≤ i ∧ PsbAt data i := ⟨i, hi, hpsb⟩
    classical
    have hleast : IsLeast {i | start ≤ i ∧ PsbAt data i} (Nat.find found) :=
      ⟨Nat.find_spec found, fun j hj => Nat.find_min' found hj⟩
    rw [findPsb_eq_some_iff.mpr hleast] at h
    cases h
  · intro h
    cases hf : findPsb data start with
    | none => rfl
    | some i =>
      obtain ⟨⟨hge, hpsb⟩, -⟩ := findPsb_eq_some_iff.mp hf
      exact absurd hpsb (h i hge)

/-! ## What follows an undecodable packet -/

/-- The TIP-only decode, at an undecodable packet. -/
structure AtBad (data : List U8) (p : Nat) (s : TipState) : Prop where
  reached : Reaches (tipStep data) {} s
  running : s.stopped = false
  pos : s.pos = p
  inside : p < data.length
  bad : (scanPacket data p s.block).pkt = .bad

variable {p : Nat} {s : TipState}

theorem AtBad.step (h : AtBad data p s) :
    tipStep data s = some (s.packet data .bad (scanPacket data s.pos s.block).len) := by
  rw [tipStep_of_live h.running (h.pos ▸ h.inside), h.pos, h.bad]

theorem AtBad.found (h : AtBad data p s) (hq : IsLeast {i | p < i ∧ PsbAt data i} q) :
    tipOnlyDecode data = s.out ++ tipOnlyDecode (data.drop q) := by
  have hf : findPsb data (s.pos + 1) = some q := by
    rw [h.pos]
    exact findPsb_eq_some_iff.mpr hq
  have hstep := h.step
  rw [packet_bad_found _ hf] at hstep
  have hle : q ≤ data.length := by have := hq.1.2.inside; omega
  -- at the PSB the decode stands as at the start of the bytes from there on
  have together : Follows (data.take q) s.out [] {}
      { s with lastIp := 0#64, block := none, pos := q,
               stats := { s.stats with badPackets := s.stats.badPackets + 1, resyncs := s.stats.resyncs + 1 } } :=
    ⟨by rw [length_take, Nat.min_eq_left hle]; rfl, rfl, .inl rfl, h.running, [], (append_nil _).symm, rfl⟩
  obtain ⟨w, hw, hw'⟩ := (tip_follows (data.drop q) together).out
  rw [take_append_drop, ← tipRun_of_reaches (h.reached.tail hstep)] at hw
  calc tipOnlyDecode data = s.out ++ w := hw
    _ = s.out ++ tipOnlyDecode (data.drop q) := congrArg (s.out ++ ·) hw'.symm

theorem AtBad.lost (h : AtBad data p s) (hq : ∀ i, p < i → ¬ PsbAt data i) : tipOnlyDecode data = s.out := by
  have hf : findPsb data (s.pos + 1) = none := by
    rw [h.pos]
    exact findPsb_eq_none_iff.mpr hq
  have hstep := h.step
  rw [packet_bad_lost _ hf] at hstep
  have hruns := tipRun_of_reaches (h.reached.tail hstep)
  have hend : ∀ t : TipState, t.stopped = true → tipStep data t = none := fun t ht => by rw [tipStep, if_pos (.inl ht)]
  have hout := congrArg TipState.out (hruns.trans (tipRun_of_end (hend _ rfl)))
  exact hout

/-- The full decoder with no text, at an undecodable packet. -/
structure FullAtBad (base : U64) (data : List U8) (p : Nat) (d : PtDecoder) : Prop where
  reached : Reaches PtDecoder.step (new [] base data).start (.packet, d)
  pos : d.pos = p
  inside : p < data.length
  bad : (scanPacket data p d.block).pkt = .bad

variable {base : U64} {d : PtDecoder}

/-- Beside it stands the TIP-only decode, with the same behind it. -/
theorem FullAtBad.tip (h : FullAtBad base data p d) : ∃ s, AtBad data p s ∧ d.out = atPacket s.out := by
  obtain ⟨s, hs⟩ := withoutText_of_reaches h.reached
  obtain ⟨hpos, hblock, running⟩ := hs.abreast.inStep Point.noConfusion
  refine ⟨s, ⟨hs.abreast.reached, running, hpos.symm.trans h.pos, h.inside, ?_⟩, hs.out⟩
  rw [← hblock]
  exact h.bad

/-- What the full decoder emits with no text. -/
def fullDecode (base : U64) (data : List U8) : Part (List Emit) := (new [] base data).run.map (·.2.out)

theorem fullDecode_eq (base : U64) (data : List U8) :
    fullDecode base data = Part.some (atPacket (tipOnlyDecode data)) := by
  obtain ⟨m, hm, hout⟩ := run_without_text base data
  apply Part.eq_some_iff.mpr
  rw [fullDecode, Part.mem_map_iff]
  exact ⟨m, hm, hout⟩

/-- **Recovery is clean.** From an undecodable packet on, a decoder emits what it emits for the bytes from the next
PSB on, decoded alone; and nothing if there is none. -/
theorem recovers (data : List U8) (p : Nat) :
    (∀ s, AtBad data p s →
      (∀ q, IsLeast {i | p < i ∧ PsbAt data i} q → tipOnlyDecode data = s.out ++ tipOnlyDecode (data.drop q)) ∧
      ((∀ i, p < i → ¬ PsbAt data i) → tipOnlyDecode data = s.out)) ∧
    ∀ base d, FullAtBad base data p d →
      (∀ q, IsLeast {i | p < i ∧ PsbAt data i} q →
        fullDecode base data = (fullDecode base (data.drop q)).map (d.out ++ ·)) ∧
      ((∀ i, p < i → ¬ PsbAt data i) → fullDecode base data = Part.some d.out) := by
  refine ⟨fun s h => ⟨fun q => h.found, h.lost⟩, fun base d h => ?_⟩
  obtain ⟨s, hs, hout⟩ := h.tip
  refine ⟨fun q hq => ?_, fun hq => ?_⟩
  · rw [fullDecode_eq, fullDecode_eq, hs.found hq, hout, atPacket, map_append]
    rfl
  · rw [fullDecode_eq, hs.lost hq, hout]

/-- A full address, the start of a block, a reserved code, a pad, a PSB and another full address. -/
def damaged : List U8 :=
  0xcd#8 :: leBytes 8 0xffffffff81000010#64 ++ [0x02#8, extBbp, 0x80#8] ++ [0xad#8, 0x00#8] ++ psb ++
    0xcd#8 :: leBytes 8 0xffffffff81001234#64

/-- The TIP-only decode behind the block's start: an address is emitted, and the block is open. -/
def atDamage : TipState :=
  { lastIp := 0xffffffff81000010#64, pos := 12, block := some 8, out := [0xffffffff81000010#64] }

/-- The full decoder there. -/
def fullAtDamage : PtDecoder := (exec step 2 (new [] 0#64 damaged).start).2

theorem recovers_damaged :
    AtBad damaged 12 atDamage ∧
      tipOnlyDecode damaged = 0xffffffff81000010#64 :: tipOnlyDecode (damaged.drop 14) ∧
      FullAtBad 0#64 damaged 12 fullAtDamage ∧ fullAtDamage.block = some 8 ∧
      fullDecode 0#64 damaged =
        (fullDecode 0#64 (damaged.drop 14)).map (atPacket [0xffffffff81000010#64] ++ ·) := by
  have hruns : exec (tipStep damaged) 2 {} = atDamage := by decide
  have atBad : AtBad damaged 12 atDamage :=
    ⟨hruns ▸ reaches_exec (tipStep damaged) 2 {}, rfl, rfl, by decide, by decide⟩
  have fullAtBad : FullAtBad 0#64 damaged 12 fullAtDamage :=
    ⟨reaches_exec step 2 (new [] 0#64 damaged).start, by decide, by decide, by decide⟩
  have next : IsLeast {i | 12 < i ∧ PsbAt damaged i} 14 := by
    refine ⟨⟨by decide, by decide⟩, fun i ⟨hpos, hpsb⟩ => ?_⟩
    apply Nat.le_of_not_lt
    intro hlt
    obtain rfl : i = 13 := by omega
    revert hpsb
    decide
  have tip := ((recovers damaged 12).1 _ atBad).1 14 next
  have full := ((recovers damaged 12).2 _ _ fullAtBad).1 14 next
  exact ⟨atBad, tip, fullAtBad, by decide, full⟩

end Vock.Pt
