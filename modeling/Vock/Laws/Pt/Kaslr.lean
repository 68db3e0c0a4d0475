import Vock.Laws.Pt.Run

/-!
# The KASLR correction

`corrected` is the text base the head of `walk_tnt` leaves, and `Moves` says exactly when it is
another one: a kernel IP outside the text, at least 2 MiB and less than 2 GiB above the base. It
rounds the distance down to 2 MiB. So it finds the slide of an IP less than 2 MiB into the text and
no other (`finds_slide_iff`), and it has no memory of having run: the base stays after the first
move exactly when no later walk starts at an IP that moves it (`moves_once_iff`).
-/

namespace Vock.Pt

open Library StateTransition PtDecoder

variable {base ip : U64} {d : PtDecoder} {text : List U8}

/-! ## When the base moves -/

/-- The distance of an address above a base. -/
def above (base ip : U64) : Nat := (ip - base).toNat

/-- The correction takes place. -/
structure Moves (text : List U8) (base ip : U64) : Prop where
  kernel : kernelBase ≤ ip
  loaded : text ≠ []
  outside : ip < base ∨ textEnd text base ≤ ip
  far : 2 ^ 21 ≤ above base ip
  near : above base ip < 2 ^ 31

theorem above_of_le (h : base ≤ ip) : above base ip = ip.toNat - base.toNat :=
  BitVec.toNat_sub_of_le h

theorem toNat_round (x : U64) : ((x >>> 21) <<< 21).toNat = x.toNat / 2 ^ 21 * 2 ^ 21 := by
  rw [BitVec.toNat_shiftLeft, BitVec.toNat_ushiftRight]
  omega

theorem round_in_range (x : U64) :
    (0#64 < (x >>> 21) <<< 21 ∧ (x >>> 21) <<< 21 < 0x80000000#64) ↔
      2 ^ 21 ≤ x.toNat ∧ x.toNat < 2 ^ 31 := by
  rw [BitVec.lt_def, BitVec.lt_def, toNat_round]
  have hzero : (0#64).toNat = 0 := rfl
  have hlimit : (0x80000000#64).toNat = 2 ^ 31 := rfl
  omega

/-- Where the correction takes place, it adds the distance rounded down to 2 MiB. -/
theorem correctKaslr_of_moves (h : Moves d.text d.textVaddr d.ip) :
    d.correctKaslr.textVaddr.toNat =
      (d.textVaddr.toNat + above d.textVaddr d.ip / 2 ^ 21 * 2 ^ 21) % 2 ^ 64 := by
  have hne : d.ip ≠ 0#64 := by
    intro hzero
    have hk := h.kernel
    rw [hzero] at hk
    exact absurd hk (by decide)
  have hrange := (round_in_range (d.ip - d.textVaddr)).mpr ⟨h.far, h.near⟩
  rw [correctKaslr, if_pos ⟨h.kernel, hne, h.loaded⟩, if_pos h.outside]
  rw [if_pos hrange, BitVec.toNat_add, toNat_round]
  rfl

/-- Elsewhere nothing changes. -/
theorem correctKaslr_of_not_moves (h : ¬ Moves d.text d.textVaddr d.ip) : d.correctKaslr = d := by
  unfold correctKaslr
  split
  · rename_i hkernel
    split
    · rename_i houtside
      dsimp only
      split
      · rename_i hrange
        obtain ⟨hfar, hnear⟩ := (round_in_range _).mp hrange
        exact absurd ⟨hkernel.1, hkernel.2.2, houtside, hfar, hnear⟩ h
      · rfl
    · rfl
  · rfl

theorem not_moves_of_inText (inside : InText text base ip) : ¬ Moves text base ip := by
  intro hmoves
  rcases hmoves.outside with h | h
  · exact absurd inside.1 (BitVec.not_le.mpr h)
  · exact absurd inside.2 (BitVec.not_lt.mpr h)

/-- An address that moves the base lies above it: a kernel address below the base is too far off
when the difference wraps around. -/
theorem Moves.le (h : Moves text base ip) : base ≤ ip := by
  rw [← BitVec.not_lt]
  intro hlt
  have hk := h.kernel
  have hnear := h.near
  rw [above, BitVec.toNat_sub] at hnear
  rw [BitVec.le_def] at hk
  rw [BitVec.lt_def] at hlt
  have hbase : kernelBase.toNat = 0xffff000000000000 := rfl
  omega

/-- So the moved base lies between the base and the address, at least 2 MiB up. -/
theorem correctKaslr_bounds (h : Moves d.text d.textVaddr d.ip) :
    d.textVaddr.toNat + 2 ^ 21 ≤ d.correctKaslr.textVaddr.toNat ∧
      d.correctKaslr.textVaddr.toNat ≤ d.ip.toNat := by
  have hfar := h.far
  rw [correctKaslr_of_moves h]
  rw [above_of_le h.le] at hfar ⊢
  omega

theorem correctKaslr_ne_iff (d : PtDecoder) :
    d.correctKaslr.textVaddr ≠ d.textVaddr ↔ Moves d.text d.textVaddr d.ip := by
  constructor
  · intro hne
    by_contra hstay
    exact hne (congrArg PtDecoder.textVaddr (correctKaslr_of_not_moves hstay))
  · intro hmoves heq
    have hbounds := (correctKaslr_bounds hmoves).1
    rw [heq] at hbounds
    omega

/-! ## The slide -/

/-- **What slide is found.** A text linked at `v` runs slid up by a positive multiple of 2 MiB
below 2 GiB, all of it in the kernel range. A walk that starts at an IP of the slid text outside
the unslid one has the slid base, at any point of the walk, exactly when that IP is less than
2 MiB into the text. -/
theorem finds_slide_iff (d : PtDecoder) (slide : Nat) (aligned : slide % 2 ^ 21 = 0)
    (positive : 0 < slide) (small : slide < 2 ^ 31) (kernel : kernelBase ≤ d.textVaddr)
    (fits : d.textVaddr.toNat + slide + d.text.length ≤ 2 ^ 64)
    (low : d.textVaddr.toNat + slide ≤ d.ip.toNat)
    (high : d.ip.toNat < d.textVaddr.toNat + slide + d.text.length)
    (outside : ¬ InText d.text d.textVaddr d.ip) :
    ∀ e, Reaches walkStep d.correctKaslr e →
      (e.textVaddr.toNat = d.textVaddr.toNat + slide ↔
        d.ip.toNat - (d.textVaddr.toNat + slide) < 2 ^ 21) := by
  intro e he
  have hle : d.textVaddr ≤ d.ip := by rw [BitVec.le_def]; omega
  have hkernel : kernelBase ≤ d.ip := BitVec.le_trans kernel hle
  have hloaded : d.text ≠ [] := by
    intro hnil
    rw [hnil, List.length_nil] at high
    omega
  have hout : textEnd d.text d.textVaddr ≤ d.ip := by
    rw [InText, not_and, BitVec.not_lt] at outside
    exact outside hle
  have habove := above_of_le hle
  rw [(walk_frame he).textVaddr]
  by_cases hnear : above d.textVaddr d.ip < 2 ^ 31
  · have hmoves : Moves d.text d.textVaddr d.ip :=
      ⟨hkernel, hloaded, .inr hout, by omega, hnear⟩
    rw [correctKaslr_of_moves hmoves]
    omega
  · have hstay : ¬ Moves d.text d.textVaddr d.ip := fun h => hnear h.near
    rw [correctKaslr_of_not_moves hstay]
    omega

/-- One instruction, slid by 2 MiB, with the IP at it. -/
def slidStart : PtDecoder :=
  { text := [0x90#8], textVaddr := 0xffffffff81000000#64, trace := [], ip := 0xffffffff81200000#64 }

theorem finds_slide_at_start :
    ¬ InText slidStart.text slidStart.textVaddr slidStart.ip ∧
      (slidStart.correctKaslr.textVaddr.toNat = slidStart.textVaddr.toNat + 2 ^ 21 ↔
        slidStart.ip.toNat - (slidStart.textVaddr.toNat + 2 ^ 21) < 2 ^ 21) :=
  ⟨by decide, finds_slide_iff slidStart (2 ^ 21) (by decide) (by decide) (by decide) (by decide)
    (by decide) (by decide) (by decide) (by decide) slidStart.correctKaslr .refl⟩

/-- A text of 4 MiB, slid by 2 MiB, with the IP 2 MiB into it. -/
def slidMiddle : PtDecoder :=
  { text := List.replicate 0x400000 0x90#8, textVaddr := 0xffffffff81000000#64, trace := [],
    ip := 0xffffffff81400000#64 }

/-- The base becomes the IP itself, 2 MiB above the slid one. -/
theorem slide_overshot :
    slidMiddle.textVaddr.toNat + 2 ^ 21 ≤ slidMiddle.ip.toNat ∧
      slidMiddle.ip.toNat < slidMiddle.textVaddr.toNat + 2 ^ 21 + slidMiddle.text.length ∧
      ¬ InText slidMiddle.text slidMiddle.textVaddr slidMiddle.ip ∧
      ∀ e, Reaches walkStep slidMiddle.correctKaslr e →
        e.textVaddr.toNat = slidMiddle.textVaddr.toNat + 2 ^ 21 + 2 ^ 21 := by
  have hlen : slidMiddle.text.length = 0x400000 := List.length_replicate
  have hend : textEnd slidMiddle.text slidMiddle.textVaddr = 0xffffffff81400000#64 := by
    rw [textEnd, hlen]
    rfl
  have hmoves : Moves slidMiddle.text slidMiddle.textVaddr slidMiddle.ip := by
    refine ⟨by decide, ?_, .inr ?_, by decide, by decide⟩
    · exact List.ne_nil_of_length_pos (by rw [hlen]; decide)
    · rw [hend]
      decide
  refine ⟨by decide, ?_, ?_, ?_⟩
  · rw [hlen]
    decide
  · rw [InText, hend]
    decide
  · intro e he
    rw [(walk_frame he).textVaddr, correctKaslr_of_moves hmoves]
    rfl

/-! ## One shot -/

/-- The base after `i` rounds of a run. -/
def baseAt (text : List U8) (base : U64) (trace : List U8) (i : Nat) : U64 :=
  (exec step i (new text base trace).start).2.textVaddr

/-- Round `i` changes the base. -/
def ChangesAt (text : List U8) (base : U64) (trace : List U8) (i : Nat) : Prop :=
  baseAt text base trace (i + 1) ≠ baseAt text base trace i

instance (text : List U8) (base : U64) (trace : List U8) (i : Nat) :
    Decidable (ChangesAt text base trace i) :=
  inferInstanceAs (Decidable (_ ≠ _))

/-- Round `i` enters a walk at `ip`. -/
def WalksFrom (text : List U8) (base : U64) (trace : List U8) (i : Nat) (ip : U64) : Prop :=
  ∃ d w, exec step i (new text base trace).start = (.packet, d) ∧ d.packetStep = (.walk, w) ∧
    w.ip = ip

/-- A round of the run changes the base only where it enters a walk at an address that moves it. -/
theorem step_base_ne_iff {m m' : Point × PtDecoder} (hstep : step m = some m') :
    m'.2.textVaddr ≠ m.2.textVaddr ↔
      ∃ d w, m = (.packet, d) ∧ d.packetStep = (.walk, w) ∧ Moves d.text d.textVaddr w.ip := by
  obtain ⟨point, d⟩ := m
  cases point with
  | packet =>
    obtain rfl : d.packetStep = m' := Option.some.inj hstep
    have elsewhere : d.packetStep.1 ≠ .walk → d.packetStep.2.textVaddr = d.textVaddr →
        (d.packetStep.2.textVaddr ≠ d.textVaddr ↔ ∃ d' w, (Point.packet, d) = (.packet, d') ∧
          d'.packetStep = (.walk, w) ∧ Moves d'.text d'.textVaddr w.ip) := by
      intro notWalk hsame
      refine ⟨fun hne => absurd hsame hne, ?_⟩
      rintro ⟨d', w, hd, hw, -⟩
      cases hd
      rw [hw] at notWalk
      exact absurd rfl notWalk
    rcases packetStep_cases d with ⟨e, hnext, -, hbase⟩ | ⟨-, e, hnext | ⟨hnext, -, -⟩, htext, hbase, -⟩
    · exact elsewhere (by rw [hnext]; exact Point.noConfusion) (by rw [hnext]; exact hbase)
    · exact elsewhere (by rw [hnext]; exact Point.noConfusion) (by rw [hnext]; exact hbase)
    · have hmoves := correctKaslr_ne_iff e
      rw [hbase, htext, ← (correctKaslr_frame e).2.2.2.2.1] at hmoves
      constructor
      · intro hne
        rw [hnext] at hne
        exact ⟨d, _, rfl, hnext, hmoves.mp hne⟩
      · rintro ⟨d', w, hd, hw, hm⟩
        cases hd
        rw [hnext] at hw ⊢
        cases hw
        exact hmoves.mpr hm
  | walk =>
    refine ⟨fun hne => absurd ?_ hne, ?_⟩
    · cases hw : d.walkStep with
      | none =>
        rw [step_walk_none hw] at hstep
        cases hstep
        rfl
      | some e =>
        rw [step_walk_some hw] at hstep
        cases hstep
        exact (walkStep_frame hw).textVaddr
    · rintro ⟨d', w, hd, -⟩
      cases hd
  | done => cases hstep

/-- In a run: round `i` changes the base where it enters a walk at an address that moves it. -/
theorem changesAt_iff (text : List U8) (base : U64) (trace : List U8) (i : Nat) :
    ChangesAt text base trace i ↔
      ∃ ip, WalksFrom text base trace i ip ∧ Moves text (baseAt text base trace i) ip := by
  have htext : (exec step i (new text base trace).start).2.text = text :=
    reaches_text (reaches_exec step i _)
  unfold ChangesAt WalksFrom baseAt
  rw [exec_succ]
  generalize exec step i (new text base trace).start = m at htext ⊢
  cases hs : step m with
  | none =>
    refine ⟨fun hne => absurd rfl hne, ?_⟩
    rintro ⟨ip, ⟨d, w, rfl, -⟩, -⟩
    cases hs
  | some m' =>
    rw [Option.getD_some, step_base_ne_iff hs]
    constructor
    · rintro ⟨d, w, rfl, hw, hmoves⟩
      exact ⟨w.ip, ⟨d, w, rfl, hw, rfl⟩, htext ▸ hmoves⟩
    · rintro ⟨ip, ⟨d, w, rfl, hw, rfl⟩, hmoves⟩
      exact ⟨d, w, rfl, hw, htext.symm ▸ hmoves⟩

/-- **How often the base moves.** Over every run, for every text, base and trace: the base changes
at most once exactly when, after a change, no walk starts at an address that moves it again. -/
theorem moves_once_iff (text : List U8) (base : U64) (trace : List U8) :
    (∀ i j, i < j → ChangesAt text base trace i → ¬ ChangesAt text base trace j) ↔
      ∀ i j, i < j → ChangesAt text base trace i → ∀ ip, WalksFrom text base trace j ip →
        ¬ Moves text (baseAt text base trace j) ip := by
  refine forall_congr' fun i => forall_congr' fun j => forall_congr' fun _ => forall_congr' fun _ => ?_
  rw [changesAt_iff, not_exists]
  exact forall_congr' fun ip => not_and

/-- One pending outcome, then TIPs 2 MiB and 6 MiB above the base. -/
def twoTips : List U8 :=
  0x06#8 :: 0xcd#8 :: leBytes 8 0xffffffff81200000#64 ++
    0xcd#8 :: leBytes 8 0xffffffff81600000#64

/-- Over a text of one return instruction the base moves at the first TIP and again at the second. -/
theorem base_moves_twice :
    ChangesAt [0xc3#8] 0xffffffff81000000#64 twoTips 1 ∧
      ChangesAt [0xc3#8] 0xffffffff81000000#64 twoTips 3 := by
  decide

end Vock.Pt
