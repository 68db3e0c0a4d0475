import Vock.Laws.Fuzz.Inflate
import Vock.Laws.Fuzz.Limit

/-!
# What inflate accepts

`inflate` reads valid streams, and more. It does not look at the complement of a stored block's
length; it takes code-length sets that ask for more words than there are, and sets that leave words
unused; it cuts repeat codes 17 and 18 that run past the end of the list; and it takes 287 and 288
literal codes. `Conforms` says of the
block a reader stands before that none of this is the case. An accepted input begins with a valid
stream that expands to the answer exactly if every block `inflate` gets to conforms
(`accepted_valid_iff`).
-/

namespace Vock.Fuzz

open Library Library.Deflate.Sets List

variable {br br' br₁ : BitReader} {limit pos : Nat} {out data : List U8} {l bits : List Bool} {b : Bool}
  {s : BitReader × List U8}

/-! ## Conforming blocks -/

/-- The lengths of a dynamic block: `head` is what was read before them and `br` stands at them. -/
structure LengthsConform (head : DynamicHead) (br : BitReader) : Prop where
  /-- No more literal codes than there are. -/
  literals : head.hlit ≤ 286
  /-- The code-length code is neither over-subscribed nor incomplete. -/
  codeLengths : Complete maxBits head.cl
  /-- Repeat codes 17 and 18 end with the list at the latest. -/
  zeros : ∀ s, Visits (lengthStep (Huffman.new head.cl))
    ⟨List.replicate (head.hlit + head.hdist) 0, 0, br⟩ s → ZerosFit (Huffman.new head.cl) s
  /-- Neither are the literal and the distance code, but that of the distances one code of one bit, or none, may be. -/
  codes : ∀ lengths br', readLengths (Huffman.new head.cl) (head.hlit + head.hdist) br = some (lengths, br') →
    Complete maxBits (lengths.take head.hlit) ∧ Deflate.Sets.Distances (lengths.drop head.hlit)

/-- The block the reader stands before keeps the rules `inflate` does not check. -/
structure Conforms (br : BitReader) : Prop where
  stored : ∀ last br₁ len nlen br₂, blockHead br = some (last, 0, br₁) →
    storedHead br₁ = some (len, nlen, br₂) → nlen = 2 ^ 16 - 1 - len
  dynamic : ∀ last br₁ head br₂, blockHead br = some (last, 2, br₁) →
    dynamicHead br₁ = some (head, br₂) → LengthsConform head br₂

/-- Valid blocks conform. -/
theorem conforms_of_block (h : Deflate.Block .complete (pos + 3) out bits data)
    (hbr : Holds br (b :: (bits ++ l))) (hpos : (pos + (b :: (bits ++ l)).length) % 8 = 0) :
    Conforms br := by
  cases h with
  | @stored pad data hpad hlen =>
    simp only [append_assoc] at hbr hpos
    obtain ⟨br₁, br₂, h₁, h₂, -⟩ := heads_of_stored hpad hlen (by omega) hbr hpos
    constructor
    · intro last br₁' len nlen br₂' hhead hstored
      cases h₁.symm.trans hhead
      cases h₂.symm.trans hstored
      rfl
    · intro last br₁' head br₂' hhead
      cases h₁.symm.trans hhead
  | fixed =>
    obtain ⟨br₁, h₁, -⟩ := blockHead_of_holds (by decide) hbr
    constructor
    · intro last br₁' len nlen br₂' hhead
      cases h₁.symm.trans hhead
    · intro last br₁' head br₂' hhead
      cases h₁.symm.trans hhead
  | dynamic header hcl hrun hlit hdist =>
    simp only [append_assoc] at hbr
    have fits := complete_le_fitting.codeLengths _ hcl
    obtain ⟨br₁, br₂, br₃, h₁, h₂, hbr₂, h₃, -⟩ := heads_of_dynamic header fits hrun hbr
    constructor
    · intro last br₁' len nlen br₂' hhead
      cases h₁.symm.trans hhead
    · intro last br₁' head br₂' hhead hdyn
      cases h₁.symm.trans hhead
      cases h₂.symm.trans hdyn
      refine ⟨header.literals_le, hcl, fun s hs => ?_, fun lengths br' hlengths => ?_⟩
      · exact zerosFit_of_lengthRun (codeLengths_le header) fits hrun hbr₂ hs
      · cases h₃.symm.trans hlengths
        exact ⟨hlit, hdist⟩

/-- A conforming block that was read is valid. -/
theorem block_of_blockBody {last t : Nat} (conforms : Conforms br) (hbr : Holds br l)
    (hpos : (pos + l.length) % 8 = 0) (hhead : blockHead br = some (last, t, br₁))
    (hbody : blockBody limit t (br₁, out) = some (br', data)) :
    ∃ b bits l', last = b.toNat ∧ l = b :: (bits ++ l') ∧ Deflate.Block .complete (pos + 3) out bits data ∧
      Holds br' l' := by
  obtain ⟨b, l₁, rfl, rfl, hbr₁⟩ := holds_of_blockHead hbr hhead
  match t with
  | 0 =>
    obtain ⟨⟨len, nlen, br₂⟩, hstored, hbytes⟩ := Option.bind_eq_some_iff.mp hbody
    have complement := conforms.stored _ _ _ _ _ hhead hstored
    have here := hbr₁.cnt_eq_padding hpos
    obtain ⟨pad, l₂, hpad, hlen, rfl, hbr₂⟩ := holds_of_storedHead hbr₁ hstored
    obtain ⟨bytes, l₃, rfl, rfl, rfl, hbr₃⟩ := bytes_of_storedBytes hbr₂ hbytes
    subst complement
    refine ⟨b, _, l₃, rfl, ?_, .stored (hpad.trans here) hlen, hbr₃⟩
    simp
  | 1 =>
    obtain ⟨bits, l₂, rfl, hcoded, hbr₂⟩ := coded_of_inflateBlock fixed_lengths hbr₁ hbody
    rw [fixedLit_eq, coded_fixedDist] at hcoded
    exact ⟨b, _, l₂, rfl, by rw [append_assoc], .fixed hcoded, hbr₂⟩
  | 2 =>
    obtain ⟨⟨head, br₂⟩, hdyn, hbody⟩ := Option.bind_eq_some_iff.mp hbody
    obtain ⟨⟨lengths, br₃⟩, hlengths, hblock⟩ := Option.bind_eq_some_iff.mp hbody
    have rules := conforms.dynamic _ _ _ _ hhead hdyn
    obtain ⟨hlit, hdist⟩ := rules.codes lengths br₃ hlengths
    obtain ⟨header, l₂, rfl, rfl, hbr₂⟩ := header_of_dynamicHead hbr₁ hdyn rules.literals
    obtain ⟨run, l₃, rfl, hrun, hbr₃⟩ :=
      lengthRun_of_readLengths (codeLengths_le header) hbr₂ rules.zeros hlengths
    obtain ⟨bits, l₄, rfl, hcoded, hbr₄⟩ := coded_of_inflateBlock (dynamic_lengths hrun) hbr₃ hblock
    refine ⟨b, _, l₄, rfl, ?_, .dynamic header rules.codeLengths hrun hlit hdist hcoded, hbr₄⟩
    simp
  | _ + 3 => cases hbody

/-! ## Runs -/

/-- Every block `inflate` gets to on valid blocks conforms. -/
theorem conforms_of_blocks (h : Deflate.Blocks .complete pos out bits data)
    (hbr : Holds br (bits ++ l)) (hpos : (pos + (bits ++ l).length) % 8 = 0)
    (room : data.length ≤ limit) (hs : Visits (inflateStep limit) (br, out) s) : Conforms s.1 := by
  induction h generalizing br with
  | final hblock =>
    obtain ⟨br', hstep, -⟩ := inflateStep_of_block (hblock.mono complete_le_fitting) hbr hpos room
    rcases hs.cases_head with rfl | ⟨t, hstep', -⟩
    · exact conforms_of_block hblock hbr hpos
    · cases hstep.symm.trans hstep'
  | more hblock hrest ih =>
    rw [cons_append, append_assoc] at hbr hpos
    obtain ⟨br', hstep, hbr'⟩ :=
      inflateStep_of_block (hblock.mono complete_le_fitting) hbr hpos (Nat.le_trans hrest.length_le room)
    rcases hs.cases_head with rfl | ⟨t, hstep', hvisits⟩
    · exact conforms_of_block hblock hbr hpos
    · cases hstep.symm.trans hstep'
      refine ih hbr' ?_ room hvisits
      simp only [length_cons, length_append] at hpos ⊢
      omega

/-- What was read from blocks that all conform is a sequence of valid blocks. -/
theorem blocks_of_ends (h : Ends (inflateStep limit) s data)
    (conforms : ∀ t, Visits (inflateStep limit) s t → Conforms t.1) (hbr : Holds s.1 l)
    (hpos : (pos + l.length) % 8 = 0) :
    ∃ bits l', l = bits ++ l' ∧ Deflate.Blocks .complete pos s.2 bits data := by
  induction h generalizing l pos with
  | leave hstep =>
    obtain ⟨last, t, br₁, r, hhead, hbody, hx⟩ := inflateStep_eq_some_iff.mp hstep
    obtain ⟨b, bits, l', rfl, rfl, hblock, -⟩ :=
      block_of_blockBody (conforms _ .refl) hbr hpos hhead hbody
    cases b with
    | false => cases hx
    | true =>
      cases hx
      exact ⟨true :: bits, l', rfl, .final hblock⟩
  | goOn hstep _ ih =>
    obtain ⟨last, t, br₁, r, hhead, hbody, hx⟩ := inflateStep_eq_some_iff.mp hstep
    obtain ⟨b, bits, l', rfl, rfl, hblock, hbr'⟩ :=
      block_of_blockBody (conforms _ .refl) hbr hpos hhead hbody
    cases b with
    | true => cases hx
    | false =>
      cases hx
      have next : (pos + 1 + bits.length + l'.length) % 8 = 0 := by
        simp only [length_cons, length_append] at hpos
        omega
      obtain ⟨rest, l'', rfl, hblocks⟩ := ih (fun t ht => conforms t (.head hstep ht)) hbr' next
      exact ⟨false :: (bits ++ rest), l'', by rw [cons_append, append_assoc],
        .more hblock hblocks⟩

/-! ## Acceptance -/

/-- The blocks `inflate` gets to on `data` all conform. -/
def AllConform (data : List U8) (limit : Nat) : Prop :=
  ∀ s, Visits (inflateStep limit) (BitReader.new data, []) s → Conforms s.1

theorem allConform_of_stream {stream : List U8} (hp : stream <+: data)
    (h : Deflate.Stream .complete stream out) (room : out.length ≤ limit) : AllConform data limit := by
  obtain ⟨trailing, rfl⟩ := hp
  obtain ⟨bits, l, hblocks, start, whole⟩ := blocks_at_start h trailing
  exact fun s hs => conforms_of_blocks hblocks start whole room hs

theorem stream_of_allConform (h : inflate data limit = some out) (conform : AllConform data limit) :
    ∃ stream, stream <+: data ∧ Deflate.Stream .complete stream out := by
  obtain ⟨bits, l, hbits, hblocks⟩ := blocks_of_ends (inflate_eq_some_iff.mp h) conform
    (holds_new data) (length_bytesBits_mod data)
  obtain ⟨stream, pad, hp, hstream, hpad⟩ := exists_bytes_cover hbits
  exact ⟨stream, hp, bits, pad, hblocks, hstream, hpad⟩

/-- What `inflate` accepts begins with a valid stream that expands to the answer, exactly if every
block it gets to conforms. -/
theorem accepted_valid_iff (data : List U8) (limit : Nat) :
    (∀ out, inflate data limit = some out → ∃ stream, stream <+: data ∧ Deflate.Stream .complete stream out) ↔
      (∀ out, inflate data limit = some out → AllConform data limit) := by
  constructor
  · intro valid out h
    obtain ⟨stream, hp, hstream⟩ := valid out h
    exact allConform_of_stream hp hstream (inflate_within h)
  · intro conform out h
    exact stream_of_allConform h (conform out h)

/-- A stored block of no bytes whose complement is wrong. -/
theorem wrong_complement_accepted :
    inflate [0x01#8, 0x00#8, 0x00#8, 0x00#8, 0x00#8] 16 = some [] ∧
      ¬ ∃ stream, stream <+: [0x01#8, 0x00#8, 0x00#8, 0x00#8, 0x00#8] ∧ Deflate.Stream .complete stream [] := by
  refine ⟨by decide, ?_⟩
  rintro ⟨stream, hp, hstream⟩
  have conform : AllConform _ 16 := allConform_of_stream hp hstream (by decide)
  have head : blockHead (BitReader.new [0x01#8, 0x00#8, 0x00#8, 0x00#8, 0x00#8]) =
      some (1, 0, ⟨[0x00#8, 0x00#8, 0x00#8, 0x00#8], 0#32, 5⟩) := by decide
  have lengths : storedHead ⟨[0x00#8, 0x00#8, 0x00#8, 0x00#8], 0#32, 5⟩ =
      some (0, 0, ⟨[], 0#32, 0⟩) := by decide
  cases (conform _ .refl).stored _ _ _ _ _ head lengths

end Vock.Fuzz
