import Vock.Laws.Fuzz.Loops
import Vock.Library.Deflate

/-!
# Compressed data

`inflate_block` against the compressed data of the format. Under code lengths that fit, it reads
`Coded` data to their end (`inflateBlock_of_coded`); and under any code lengths, what it has read is
`Coded` data (`coded_of_inflateBlock`). A set that does not fit never makes it read anything else than
words of that set.
-/

namespace Vock.Fuzz

open Library List

variable {extra base : List Nat} {i d len start : Nat}

variable {br br' : BitReader} {lit dist : List Nat} {limit : Nat} {out data : List U8}
  {l w v bits : List Bool} {value : Nat}

/-! ## Tables -/

theorem lengthCodes_eq : Deflate.lengthCodes = lenBase.zip lenExtra := by decide

theorem distanceCodes_eq : Deflate.distanceCodes = distBase.zip distExtra := by decide

private theorem getElem?_zip {width : Nat}
    (h : (base.zip extra)[i]? = some (start, width)) :
    i < base.length ∧ base.getD i 0 = start ∧ extra.getD i 0 = width := by
  obtain ⟨hb, he⟩ := getElem?_zip_eq_some.mp h
  obtain ⟨hi, -⟩ := List.getElem?_eq_some_iff.mp hb
  exact ⟨hi, by rw [getD_eq_getElem?_getD, hb]; rfl, by rw [getD_eq_getElem?_getD, he]; rfl⟩

private theorem getElem?_zip_getD (hb : i < base.length)
    (he : i < extra.length) : (base.zip extra)[i]? = some (base.getD i 0, extra.getD i 0) := by
  rw [getElem?_zip_eq_some, getD_eq_getElem _ _ hb, getD_eq_getElem _ _ he]
  exact ⟨getElem?_eq_getElem hb, getElem?_eq_getElem he⟩

private theorem getD_le (h : ∀ e ∈ extra, e ≤ 16) (i : Nat) : extra.getD i 0 ≤ 16 := by
  rw [getD_eq_getElem?_getD]
  cases hi : extra[i]? with
  | none => exact Nat.zero_le _
  | some e => exact h e (mem_of_getElem? hi)

theorem lenExtra_le (i : Nat) : lenExtra.getD i 0 ≤ 16 := getD_le (by decide) i

theorem distExtra_le (i : Nat) : distExtra.getD i 0 ≤ 16 := getD_le (by decide) i

/-! ## Values with extra bits -/

theorem readValue_of_holds {e : List Bool}
    (hi : (base.zip extra)[i]? = some (start, e.length)) (he : e.length ≤ 16)
    (hbr : Holds br (e ++ l)) :
    ∃ br', readValue base extra i br = some (start + natOfBits e, br') ∧ Holds br' l := by
  obtain ⟨-, hstart, hwidth⟩ := getElem?_zip hi
  obtain ⟨br', hbits, hbr'⟩ := BitReader.bits_of_holds hbr he
  refine ⟨br', ?_, hbr'⟩
  simp only [readValue, hwidth, hbits, hstart, Option.bind_eq_bind, Option.bind_some]

theorem holds_of_readValue (he : extra.getD i 0 ≤ 16)
    (hbr : Holds br l) (hv : readValue base extra i br = some (value, br')) :
    ∃ e l', l = e ++ l' ∧ e.length = extra.getD i 0 ∧ value = base.getD i 0 + natOfBits e ∧
      Holds br' l' := by
  obtain ⟨⟨x, br₁⟩, hx, hret⟩ := Option.bind_eq_some_iff.mp hv
  obtain ⟨e, l', rfl, hlen, rfl, hbr₁⟩ := BitReader.holds_of_bits hbr he hx
  cases hret
  exact ⟨e, l', rfl, hlen, rfl, hbr₁⟩

/-! ## Copies -/

private theorem copy_foldl {k : Nat} (h : start + k + d = out.length) :
    (List.range' k len).foldl (fun out j => out ++ [out.getD (start + j) 0#8]) out =
      Deflate.copyBack d len out := by
  induction len generalizing k out with
  | zero => rfl
  | succ len ih =>
    have same : out.length - d = start + k := by omega
    rw [range'_succ, foldl_cons, ih, Deflate.copyBack, same]
    rw [length_append, length_singleton]
    omega

/-- Copying from a fixed start is copying from a fixed distance. -/
theorem copyMatch_eq (h : d ≤ out.length) : copyMatch (out.length - d) len out = Deflate.copyBack d len out := by
  rw [copyMatch, range_eq_range']
  exact copy_foldl (by omega)

/-! ## Rounds -/

/-- The two code-length sets of a block, as `Huffman.new` needs them. -/
structure Lengths (lit dist : List Nat) : Prop where
  lit_le : ∀ n ∈ lit, n ≤ maxBits
  dist_le : ∀ n ∈ dist, n ≤ maxBits

section

variable (sets : Lengths lit dist) (fits : Fits maxBits lit)
include sets fits

theorem blockStep_literal {b : U8}
    (hw : codeword lit b.toNat = some w) (room : out.length < limit) (hbr : Holds br (w ++ l)) :
    ∃ br', Continues (blockStep (Huffman.new lit) (Huffman.new dist) limit) (br, out)
      (br', out ++ [b]) ∧ Holds br' l := by
  obtain ⟨br', hsym, hbr'⟩ := Huffman.decode_of_codeword sets.lit_le fits hw hbr
  have small : b.toNat ≤ 255 := Nat.le_of_lt_succ b.isLt
  refine ⟨br', ?_, hbr'⟩
  simp [Continues, blockStep, hsym, if_pos small, if_neg (Nat.not_le.mpr room)]

theorem blockStep_endOfBlock
    (hw : codeword lit 256 = some w) (hbr : Holds br (w ++ l)) :
    ∃ br', blockStep (Huffman.new lit) (Huffman.new dist) limit (br, out) = some (.inr (br', out)) ∧
      Holds br' l := by
  obtain ⟨br', hsym, hbr'⟩ := Huffman.decode_of_codeword sets.lit_le fits hw hbr
  refine ⟨br', ?_, hbr'⟩
  simp only [blockStep, hsym]
  rfl

theorem blockStep_backReference {length distance : Nat} (fits' : Fits maxBits dist)
    (hw : Deflate.Spells lit 257 Deflate.lengthCodes w length)
    (hv : Deflate.Spells dist 0 Deflate.distanceCodes v distance) (hd : distance ≤ out.length)
    (room : out.length + length ≤ limit) (hbr : Holds br (w ++ v ++ l)) :
    ∃ br', Continues (blockStep (Huffman.new lit) (Huffman.new dist) limit) (br, out)
      (br', Deflate.copyBack distance length out) ∧ Holds br' l := by
  obtain ⟨i, start, word, e, hi, hword, rfl, rfl⟩ := hw
  obtain ⟨j, start', word', e', hj, hword', rfl, rfl⟩ := hv
  rw [lengthCodes_eq] at hi
  rw [distanceCodes_eq] at hj
  obtain ⟨hi_lt, -, hwidth⟩ := getElem?_zip hi
  obtain ⟨hj_lt, -, hwidth'⟩ := getElem?_zip hj
  have hi29 : i < 29 := hi_lt
  have hj30 : j < 30 := hj_lt
  simp only [append_assoc] at hbr
  obtain ⟨br₁, h₁, hbr₁⟩ := Huffman.decode_of_codeword sets.lit_le fits hword hbr
  obtain ⟨br₂, h₂, hbr₂⟩ := readValue_of_holds hi (hwidth ▸ lenExtra_le i) hbr₁
  obtain ⟨br₃, h₃, hbr₃⟩ := Huffman.decode_of_codeword sets.dist_le fits' hword' hbr₂
  obtain ⟨br₄, h₄, hbr₄⟩ := readValue_of_holds hj (hwidth' ▸ distExtra_le j) hbr₃
  refine ⟨br₄, ?_, hbr₄⟩
  have read : readMatch (Huffman.new dist) (257 + i) br₁ =
      some (start + natOfBits e, start' + natOfBits e', br₄) := by
    simp [readMatch, h₂, h₃, h₄, if_neg (Nat.not_le.mpr hj30)]
  simp only [Continues, blockStep, h₁, Option.bind_eq_bind, Option.bind_some, read]
  rw [if_neg (by omega), if_neg (by omega), if_pos (by omega), if_neg (by omega), copyMatch_eq hd]

/-- Data under sets that fit are read to their end. -/
theorem inflateBlock_of_coded
    (fits' : Fits maxBits dist) (h : Deflate.Coded lit dist out bits data)
    (room : data.length ≤ limit) (hbr : Holds br (bits ++ l)) :
    ∃ br', inflateBlock (Huffman.new lit) (Huffman.new dist) limit (br, out) = some (br', data) ∧
      Holds br' l := by
  simp only [inflateBlock_eq_some_iff]
  induction h generalizing br with
  | endOfBlock hw =>
    obtain ⟨br', hstep, hbr'⟩ := blockStep_endOfBlock sets fits hw hbr
    exact ⟨br', .leave hstep, hbr'⟩
  | literal b hw rest ih =>
    have grown := rest.length_le
    rw [length_append] at grown
    rw [append_assoc] at hbr
    have below : _ < limit := Nat.lt_of_lt_of_le grown room
    obtain ⟨br₁, hstep, hbr₁⟩ := blockStep_literal sets fits hw below hbr
    obtain ⟨br', hends, hbr'⟩ := ih room hbr₁
    exact ⟨br', .goOn hstep hends, hbr'⟩
  | backReference hw hv hd rest ih =>
    have grown := rest.length_le
    rw [Deflate.length_copyBack] at grown
    rw [append_assoc] at hbr
    obtain ⟨br₁, hstep, hbr₁⟩ :=
      blockStep_backReference sets fits fits' hw hv hd (grown.trans room) hbr
    obtain ⟨br', hends, hbr'⟩ := ih room hbr₁
    exact ⟨br', .goOn hstep hends, hbr'⟩

end

/-! ## What a round has read -/

private theorem spells_of_readMatch {sym : Nat} (sets : Lengths lit dist) (hsym : 257 ≤ sym)
    (hsym' : sym ≤ 285) (hw : codeword lit sym = some w) (hbr : Holds br l)
    (hm : readMatch (Huffman.new dist) sym br = some (len, d, br')) :
    ∃ e v l', l = e ++ (v ++ l') ∧ Deflate.Spells lit 257 Deflate.lengthCodes (w ++ e) len ∧
      Deflate.Spells dist 0 Deflate.distanceCodes v d ∧ Holds br' l' := by
  simp only [readMatch, Option.bind_eq_bind, Option.bind_eq_some_iff, Prod.exists] at hm
  obtain ⟨len', br₁, hlen, dsym, br₂, hdsym, hm⟩ := hm
  obtain ⟨e, l₁, rfl, he, rfl, hbr₁⟩ := holds_of_readValue (lenExtra_le _) hbr hlen
  obtain ⟨word, l₂, rfl, hword, hbr₂⟩ := Huffman.codeword_of_decode sets.dist_le hbr₁ hdsym
  split at hm
  · cases hm
  · rename_i hlt
    simp only [Option.bind_eq_some_iff, Prod.exists] at hm
    obtain ⟨d', br₃, hd, hret⟩ := hm
    obtain ⟨e', l₃, rfl, he', rfl, hbr₃⟩ := holds_of_readValue (distExtra_le _) hbr₂ hd
    cases hret
    have inLen : sym - 257 < 29 := by omega
    have inDist : dsym < 30 := Nat.lt_of_not_le hlt
    refine ⟨e, word ++ e', l₃, by simp, ?_, ?_, hbr₃⟩
    · refine ⟨sym - 257, lenBase.getD (sym - 257) 0, w, e, ?_, ?_, rfl, rfl⟩
      · rw [lengthCodes_eq, he, getElem?_zip_getD inLen inLen]
      · rw [Nat.add_sub_cancel' hsym, hw]
    · refine ⟨dsym, distBase.getD dsym 0, word, e', ?_, ?_, rfl, rfl⟩
      · rw [distanceCodes_eq, he', getElem?_zip_getD inDist inDist]
      · rw [Nat.zero_add, hword]

/-- What a round of `inflate_block` has read: a literal, the end of the block or a back-reference. -/
theorem blockStep_cases {s : BitReader × List U8}
    {x : (BitReader × List U8) ⊕ (BitReader × List U8)} (sets : Lengths lit dist) (hbr : Holds s.1 l)
    (h : blockStep (Huffman.new lit) (Huffman.new dist) limit s = some x) :
    ∃ br' l', Holds br' l' ∧
      ((∃ b w, codeword lit (BitVec.toNat (w := 8) b) = some w ∧ l = w ++ l' ∧
        x = .inl (br', s.2 ++ [b])) ∨
      (∃ w, codeword lit 256 = some w ∧ l = w ++ l' ∧ x = .inr (br', s.2)) ∨
      (∃ w v length distance, Deflate.Spells lit 257 Deflate.lengthCodes w length ∧
        Deflate.Spells dist 0 Deflate.distanceCodes v distance ∧ distance ≤ s.2.length ∧
        l = w ++ v ++ l' ∧ x = .inl (br', Deflate.copyBack distance length s.2))) := by
  obtain ⟨⟨sym, br₁⟩, hsym, h⟩ := Option.bind_eq_some_iff.mp h
  obtain ⟨w, l₁, rfl, hw, hbr₁⟩ := Huffman.codeword_of_decode sets.lit_le hbr hsym
  dsimp only at h
  split at h
  next hlit =>
    split at h
    next => cases h
    next =>
      cases h
      refine ⟨br₁, l₁, hbr₁, .inl ⟨BitVec.ofNat 8 sym, w, ?_, rfl, rfl⟩⟩
      rwa [BitVec.toNat_ofNat, Nat.mod_eq_of_lt (Nat.lt_succ_of_le hlit)]
  next hlit =>
    split at h
    next heob =>
      cases h
      exact ⟨br₁, l₁, hbr₁, .inr (.inl ⟨w, heob ▸ hw, rfl, rfl⟩)⟩
    next heob =>
      split at h
      next href =>
        obtain ⟨⟨len, d, br₂⟩, hm, h⟩ := Option.bind_eq_some_iff.mp h
        obtain ⟨e, v, l₂, rfl, hlen, hdist, hbr₂⟩ :=
          spells_of_readMatch sets (by omega) href hw hbr₁ hm
        split at h
        next => cases h
        next hroom =>
          have back : d ≤ s.2.length := Nat.le_of_not_lt fun hc => hroom (.inl hc)
          rw [copyMatch_eq back] at h
          cases h
          refine ⟨br₂, l₂, hbr₂, .inr (.inr ⟨w ++ e, v, len, d, hlen, hdist, back, ?_, rfl⟩)⟩
          simp
      next => cases h

/-- What `inflate_block` has read is compressed data of the format. -/
theorem coded_of_inflateBlock (sets : Lengths lit dist) (hbr : Holds br l)
    (h : inflateBlock (Huffman.new lit) (Huffman.new dist) limit (br, out) = some (br', data)) :
    ∃ bits l', l = bits ++ l' ∧ Deflate.Coded lit dist out bits data ∧ Holds br' l' := by
  have ends {s r : BitReader × List U8} {l : List Bool}
      (h : Ends (blockStep (Huffman.new lit) (Huffman.new dist) limit) s r) (hbr : Holds s.1 l) :
      ∃ bits l', l = bits ++ l' ∧ Deflate.Coded lit dist s.2 bits r.2 ∧ Holds r.1 l' := by
    induction h generalizing l with
    | leave hstep =>
      obtain ⟨br₁, l₁, hbr₁, ⟨b, w, hw, rfl, hx⟩ | ⟨w, hw, rfl, hx⟩ | ⟨w, v, _, _, _, _, _, _, hx⟩⟩ :=
        blockStep_cases sets hbr hstep
      · cases hx
      · cases hx
        exact ⟨w, l₁, rfl, .endOfBlock hw, hbr₁⟩
      · cases hx
    | goOn hstep rest ih =>
      obtain ⟨br₁, l₁, hbr₁, ⟨b, w, hw, rfl, hx⟩ | ⟨w, hw, rfl, hx⟩ |
        ⟨w, v, length, distance, hw, hv, hd, rfl, hx⟩⟩ := blockStep_cases sets hbr hstep
      · cases hx
        obtain ⟨bits, l₂, rfl, hcoded, hbr₂⟩ := ih hbr₁
        exact ⟨w ++ bits, l₂, (append_assoc _ _ _).symm, .literal b hw hcoded, hbr₂⟩
      · cases hx
      · cases hx
        obtain ⟨bits, l₂, rfl, hcoded, hbr₂⟩ := ih hbr₁
        exact ⟨w ++ v ++ bits, l₂, (append_assoc _ _ _).symm, .backReference hw hv hd hcoded,
          hbr₂⟩
  exact ends (inflateBlock_eq_some_iff.mp h) hbr

/-! ## Fixed blocks -/

theorem fixedLit_eq : fixedLit = Deflate.fixedLit := by decide +kernel

/-- The distance words of a fixed block are the same for 30 and for 32 codes. -/
theorem spells_fixedDist :
    Deflate.Spells fixedDist 0 Deflate.distanceCodes w value ↔
      Deflate.Spells Deflate.fixedDist 0 Deflate.distanceCodes w value := by
  have same : ∀ i < 30, codeword fixedDist (0 + i) = codeword Deflate.fixedDist (0 + i) := by
    decide +kernel
  have bound {i start width : Nat} (h : Deflate.distanceCodes[i]? = some (start, width)) : i < 30 := by
    rw [distanceCodes_eq] at h
    exact (getElem?_zip h).1
  constructor
  · rintro ⟨i, start, word, e, hi, hword, hw, hv⟩
    exact ⟨i, start, word, e, hi, same i (bound hi) ▸ hword, hw, hv⟩
  · rintro ⟨i, start, word, e, hi, hword, hw, hv⟩
    exact ⟨i, start, word, e, hi, (same i (bound hi)).symm ▸ hword, hw, hv⟩

theorem coded_fixedDist :
    Deflate.Coded lit fixedDist out bits data ↔ Deflate.Coded lit Deflate.fixedDist out bits data :=
  ⟨fun h => h.imp_dist fun _ _ => spells_fixedDist.mp,
    fun h => h.imp_dist fun _ _ => spells_fixedDist.mpr⟩

theorem fixed_lengths : Lengths fixedLit fixedDist := ⟨by decide +kernel, by decide⟩

theorem fixedLit_fits : Fits maxBits fixedLit := by decide +kernel

theorem fixedDist_fits : Fits maxBits fixedDist := by decide

end Vock.Fuzz
