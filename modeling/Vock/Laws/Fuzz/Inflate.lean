import Vock.Fuzz.ProgText
import Vock.Laws.Fuzz.Base64
import Vock.Laws.Fuzz.Coded
import Vock.Laws.Fuzz.Dynamic

/-!
# Inflate reads every valid stream

The arms of `inflate` against the blocks of the format, and from them the whole run: a valid stream
expands to what it encodes, whatever bytes follow it (`inflate_stream`), also from the text of an image
(`decodeHexBytes_image`).
-/

namespace Vock.Fuzz

open Library List

variable {len nlen t : Nat}

variable {br br' br₁ : BitReader} {limit pos : Nat} {out data : List U8} {l bits : List Bool} {b : Bool}
  {pad : List Bool} {lens : List Nat}

/-! ## Stored blocks -/

theorem storedBytes_of_holds (hbr : Holds br (bytesBits data ++ l))
    (room : out.length + data.length ≤ limit) :
    ∃ br', storedBytes limit data.length (br, out) = some (br', out ++ data) ∧ Holds br' l := by
  induction data generalizing br out with
  | nil => exact ⟨br, by rw [append_nil]; rfl, hbr⟩
  | cons x data ih =>
    rw [length_cons] at room
    obtain ⟨br₁, hx, hbr₁⟩ := BitReader.bits_of_field (by decide) x.isLt hbr
    have room' : (out ++ [x]).length + data.length ≤ limit := by
      rw [length_append, length_singleton]
      omega
    obtain ⟨br', hrest, hbr'⟩ := ih hbr₁ room'
    refine ⟨br', ?_, hbr'⟩
    have below : ¬ limit ≤ out.length := by omega
    simp [storedBytes, if_neg below, hx, hrest]

theorem bytes_of_storedBytes {n : Nat} (hbr : Holds br l)
    (h : storedBytes limit n (br, out) = some (br', data)) :
    ∃ bytes l', bytes.length = n ∧ l = bytesBits bytes ++ l' ∧ data = out ++ bytes ∧
      Holds br' l' := by
  induction n generalizing br out l with
  | zero =>
    cases h
    exact ⟨[], l, rfl, rfl, (append_nil _).symm, hbr⟩
  | succ n ih =>
    rw [storedBytes] at h
    split at h
    · cases h
    · obtain ⟨⟨x, br₁⟩, hx, h⟩ := Option.bind_eq_some_iff.mp h
      obtain ⟨hlt, l₁, rfl, hbr₁⟩ := BitReader.field_of_bits (by decide) hbr hx
      obtain ⟨bytes, l', rfl, rfl, rfl, hbr'⟩ := ih hbr₁ h
      refine ⟨BitVec.ofNat 8 x :: bytes, l', rfl, ?_, ?_, hbr'⟩
      · rw [bytesBits_cons, BitVec.toNat_ofNat, Nat.mod_eq_of_lt hlt, append_assoc]
      · rw [append_assoc, singleton_append]

theorem storedHead_of_holds (hp : pad.length = br.cnt)
    (hlen : len < 2 ^ 16) (hnlen : nlen < 2 ^ 16)
    (hbr : Holds br (pad ++ (bitsOfNat 16 len ++ (bitsOfNat 16 nlen ++ l)))) :
    ∃ br', storedHead br = some (len, nlen, br') ∧ Holds br' l := by
  obtain ⟨br₁, h₁, hbr₁⟩ :=
    BitReader.bits_of_field (by decide) hlen (BitReader.holds_alignByte hbr hp)
  obtain ⟨br₂, h₂, hbr₂⟩ := BitReader.bits_of_field (by decide) hnlen hbr₁
  refine ⟨br₂, ?_, hbr₂⟩
  simp [storedHead, h₁, h₂]

theorem holds_of_storedHead (hbr : Holds br l)
    (h : storedHead br = some (len, nlen, br')) :
    ∃ pad l', pad.length = br.cnt ∧ len < 2 ^ 16 ∧
      l = pad ++ (bitsOfNat 16 len ++ (bitsOfNat 16 nlen ++ l')) ∧ Holds br' l' := by
  obtain ⟨⟨a, br₁⟩, h₁, h⟩ := Option.bind_eq_some_iff.mp h
  obtain ⟨⟨c, br₂⟩, h₂, hret⟩ := Option.bind_eq_some_iff.mp h
  cases hret
  have inside : br.cnt ≤ l.length := by rw [hbr.cnt_eq]; exact Nat.mod_le _ _
  have cut : (l.take br.cnt).length = br.cnt := length_take_of_le inside
  have aligned : Holds br.alignByte (l.drop br.cnt) := by
    refine BitReader.holds_alignByte ?_ cut
    rwa [take_append_drop]
  obtain ⟨ha, l₁, e₁, hbr₁⟩ := BitReader.field_of_bits (by decide) aligned h₁
  obtain ⟨hc, l₂, rfl, hbr₂⟩ := BitReader.field_of_bits (by decide) hbr₁ h₂
  exact ⟨l.take br.cnt, l₂, cut, ha, by rw [← e₁, take_append_drop], hbr₂⟩

/-! ## Block heads -/

theorem blockHead_of_holds (ht : t < 4) (hbr : Holds br (b :: (bitsOfNat 2 t ++ l))) :
    ∃ br', blockHead br = some (b.toNat, t, br') ∧ Holds br' l := by
  obtain ⟨br₁, h₁, hbr₁⟩ := BitReader.bits_of_holds (u := [b]) hbr (show 1 ≤ 16 by decide)
  obtain ⟨br₂, h₂, hbr₂⟩ := BitReader.bits_of_field (n := 2) (by decide) ht hbr₁
  have value : natOfBits [b] = b.toNat := rfl
  rw [length_singleton, value] at h₁
  refine ⟨br₂, ?_, hbr₂⟩
  simp [blockHead, h₁, h₂]

theorem holds_of_blockHead {last : Nat} (hbr : Holds br l)
    (h : blockHead br = some (last, t, br')) :
    ∃ b l', last = b.toNat ∧ l = b :: (bitsOfNat 2 t ++ l') ∧ Holds br' l' := by
  obtain ⟨⟨last', br₁⟩, h₁, h⟩ := Option.bind_eq_some_iff.mp h
  obtain ⟨⟨t', br₂⟩, h₂, hret⟩ := Option.bind_eq_some_iff.mp h
  cases hret
  obtain ⟨u, l₁, rfl, hlen, rfl, hbr₁⟩ := BitReader.holds_of_bits hbr (by decide) h₁
  obtain ⟨-, l₂, rfl, hbr₂⟩ := BitReader.field_of_bits (by decide) hbr₁ h₂
  obtain ⟨b, rfl⟩ := length_eq_one_iff.mp hlen
  exact ⟨b, l₂, rfl, rfl, hbr₂⟩

/-- After the head of a block, the bits in the buffer are those up to the next whole byte. -/
theorem Holds.cnt_eq_padding (hbr : Holds br l)
    (hpos : (pos + (b :: (bitsOfNat 2 t ++ l)).length) % 8 = 0) :
    br.cnt = Deflate.padding (pos + 3) := by
  rw [length_cons, length_append, length_bitsOfNat] at hpos
  rw [hbr.cnt_eq, Deflate.padding]
  omega

/-! ## Valid blocks are read -/

/-- The head of a stored block, up to its bytes. -/
theorem heads_of_stored (hpad : pad.length = Deflate.padding (pos + 3))
    (hlen : len < 2 ^ 16) (hnlen : nlen < 2 ^ 16)
    (hbr : Holds br (b :: (bitsOfNat 2 0 ++ (pad ++ (bitsOfNat 16 len ++ (bitsOfNat 16 nlen ++ l))))))
    (hpos : (pos + (b :: (bitsOfNat 2 0 ++ (pad ++ (bitsOfNat 16 len ++
      (bitsOfNat 16 nlen ++ l))))).length) % 8 = 0) :
    ∃ br₁ br₂, blockHead br = some (b.toNat, 0, br₁) ∧ storedHead br₁ = some (len, nlen, br₂) ∧
      Holds br₂ l := by
  obtain ⟨br₁, h₁, hbr₁⟩ := blockHead_of_holds (by decide) hbr
  have aligned : pad.length = br₁.cnt := hpad.trans (hbr₁.cnt_eq_padding hpos).symm
  obtain ⟨br₂, h₂, hbr₂⟩ := storedHead_of_holds aligned hlen hnlen hbr₁
  exact ⟨br₁, br₂, h₁, h₂, hbr₂⟩

/-- The head of a dynamic block and its code lengths, up to the compressed data. -/
theorem heads_of_dynamic {run : List Bool} (header : Deflate.Header)
    (hcl : Fits maxBits header.codeLengths)
    (hrun : Deflate.LengthRun header.codeLengths (header.literals + header.distances) [] run lens)
    (hbr : Holds br (b :: (bitsOfNat 2 2 ++ (header.bits ++ (run ++ l))))) :
    ∃ br₁ br₂ br₃, blockHead br = some (b.toNat, 2, br₁) ∧
      dynamicHead br₁ = some (⟨header.literals, header.distances, header.codeLengths⟩, br₂) ∧
      Holds br₂ (run ++ l) ∧
      readLengths (Huffman.new header.codeLengths) (header.literals + header.distances) br₂ =
        some (lens, br₃) ∧ Holds br₃ l := by
  obtain ⟨br₁, h₁, hbr₁⟩ := blockHead_of_holds (by decide) hbr
  obtain ⟨br₂, h₂, hbr₂⟩ := dynamicHead_of_header header hbr₁
  obtain ⟨br₃, h₃, hbr₃⟩ := readLengths_of_lengthRun (codeLengths_le header) hcl hrun hbr₂
  exact ⟨br₁, br₂, br₃, h₁, h₂, hbr₂, h₃, hbr₃⟩

theorem dynamic_lengths {n total : Nat} {cl : List Nat}
    (h : Deflate.LengthRun cl total [] bits lens) : Lengths (lens.take n) (lens.drop n) := by
  obtain ⟨-, hle⟩ := h.spec nofun
  exact ⟨fun m hm => hle m (mem_of_mem_take hm), fun m hm => hle m (mem_of_mem_drop hm)⟩

section

variable (h : Deflate.Block .fitting (pos + 3) out bits data) (hbr : Holds br (b :: (bits ++ l)))
  (hpos : (pos + (b :: (bits ++ l)).length) % 8 = 0) (room : data.length ≤ limit)
include h hbr hpos room

/-- A valid block is read, and expands to what it encodes. -/
theorem blockBody_of_block :
    ∃ t br₁ br', blockHead br = some (b.toNat, t, br₁) ∧
      blockBody limit t (br₁, out) = some (br', data) ∧ Holds br' l := by
  cases h with
  | @stored pad data hpad hlen =>
    simp only [append_assoc] at hbr hpos
    rw [length_append] at room
    obtain ⟨br₁, br₂, h₁, h₂, hbr₂⟩ := heads_of_stored hpad hlen (by omega) hbr hpos
    obtain ⟨br₃, h₃, hbr₃⟩ := storedBytes_of_holds hbr₂ room
    refine ⟨0, br₁, br₃, h₁, ?_, hbr₃⟩
    simp [blockBody, h₂, h₃]
  | fixed hcoded =>
    obtain ⟨br₁, h₁, hbr₁⟩ := blockHead_of_holds (by decide) hbr
    rw [← fixedLit_eq, ← coded_fixedDist] at hcoded
    obtain ⟨br₂, h₂, hbr₂⟩ :=
      inflateBlock_of_coded fixed_lengths fixedLit_fits fixedDist_fits hcoded room hbr₁
    exact ⟨1, br₁, br₂, h₁, h₂, hbr₂⟩
  | dynamic header hcl hrun hlit hdist hcoded =>
    simp only [append_assoc] at hbr
    obtain ⟨br₁, br₂, br₃, h₁, h₂, -, h₃, hbr₃⟩ := heads_of_dynamic header hcl hrun hbr
    obtain ⟨br₄, h₄, hbr₄⟩ :=
      inflateBlock_of_coded (dynamic_lengths hrun) hlit hdist hcoded room hbr₃
    refine ⟨2, br₁, br₄, h₁, ?_, hbr₄⟩
    simp [blockBody, h₂, h₃, h₄]

/-- A round of `inflate` at a valid block. -/
theorem inflateStep_of_block :
    ∃ br', inflateStep limit (br, out) = some (if b then .inr data else .inl (br', data)) ∧
      Holds br' l := by
  obtain ⟨t, br₁, br', hhead, hbody, hbr'⟩ := blockBody_of_block h hbr hpos room
  refine ⟨br', inflateStep_eq_some_iff.mpr ⟨b.toNat, t, br₁, (br', data), hhead, hbody, ?_⟩, hbr'⟩
  cases b with
  | false | true => rfl

end

/-- Blocks up to the final one are read to their end. -/
theorem ends_of_blocks (h : Deflate.Blocks .fitting pos out bits data) (hbr : Holds br (bits ++ l))
    (hpos : (pos + (bits ++ l).length) % 8 = 0) (room : data.length ≤ limit) :
    Ends (inflateStep limit) (br, out) data := by
  induction h generalizing br with
  | final hblock =>
    obtain ⟨br', hstep, -⟩ := inflateStep_of_block hblock hbr hpos room
    exact .leave hstep
  | more hblock hrest ih =>
    rw [cons_append, append_assoc] at hbr hpos
    obtain ⟨br', hstep, hbr'⟩ :=
      inflateStep_of_block hblock hbr hpos (Nat.le_trans hrest.length_le room)
    refine .goOn hstep (ih hbr' ?_ room)
    simp only [length_cons, length_append] at hpos ⊢
    omega

/-- The reader stands in front of the blocks of a stream, whatever follows it. -/
theorem blocks_at_start {sets : Deflate.Sets} {stream : List U8} (h : Deflate.Stream sets stream data) (trailing : List U8) :
    ∃ bits l, Deflate.Blocks sets 0 [] bits data ∧ Holds (BitReader.new (stream ++ trailing)) (bits ++ l) ∧
      (0 + (bits ++ l).length) % 8 = 0 := by
  obtain ⟨bits, pad, hblocks, hbits, -⟩ := h
  have start := holds_new (stream ++ trailing)
  have whole := length_bytesBits_mod (stream ++ trailing)
  rw [bytesBits_append, hbits, append_assoc] at start whole
  exact ⟨bits, _, hblocks, start, whole⟩

/-- `inflate` undoes every conforming encoder, whatever follows the stream. -/
theorem inflate_stream {stream data : List U8} (h : Deflate.Stream .fitting stream data)
    (trailing : List U8) {limit : Nat} (room : data.length ≤ limit) :
    inflate (stream ++ trailing) limit = some data := by
  obtain ⟨bits, l, hblocks, start, whole⟩ := blocks_at_start h trailing
  exact inflate_eq_some_iff.mpr (ends_of_blocks hblocks start whole room)

/-- Two stored bytes, then a fixed block that copies five bytes from two bytes back. -/
theorem inflate_stream_copy :
    inflate ([0x00#8, 0x02#8, 0x00#8, 0xfd#8, 0xff#8, 0x61#8, 0x62#8, 0x03#8, 0x43#8, 0x00#8] ++ [0x55#8])
      7 = some [0x61#8, 0x62#8, 0x61#8, 0x62#8, 0x61#8, 0x62#8, 0x61#8] := by
  have stored := @Deflate.Block.stored .fitting 3 [] (replicate 5 false) [0x61#8, 0x62#8] rfl (by decide)
  have five : Deflate.Spells Deflate.fixedLit 257 Deflate.lengthCodes
      [false, false, false, false, false, true, true] 5 :=
    ⟨2, 5, [false, false, false, false, false, true, true], [], by decide, by decide +kernel, rfl, rfl⟩
  have two : Deflate.Spells Deflate.fixedDist 0 Deflate.distanceCodes
      [false, false, false, false, true] 2 :=
    ⟨1, 2, [false, false, false, false, true], [], by decide, by decide +kernel, rfl, rfl⟩
  have done : codeword Deflate.fixedLit 256 = some (replicate 7 false) := by decide +kernel
  have stream : Deflate.Stream .fitting
      [0x00#8, 0x02#8, 0x00#8, 0xfd#8, 0xff#8, 0x61#8, 0x62#8, 0x03#8, 0x43#8, 0x00#8]
      [0x61#8, 0x62#8, 0x61#8, 0x62#8, 0x61#8, 0x62#8, 0x61#8] :=
    ⟨_, [false, false],
      .more stored (.final (.fixed (.backReference five two (by decide) (.endOfBlock done)))),
      by decide, by decide⟩
  exact inflate_stream stream [0x55#8] (by decide)

/-! ## Images -/

/-- An image in a program text is read to what was compressed, whatever stands behind the compressed data. -/
theorem decodeHexBytes_image {stream data trailing : List U8} {cmf flg : U8} (h : Deflate.Stream .fitting stream data)
    (room : data.length ≤ maxImage) (hmethod : cmf &&& 0x0f#8 = 8#8) (hcheck : (cmf.toNat * 256 + flg.toNat) % 31 = 0)
    (hdict : flg &&& 0x20#8 = 0#8) :
    let zlib := cmf :: flg :: (stream ++ trailing)
    decodeHexBytes (ascii ['$'] ++ (encode64 zlib ++ padding64 zlib.length)) = data := by
  intro zlib
  have hzlib : base64Decode (encode64 zlib ++ padding64 zlib.length) = some zlib :=
    base64From_encode64 _ (fun c hc => eq_of_mem_replicate hc) zlib
  have hinflate : inflate (stream ++ trailing) maxImage = some data := by
    obtain ⟨bits, l, hblocks, start, whole⟩ := blocks_at_start h trailing
    exact inflate_eq_some_iff.mpr (ends_of_blocks hblocks start whole room)
  rw [decodeHexBytes, dropPrefix?_append]
  dsimp only
  rw [decodeCompressedImage, hzlib, Option.bind_some, zlibDecompress, if_neg (by simp [hmethod, hcheck]),
    if_neg (not_not.mpr hdict), hinflate, Option.getD_some]

/-- A stored byte. -/
theorem decodeHexBytes_image_stored : decodeHexBytes (ascii "$eAEBAQD+/2E=".toList) = [0x61#8] := by
  have stream : Deflate.Stream .fitting [0x01#8, 0x01#8, 0x00#8, 0xfe#8, 0xff#8, 0x61#8] [0x61#8] :=
    ⟨_, [], .final (@Deflate.Block.stored .fitting 3 [] (replicate 5 false) [0x61#8] rfl (by decide)), by decide, by decide⟩
  exact @decodeHexBytes_image _ _ [] 0x78#8 0x01#8 stream (by decide) (by decide) (by decide) (by decide)

end Vock.Fuzz
