import Vock.Library.CanonicalCode

/-!
# The DEFLATE format

RFC 1951 as a relation between bit strings and the bytes they expand to. Every part of a stream is
described by the bits it is written as, so that the format says which strings are valid and not how
to read them.

* `Coded` is the compressed data of a block: literals, back-references, the end-of-block symbol.
* `LengthRun` is the run-length coded list of code lengths in front of a dynamic block.
* `Block` is one block after its final-block bit; `Blocks` a sequence of blocks up to the final one.
* `Stream` is a byte string that holds such a sequence, filled up to a whole byte.

What is asked of the code-length sets of a dynamic block is a parameter (`Sets`). `Sets.complete` is the
RFC: the sets use up all words, but for the distances, where one code of one bit, or none at all, may be
sent. `Sets.fitting` asks only that no set wants more words than there are, so that sets that leave words
unused are covered too; what a reader does with the one it does with the other (`Stream.mono`).
-/

namespace Vock.Library.Deflate

open List

/-- The longest code word. -/
def maxBits : Nat := 15

/-! ## Compressed data -/

/-- Ranges of `2 ^ e` values each, one after the other from `start`: where each begins, and the number
of extra bits that say which value of the range is meant. -/
def ranges (start : Nat) : List Nat → List (Nat × Nat)
  | [] => []
  | e :: es => (start, e) :: ranges (start + 2 ^ e) es

/-- The lengths meant by the symbols 257 to 285. -/
def lengthCodes : List (Nat × Nat) :=
  ranges 3 [0, 0, 0, 0, 0, 0, 0, 0, 1, 1, 1, 1, 2, 2, 2, 2, 3, 3, 3, 3, 4, 4, 4, 4, 5, 5, 5, 5] ++
    [(258, 0)]

/-- The distances meant by the distance symbols 0 to 29. -/
def distanceCodes : List (Nat × Nat) :=
  ranges 1 [0, 0, 0, 0, 1, 1, 2, 2, 3, 3, 4, 4, 5, 5, 6, 6, 7, 7, 8, 8, 9, 9, 10, 10, 11, 11, 12, 12,
    13, 13]

/-- `w` is the word of a symbol, counted from `base` on, and its extra bits; together they mean
`value`. -/
def Spells (lens : List Nat) (base : Nat) (codes : List (Nat × Nat)) (w : List Bool) (value : Nat) :
    Prop :=
  ∃ i start word extra, codes[i]? = some (start, extra.length) ∧
    codeword lens (base + i) = some word ∧ w = word ++ extra ∧ value = start + natOfBits extra

/-- The output followed by `n` bytes, each the one `distance` bytes before it. -/
def copyBack (distance : Nat) : Nat → List (BitVec 8) → List (BitVec 8)
  | 0, out => out
  | n + 1, out => copyBack distance n (out ++ [out.getD (out.length - distance) 0#8])

/-- The compressed data of a block under the code lengths `lit` and `dist`: with `out` written before
it, the bits expand to all of the last argument. They end with the end-of-block symbol, which therefore
has a word. -/
inductive Coded (lit dist : List Nat) : List (BitVec 8) → List Bool → List (BitVec 8) → Prop
  | endOfBlock {out w} : codeword lit 256 = some w → Coded lit dist out w out
  | literal {out w bits data} (b : BitVec 8) : codeword lit b.toNat = some w →
      Coded lit dist (out ++ [b]) bits data → Coded lit dist out (w ++ bits) data
  | backReference {out w v bits data length distance} :
      Spells lit 257 lengthCodes w length → Spells dist 0 distanceCodes v distance →
      distance ≤ out.length → Coded lit dist (copyBack distance length out) bits data →
      Coded lit dist out (w ++ v ++ bits) data

/-- The code lengths of a fixed block. -/
def fixedLit : List Nat :=
  List.replicate 144 8 ++ List.replicate 112 9 ++ List.replicate 24 7 ++ List.replicate 8 8

/-- All 32 distance codes of a fixed block have five bits. The last two mean no distance. -/
def fixedDist : List Nat := List.replicate 32 5

/-! ## Dynamic blocks -/

/-- The order in which the lengths of the code-length code are sent. -/
def codeLengthOrder : List Nat := [16, 17, 18, 0, 8, 7, 9, 6, 10, 5, 11, 4, 12, 3, 13, 2, 14, 1, 15]

/-- One item of the code-length list: its bits under the code lengths `cl`, and the lengths it adds
to those before it. -/
inductive LengthItem (cl before : List Nat) : List Bool → List Nat → Prop
  | length {n w} : n ≤ maxBits → codeword cl n = some w → LengthItem cl before w [n]
  | again {w extra previous} : codeword cl 16 = some w → extra.length = 2 →
      before.getLast? = some previous →
      LengthItem cl before (w ++ extra) (List.replicate (3 + natOfBits extra) previous)
  | zeros {w extra} : codeword cl 17 = some w → extra.length = 3 →
      LengthItem cl before (w ++ extra) (List.replicate (3 + natOfBits extra) 0)
  | manyZeros {w extra} : codeword cl 18 = some w → extra.length = 7 →
      LengthItem cl before (w ++ extra) (List.replicate (11 + natOfBits extra) 0)

/-- A list of `total` code lengths, item by item. No item runs past the end. -/
inductive LengthRun (cl : List Nat) (total : Nat) : List Nat → List Bool → List Nat → Prop
  | done {lens} : lens.length = total → LengthRun cl total lens [] lens
  | item {before w more bits lens} : LengthItem cl before w more →
      (before ++ more).length ≤ total → LengthRun cl total (before ++ more) bits lens →
      LengthRun cl total before (w ++ bits) lens

/-- The header of a dynamic block: the numbers of literal and distance codes, and the lengths of the
code-length code as they are sent. -/
structure Header where
  literals : Nat
  distances : Nat
  sent : List Nat
  literals_ge : 257 ≤ literals
  literals_le : literals ≤ 286
  distances_ge : 1 ≤ distances
  distances_le : distances ≤ 32
  sent_ge : 4 ≤ sent.length
  sent_le : sent.length ≤ 19
  sent_lt : ∀ n ∈ sent, n < 8

namespace Header

def bits (h : Header) : List Bool :=
  bitsOfNat 5 (h.literals - 257) ++ (bitsOfNat 5 (h.distances - 1) ++
    (bitsOfNat 4 (h.sent.length - 4) ++ h.sent.flatMap (bitsOfNat 3)))

/-- The lengths of the code-length code, symbol by symbol. Those not sent are zero. -/
def codeLengths (h : Header) : List Nat :=
  (List.range 19).map fun s => h.sent.getD (codeLengthOrder.idxOf s) 0

end Header

/-! ## Blocks -/

/-- The number of bits from position `pos` up to a whole byte. -/
def padding (pos : Nat) : Nat := (8 - pos % 8) % 8

/-- What is asked of the code lengths of a dynamic block: those of the code-length code, of the literals
and of the distances. -/
structure Sets where
  codeLengths : List Nat → Prop
  literals : List Nat → Prop
  distances : List Nat → Prop

namespace Sets

/-- No set asks for more words than there are. -/
def fitting : Sets := ⟨Fits maxBits, Fits maxBits, Fits maxBits⟩

/-- The distances: a complete set, a single code of one bit, or no code at all. -/
def Distances (lens : List Nat) : Prop :=
  Complete maxBits lens ∨ lens.filter (· ≠ 0) = [1] ∨ lens.filter (· ≠ 0) = []

/-- The sets of RFC 1951. -/
def complete : Sets := ⟨Complete maxBits, Complete maxBits, Distances⟩

/-- One is stricter than the other. -/
structure Le (sets sets' : Sets) : Prop where
  codeLengths : ∀ lens, sets.codeLengths lens → sets'.codeLengths lens
  literals : ∀ lens, sets.literals lens → sets'.literals lens
  distances : ∀ lens, sets.distances lens → sets'.distances lens

theorem complete_le_fitting : Le complete fitting where
  codeLengths _ h := h.le
  literals _ h := h.le
  distances lens h := by
    rcases h with h | h | h
    · exact h.le
    · show kraftSum maxBits lens ≤ 2 ^ maxBits
      rw [kraftSum_eq_filter, h]
      decide
    · show kraftSum maxBits lens ≤ 2 ^ maxBits
      rw [kraftSum_eq_filter, h]
      decide

end Sets

/-- One block, from its type on: `pos` is the number of bits before what follows the type, `out` what
was written before the block. -/
inductive Block (sets : Sets) (pos : Nat) (out : List (BitVec 8)) : List Bool → List (BitVec 8) → Prop
  | stored {pad : List Bool} {data : List (BitVec 8)} : pad.length = padding pos →
      data.length < 2 ^ 16 →
      Block sets pos out (bitsOfNat 2 0 ++ (pad ++ (bitsOfNat 16 data.length ++
        (bitsOfNat 16 (2 ^ 16 - 1 - data.length) ++ bytesBits data)))) (out ++ data)
  | fixed {bits data} : Coded fixedLit fixedDist out bits data →
      Block sets pos out (bitsOfNat 2 1 ++ bits) data
  | dynamic {run bits lens data} (h : Header) : sets.codeLengths h.codeLengths →
      LengthRun h.codeLengths (h.literals + h.distances) [] run lens →
      sets.literals (lens.take h.literals) → sets.distances (lens.drop h.literals) →
      Coded (lens.take h.literals) (lens.drop h.literals) out bits data →
      Block sets pos out (bitsOfNat 2 2 ++ (h.bits ++ (run ++ bits))) data

/-- Blocks up to the final one, the first of them at position `pos`. -/
inductive Blocks (sets : Sets) : Nat → List (BitVec 8) → List Bool → List (BitVec 8) → Prop
  | final {pos out bits data} : Block sets (pos + 3) out bits data → Blocks sets pos out (true :: bits) data
  | more {pos out bits rest mid data} : Block sets (pos + 3) out bits mid →
      Blocks sets (pos + 1 + bits.length) mid rest data → Blocks sets pos out (false :: (bits ++ rest)) data

/-- A valid stream and the bytes it expands to. -/
def Stream (sets : Sets) (stream data : List (BitVec 8)) : Prop :=
  ∃ bits pad, Blocks sets 0 [] bits data ∧ bytesBits stream = bits ++ pad ∧ pad.length < 8

/-! ## Output -/

theorem length_copyBack (distance n : Nat) (out : List (BitVec 8)) :
    (copyBack distance n out).length = out.length + n := by
  induction n generalizing out with
  | zero => rfl
  | succ n ih =>
    rw [copyBack, ih, length_append, length_singleton]
    omega

variable {bits : List Bool} {data out : List (BitVec 8)} {dist lit : List Nat} {pos : Nat} {sets sets' : Sets}

/-! ## Stricter sets -/

theorem Block.mono (hle : sets.Le sets') (h : Block sets pos out bits data) : Block sets' pos out bits data := by
  cases h with
  | stored hpad hlen => exact .stored hpad hlen
  | fixed hcoded => exact .fixed hcoded
  | dynamic header hcl hrun hlit hdist hcoded =>
    exact .dynamic header (hle.codeLengths _ hcl) hrun (hle.literals _ hlit) (hle.distances _ hdist) hcoded

theorem Blocks.mono (hle : sets.Le sets') (h : Blocks sets pos out bits data) : Blocks sets' pos out bits data := by
  induction h with
  | final hblock => exact .final (hblock.mono hle)
  | more hblock _ ih => exact .more (hblock.mono hle) ih

theorem Stream.mono {stream : List (BitVec 8)} (hle : sets.Le sets') (h : Stream sets stream data) :
    Stream sets' stream data := by
  obtain ⟨bits, pad, hblocks, hbits, hpad⟩ := h
  exact ⟨bits, pad, hblocks.mono hle, hbits, hpad⟩

/-! ## What is written -/

theorem Coded.length_le
    (h : Coded lit dist out bits data) : out.length ≤ data.length := by
  induction h with
  | endOfBlock => exact Nat.le_refl _
  | literal _ _ _ ih =>
    rw [length_append] at ih
    exact Nat.le_trans (Nat.le_add_right _ _) ih
  | backReference _ _ _ _ ih =>
    rw [length_copyBack] at ih
    exact Nat.le_trans (Nat.le_add_right _ _) ih

theorem Block.length_le
    (h : Block sets pos out bits data) : out.length ≤ data.length := by
  cases h with
  | stored => rw [length_append]; exact Nat.le_add_right _ _
  | fixed h | dynamic _ _ _ _ _ h => exact h.length_le

theorem Blocks.length_le
    (h : Blocks sets pos out bits data) : out.length ≤ data.length := by
  induction h with
  | final h => exact h.length_le
  | more h _ ih => exact Nat.le_trans h.length_le ih

/-- Compressed data depend on the distance lengths only through what distances they spell. -/
theorem Coded.imp_dist {dist' : List Nat}
    (imp : ∀ w d, Spells dist 0 distanceCodes w d → Spells dist' 0 distanceCodes w d)
    (h : Coded lit dist out bits data) : Coded lit dist' out bits data := by
  induction h with
  | endOfBlock hw => exact .endOfBlock hw
  | literal b hw _ ih => exact .literal b hw ih
  | backReference hw hv hd _ ih => exact .backReference hw (imp _ _ hv) hd ih

/-- A code-length list has the number of lengths it was declared with, and none is too long. -/
theorem LengthRun.spec {cl before lens : List Nat} {total : Nat}
    (h : LengthRun cl total before bits lens) (hb : ∀ n ∈ before, n ≤ maxBits) :
    lens.length = total ∧ ∀ n ∈ lens, n ≤ maxBits := by
  induction h with
  | done hl => exact ⟨hl, hb⟩
  | item hi _ _ ih =>
    refine ih fun n hn => ?_
    rcases mem_append.mp hn with hn | hn
    · exact hb n hn
    · cases hi with
      | length hle => rw [mem_singleton.mp hn]; exact hle
      | again _ _ hp => rw [eq_of_mem_replicate hn]; exact hb _ (mem_of_getLast? hp)
      | zeros | manyZeros => rw [eq_of_mem_replicate hn]; exact Nat.zero_le _

end Vock.Library.Deflate
