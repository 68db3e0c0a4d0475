import Vock.Library.Answer
import Vock.Word

/-!
# Inflate

The DEFLATE decoder of `vock/src/fuzz/inflate.rs`: `BitReader`, `Huffman`, `inflate_block` and
`inflate`. A `?` of the source is a bind in `Option`; what a function changes through `&mut` it
returns.

The loops without a fixed number of rounds are `repeatFor`, with one round more than there are bits
left: every round reads at least one bit. Lengths, counts, offsets and symbols are natural numbers.
The source keeps them in `u8`, `u16` and `i32`, and none of them gets past 2 ^ 16.
-/

namespace Vock.Fuzz

open Library

/-! ## Bit reader -/

/-- `BitReader`. `rest` is the data from `pos` on. -/
structure BitReader where
  rest : List U8
  buf : BitVec 32
  cnt : Nat
deriving DecidableEq, Repr

namespace BitReader

def new (data : List U8) : BitReader := ⟨data, 0#32, 0⟩

/-- The loop of `bits`: load bytes until `n` bits are there. -/
def fill (n : Nat) : List U8 → BitVec 32 → Nat → Option BitReader
  | [], buf, cnt => if cnt < n then none else some ⟨[], buf, cnt⟩
  | b :: rest, buf, cnt =>
    if cnt < n then fill n rest (buf ||| (b.setWidth 32 <<< cnt)) (cnt + 8)
    else some ⟨b :: rest, buf, cnt⟩

/-- Read `n` bits, lowest first. -/
def bits (br : BitReader) (n : Nat) : Option (Nat × BitReader) :=
  if n = 0 then some (0, br)
  else do
    let br ← fill n br.rest br.buf br.cnt
    let out := br.buf &&& ((1#32 <<< n) - 1#32)
    some (out.toNat, { br with buf := br.buf >>> n, cnt := br.cnt - n })

def alignByte (br : BitReader) : BitReader :=
  let drop := br.cnt % 8
  { br with buf := br.buf >>> drop, cnt := br.cnt - drop }

/-- The number of bits not read yet, the bound of the loops. -/
def left (br : BitReader) : Nat := br.cnt + 8 * br.rest.length

end BitReader

/-! ## Huffman tables -/

/-- `MAX_BITS`. -/
def maxBits : Nat := 15

/-- Counts and symbols: `counts[n]` symbols have codes of length `n`, and `symbols` lists the symbols
by code length. -/
structure Huffman where
  counts : List Nat
  symbols : List Nat
deriving DecidableEq, Repr

namespace Huffman

/-- The first loop of `new`. -/
def countLengths (lengths : List Nat) : List Nat :=
  let counts := lengths.foldl (fun counts l => counts.set l (counts.getD l 0 + 1))
    (List.replicate (maxBits + 1) 0)
  counts.set 0 0

/-- The second loop of `new`: where the symbols of each code length start. -/
def offsets (counts : List Nat) : List Nat :=
  (List.range' 1 (maxBits - 1)).foldl
    (fun offs len => offs.set (len + 1) (offs.getD len 0 + counts.getD len 0))
    (List.replicate (maxBits + 2) 0)

/-- One round of the third loop of `new`, on `symbols` and `offs`. -/
def place (s : List Nat × List Nat) (entry : Nat × Nat) : List Nat × List Nat :=
  let (l, sym) := entry
  if l ≠ 0 then
    let slot := s.2.getD l 0
    let symbols := if slot < s.1.length then s.1.set slot sym else s.1
    (symbols, s.2.set l (s.2.getD l 0 + 1))
  else s

def new (lengths : List Nat) : Huffman :=
  let counts := countLengths lengths
  let placed := lengths.zipIdx.foldl place (List.replicate lengths.length 0, offsets counts)
  ⟨counts, placed.1⟩

/-- The loop of `decode`, with `n` code lengths to go. `code - count < first` and the index are
computed in `i32`; a negative index finds no symbol. -/
def decodeFrom (h : Huffman) : Nat → Nat → Nat → Nat → Nat → BitReader → Option (Nat × BitReader)
  | 0, _, _, _, _, _ => none
  | n + 1, len, code, first, index, br => do
    let (b, br) ← br.bits 1
    let code := code ||| b
    let count := h.counts.getD len 0
    if (code : Int) - count < first then
      let i : Int := index + ((code : Int) - first)
      (if i < 0 then none else h.symbols[i.toNat]?).map (·, br)
    else decodeFrom h n (len + 1) (code <<< 1) ((first + count) <<< 1) (index + count) br

def decode (h : Huffman) (br : BitReader) : Option (Nat × BitReader) :=
  h.decodeFrom maxBits 1 0 0 0 br

end Huffman

def lenBase : List Nat :=
  [3, 4, 5, 6, 7, 8, 9, 10, 11, 13, 15, 17, 19, 23, 27, 31, 35, 43, 51, 59, 67, 83, 99, 115, 131,
    163, 195, 227, 258]

def lenExtra : List Nat :=
  [0, 0, 0, 0, 0, 0, 0, 0, 1, 1, 1, 1, 2, 2, 2, 2, 3, 3, 3, 3, 4, 4, 4, 4, 5, 5, 5, 5, 0]

def distBase : List Nat :=
  [1, 2, 3, 4, 5, 7, 9, 13, 17, 25, 33, 49, 65, 97, 129, 193, 257, 385, 513, 769, 1025, 1537,
    2049, 3073, 4097, 6145, 8193, 12289, 16385, 24577]

def distExtra : List Nat :=
  [0, 0, 0, 0, 1, 1, 2, 2, 3, 3, 4, 4, 5, 5, 6, 6, 7, 7, 8, 8, 9, 9, 10, 10, 11, 11, 12, 12, 13, 13]

/-- The literal lengths of `fixed_trees`. -/
def fixedLit : List Nat :=
  (List.range 288).map fun i => if i ≤ 143 then 8 else if i ≤ 255 then 9 else if i ≤ 279 then 7 else 8

/-- The distance lengths of `fixed_trees`. -/
def fixedDist : List Nat := List.replicate 30 5

def fixedTrees : Huffman × Huffman := (Huffman.new fixedLit, Huffman.new fixedDist)

/-! ## Compressed data -/

/-- `BASE[i] + br.bits(EXTRA[i])?`. -/
def readValue (base extra : List Nat) (i : Nat) (br : BitReader) : Option (Nat × BitReader) := do
  let (e, br) ← br.bits (extra.getD i 0)
  some (base.getD i 0 + e, br)

/-- The loop that copies a match: byte `k` of it is `out[start + k]`. -/
def copyMatch (start len : Nat) (out : List U8) : List U8 :=
  (List.range len).foldl (fun out k => out ++ [out.getD (start + k) 0#8]) out

/-- A match, from its length symbol on: the length, then the distance. -/
def readMatch (dist : Huffman) (sym : Nat) (br : BitReader) : Option (Nat × Nat × BitReader) := do
  let (len, br) ← readValue lenBase lenExtra (sym - 257) br
  let (dsym, br) ← dist.decode br
  if 30 ≤ dsym then none
  else
    let (d, br) ← readValue distBase distExtra dsym br
    some (len, d, br)

/-- One round of `inflate_block`. -/
def blockStep (lit dist : Huffman) (limit : Nat) (s : BitReader × List U8) :
    Option ((BitReader × List U8) ⊕ (BitReader × List U8)) := do
  let (sym, br) ← lit.decode s.1
  let out := s.2
  if sym ≤ 255 then
    if limit ≤ out.length then none
    else some (.inl (br, out ++ [BitVec.ofNat 8 sym]))
  else if sym = 256 then some (.inr (br, out))
  else if sym ≤ 285 then
    let (len, d, br) ← readMatch dist sym br
    if d > out.length ∨ out.length + len > limit then none
    else some (.inl (br, copyMatch (out.length - d) len out))
  else none

def inflateBlock (lit dist : Huffman) (limit : Nat) (s : BitReader × List U8) :
    Option (BitReader × List U8) :=
  repeatFor (blockStep lit dist limit) (s.1.left + 1) s

/-! ## Dynamic blocks -/

/-- `ORDER`. -/
def order : List Nat := [16, 17, 18, 0, 8, 7, 9, 6, 10, 5, 11, 4, 12, 3, 13, 2, 14, 1, 15]

/-- The loop that reads the lengths of the code-length code. -/
def readCl : List Nat → List Nat → BitReader → Option (List Nat × BitReader)
  | [], cl, br => some (cl, br)
  | o :: os, cl, br => do
    let (v, br) ← br.bits 3
    readCl os (cl.set o v) br

/-- What stands in front of the code lengths of a dynamic block. -/
structure DynamicHead where
  hlit : Nat
  hdist : Nat
  cl : List Nat
deriving DecidableEq, Repr

def dynamicHead (br : BitReader) : Option (DynamicHead × BitReader) := do
  let (hlit, br) ← br.bits 5
  let (hdist, br) ← br.bits 5
  let (hclen, br) ← br.bits 4
  let (cl, br) ← readCl (order.take (hclen + 4)) (List.replicate 19 0) br
  some (⟨hlit + 257, hdist + 1, cl⟩, br)

/-- The code lengths while they are read: the first `i` are there. -/
structure LengthState where
  lengths : List Nat
  i : Nat
  br : BitReader
deriving DecidableEq, Repr

/-- The loop of repeat code 16. -/
def repeatPrev (prev : Nat) : Nat → List Nat → Nat → Option (List Nat × Nat)
  | 0, lengths, i => some (lengths, i)
  | n + 1, lengths, i =>
    if lengths.length ≤ i then none else repeatPrev prev n (lengths.set i prev) (i + 1)

/-- Repeat code 16: the previous length three to six times more. -/
def repeatCode (s : LengthState) (br : BitReader) : Option LengthState :=
  if s.i = 0 then none
  else do
    let prev := s.lengths.getD (s.i - 1) 0
    let (e, br) ← br.bits 2
    let (lengths, i) ← repeatPrev prev (3 + e) s.lengths s.i
    some ⟨lengths, i, br⟩

/-- Repeat codes 17 and 18: skip `least` lengths and as many more as `width` bits say. -/
def skipZeros (least width : Nat) (s : LengthState) (br : BitReader) : Option LengthState := do
  let (e, br) ← br.bits width
  some { s with i := min (s.i + (least + e)) s.lengths.length, br := br }

/-- One symbol of the code-length list, its code already read. -/
def lengthSymbol (s : LengthState) (sym : Nat) (br : BitReader) : Option LengthState :=
  if sym ≤ 15 then some ⟨s.lengths.set s.i sym, s.i + 1, br⟩
  else if sym = 16 then repeatCode s br
  else if sym = 17 then skipZeros 3 3 s br
  else if sym = 18 then skipZeros 11 7 s br
  else none

/-- One round of the loop that reads the code lengths. -/
def lengthStep (clTree : Huffman) (s : LengthState) :
    Option (LengthState ⊕ (List Nat × BitReader)) :=
  if s.i < s.lengths.length then do
    let (sym, br) ← clTree.decode s.br
    let s ← lengthSymbol s sym br
    some (.inl s)
  else some (.inr (s.lengths, s.br))

/-- The code lengths of a dynamic block, `total` of them. -/
def readLengths (clTree : Huffman) (total : Nat) (br : BitReader) :
    Option (List Nat × BitReader) :=
  repeatFor (lengthStep clTree) (br.left + 1) ⟨List.replicate total 0, 0, br⟩

/-! ## Blocks -/

/-- `LEN` and `NLEN` of a stored block, after the bits up to the next byte. -/
def storedHead (br : BitReader) : Option (Nat × Nat × BitReader) := do
  let (len, br) ← br.alignByte.bits 16
  let (nlen, br) ← br.bits 16
  some (len, nlen, br)

/-- The loop that copies the bytes of a stored block. -/
def storedBytes (limit : Nat) : Nat → BitReader × List U8 → Option (BitReader × List U8)
  | 0, s => some s
  | n + 1, s =>
    if limit ≤ s.2.length then none
    else do
      let (b, br) ← s.1.bits 8
      storedBytes limit n (br, s.2 ++ [BitVec.ofNat 8 b])

/-- The arms of `match btype`. -/
def blockBody (limit btype : Nat) (s : BitReader × List U8) : Option (BitReader × List U8) :=
  match btype with
  | 0 => do
    -- `_nlen` is read and not looked at
    let (len, _, br) ← storedHead s.1
    storedBytes limit len (br, s.2)
  | 1 => inflateBlock fixedTrees.1 fixedTrees.2 limit s
  | 2 => do
    let (head, br) ← dynamicHead s.1
    let (lengths, br) ← readLengths (Huffman.new head.cl) (head.hlit + head.hdist) br
    let lit := Huffman.new (lengths.take head.hlit)
    let dist := Huffman.new (lengths.drop head.hlit)
    inflateBlock lit dist limit (br, s.2)
  | _ => none

/-- The two fields every block begins with. -/
def blockHead (br : BitReader) : Option (Nat × Nat × BitReader) := do
  let (last, br) ← br.bits 1
  let (btype, br) ← br.bits 2
  some (last, btype, br)

/-- One round of `inflate`. -/
def inflateStep (limit : Nat) (s : BitReader × List U8) :
    Option ((BitReader × List U8) ⊕ List U8) := do
  let (last, btype, br) ← blockHead s.1
  let s ← blockBody limit btype (br, s.2)
  if last = 1 then some (.inr s.2) else some (.inl s)

def inflate (data : List U8) (limit : Nat) : Option (List U8) :=
  let br := BitReader.new data
  repeatFor (inflateStep limit) (br.left + 1) (br, [])

/-! ## Compressed images -/

def b64Val (c : U8) : Option U8 :=
  if byte 'A' ≤ c ∧ c ≤ byte 'Z' then some (c - byte 'A')
  else if byte 'a' ≤ c ∧ c ≤ byte 'z' then some (c - byte 'a' + 26#8)
  else if byte '0' ≤ c ∧ c ≤ byte '9' then some (c - byte '0' + 52#8)
  else if c = byte '+' then some 62#8
  else if c = byte '/' then some 63#8
  else none

/-- `u8::is_ascii_whitespace`. -/
def isAsciiWhitespace (c : U8) : Bool :=
  c == 0x20#8 || c == 0x09#8 || c == 0x0a#8 || c == 0x0c#8 || c == 0x0d#8

/-- The loop of `base64_decode`, with what it keeps in `acc` and `nbits`. -/
def base64From (acc : BitVec 32) (nbits : Nat) : List U8 → Option (List U8)
  | [] => some []
  | c :: s =>
    if c = byte '=' then some []
    else if isAsciiWhitespace c then base64From acc nbits s
    else
      match b64Val c with
      | none => none
      | some v =>
        let acc := (acc <<< 6) ||| v.setWidth 32
        let nbits := nbits + 6
        if 8 ≤ nbits then (base64From acc (nbits - 8) s).map ((acc >>> (nbits - 8)).setWidth 8 :: ·)
        else base64From acc nbits s

def base64Decode (s : List U8) : Option (List U8) := base64From 0#32 0 s

def zlibDecompress (data : List U8) (limit : Nat) : Option (List U8) :=
  match data with
  | cmf :: flg :: rest =>
    if cmf &&& 0x0f#8 ≠ 8#8 ∨ (cmf.toNat * 256 + flg.toNat) % 31 ≠ 0 then none
    else if flg &&& 0x20#8 ≠ 0#8 then none
    else inflate rest limit
  | _ => none

def decodeCompressedImage (b64 : List U8) (limit : Nat) : Option (List U8) :=
  (base64Decode b64).bind (zlibDecompress · limit)

end Vock.Fuzz
