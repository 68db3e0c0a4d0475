import Vock.Fuzz.Inflate
import Vock.Library.Checked

/-!
# Inflate, as the machine checks it

The functions of `vock/src/fuzz/inflate.rs` once more, with every index, bound and number tested as the program tests
it: an index outside of its array, a number that does not fit its type, a shift by the width of its type or more, and
a vector of more than `isize::MAX` bytes are faults, and so is a loop that goes on past the bound that
`Vock.Fuzz.Inflate` runs it with. Names are those of that module.

A shift that loses bits is no fault in the source, but counts as one here.
-/

namespace Vock.Fuzz.Machine

open Library Checked

/-! ## Numbers -/

/-- `x << n` in a `u32`. -/
def shl (x : BitVec 32) (n : Nat) : Checked (BitVec 32) := if n < 32 then pure (x <<< n) else stop .overflow

/-- `x >> n` in a `u32`. -/
def shr (x : BitVec 32) (n : Nat) : Checked (BitVec 32) := if n < 32 then pure (x >>> n) else stop .overflow

/-- `x - 1` in a `u32`. -/
def pred (x : BitVec 32) : Checked (BitVec 32) := if x = 0#32 then stop .overflow else pure (x - 1#32)

/-- A number in an `i32`. -/
def i32 (x : Int) : Checked Int := if -2 ^ 31 ≤ x ∧ x < 2 ^ 31 then pure x else stop .overflow

/-- `x as usize` of an `i32`. -/
def asUsize (x : Int) : Nat := (x % 2 ^ 64).toNat

/-! ## Bit reader -/

def fill (n : Nat) : List U8 → BitVec 32 → Nat → Checked BitReader
  | [], buf, cnt => if cnt < n then failure else pure ⟨[], buf, cnt⟩
  | b :: rest, buf, cnt =>
    if cnt < n then do
      let bits ← shl (b.setWidth 32) cnt
      let more ← fit 32 (cnt + 8)
      fill n rest (buf ||| bits) more
    else pure ⟨b :: rest, buf, cnt⟩

def bits (br : BitReader) (n : Nat) : Checked (Nat × BitReader) :=
  if n = 0 then pure (0, br)
  else do
    let br ← fill n br.rest br.buf br.cnt
    let one ← shl 1#32 n
    let mask ← pred one
    let buf ← shr br.buf n
    let cnt ← sub br.cnt n
    pure ((br.buf &&& mask).toNat, { br with buf, cnt })

def alignByte (br : BitReader) : Checked BitReader := do
  let drop := br.cnt % 8
  let buf ← shr br.buf drop
  let cnt ← sub br.cnt drop
  pure { br with buf, cnt }

/-! ## Huffman tables -/

/-- One round of the first loop of `new`. -/
def count (counts : List Nat) (l : Nat) : Checked (List Nat) := do
  let c ← get counts l
  let c ← fit 16 (c + 1)
  put counts l c

def countLengths (lengths : List Nat) : Checked (List Nat) := do
  let counts ← lengths.foldlM count (List.replicate (maxBits + 1) 0)
  put counts 0 0

/-- One round of the second loop of `new`. -/
def offset (counts offs : List Nat) (len : Nat) : Checked (List Nat) := do
  let o ← get offs len
  let c ← get counts len
  let next ← fit 16 (o + c)
  put offs (len + 1) next

def offsets (counts : List Nat) : Checked (List Nat) :=
  (List.range' 1 (maxBits - 1)).foldlM (offset counts) (List.replicate (maxBits + 2) 0)

def place (s : List Nat × List Nat) (entry : Nat × Nat) : Checked (List Nat × List Nat) :=
  let (l, sym) := entry
  if l ≠ 0 then do
    let slot ← get s.2 l
    let symbols ← (if slot < s.1.length then put s.1 slot (sym % 2 ^ 16) else pure s.1)
    let o ← get s.2 l
    let o ← fit 16 (o + 1)
    let offs ← put s.2 l o
    pure (symbols, offs)
  else pure s

def new (lengths : List Nat) : Checked Huffman := do
  let counts ← countLengths lengths
  let offs ← offsets counts
  let placed ← lengths.zipIdx.foldlM place (List.replicate lengths.length 0, offs)
  pure ⟨counts, placed.1⟩

/-- `code`, `first` and `index` are never negative. -/
def decodeFrom (h : Huffman) : Nat → Nat → Nat → Nat → Nat → BitReader → Checked (Nat × BitReader)
  | 0, _, _, _, _, _ => failure
  | n + 1, len, code, first, index, br => do
    let (b, br) ← bits br 1
    let code := code ||| b
    let count ← get h.counts len
    let below ← i32 ((code : Int) - count)
    if below < first then
      let rank ← i32 ((code : Int) - first)
      let i ← i32 (index + rank)
      let sym ← of h.symbols[asUsize i]?
      pure (sym, br)
    else
      let index ← fit 31 (index + count)
      let first ← fit 31 (first + count)
      let first ← fit 31 (first <<< 1)
      let code ← fit 31 (code <<< 1)
      decodeFrom h n (len + 1) code first index br

def decode (h : Huffman) (br : BitReader) : Checked (Nat × BitReader) := decodeFrom h maxBits 1 0 0 0 br

def fixedTrees : Checked (Huffman × Huffman) := do
  let lit ← new fixedLit
  let dist ← new fixedDist
  pure (lit, dist)

/-! ## Compressed data -/

/-- A byte more in a vector. -/
def push (out : List U8) (b : U8) : Checked (List U8) :=
  if out.length < 2 ^ 63 - 1 then pure (out ++ [b]) else stop .capacity

def readValue (base extra : List Nat) (i : Nat) (br : BitReader) : Checked (Nat × BitReader) := do
  let b ← get base i
  let n ← get extra i
  let (e, br) ← bits br n
  let v ← fit 64 (b + e)
  pure (v, br)

/-- One round of the loop that copies a match. -/
def copyByte (start : Nat) (out : List U8) (k : Nat) : Checked (List U8) := do
  let i ← fit 64 (start + k)
  let b ← get out i
  push out b

def copyMatch (start len : Nat) (out : List U8) : Checked (List U8) := (List.range len).foldlM (copyByte start) out

def readMatch (dist : Huffman) (sym : Nat) (br : BitReader) : Checked (Nat × Nat × BitReader) := do
  let i ← sub sym 257
  let (len, br) ← readValue lenBase lenExtra i br
  let (dsym, br) ← decode dist br
  if 30 ≤ dsym then failure
  else
    let (d, br) ← readValue distBase distExtra dsym br
    pure (len, d, br)

/-- What is done with a match. The sum is only taken where the distance is not too long. -/
def takeMatch (limit len d : Nat) (br : BitReader) (out : List U8) :
    Checked ((BitReader × List U8) ⊕ (BitReader × List U8)) :=
  if d > out.length then failure
  else do
    let total ← fit 64 (out.length + len)
    if total > limit then failure
    else
      let start ← sub out.length d
      let out ← copyMatch start len out
      pure (.inl (br, out))

def blockStep (lit dist : Huffman) (limit : Nat) (s : BitReader × List U8) :
    Checked ((BitReader × List U8) ⊕ (BitReader × List U8)) := do
  let (sym, br) ← decode lit s.1
  let out := s.2
  if sym ≤ 255 then
    if limit ≤ out.length then failure
    else
      let out ← push out (BitVec.ofNat 8 sym)
      pure (.inl (br, out))
  else if sym = 256 then pure (.inr (br, out))
  else if sym ≤ 285 then
    let (len, d, br) ← readMatch dist sym br
    takeMatch limit len d br out
  else failure

def inflateBlock (lit dist : Huffman) (limit : Nat) (s : BitReader × List U8) : Checked (BitReader × List U8) :=
  Checked.repeatFor (blockStep lit dist limit) (s.1.left + 1) s

/-! ## Dynamic blocks -/

def readCl : List Nat → List Nat → BitReader → Checked (List Nat × BitReader)
  | [], cl, br => pure (cl, br)
  | o :: os, cl, br => do
    let (v, br) ← bits br 3
    let cl ← put cl o v
    readCl os cl br

def dynamicHead (br : BitReader) : Checked (DynamicHead × BitReader) := do
  let (hlit, br) ← bits br 5
  let hlit ← fit 64 (hlit + 257)
  let (hdist, br) ← bits br 5
  let hdist ← fit 64 (hdist + 1)
  let (hclen, br) ← bits br 4
  let hclen ← fit 64 (hclen + 4)
  let (cl, br) ← readCl (order.take hclen) (List.replicate 19 0) br
  pure (⟨hlit, hdist, cl⟩, br)

def repeatPrev (prev : Nat) : Nat → List Nat → Nat → Checked (List Nat × Nat)
  | 0, lengths, i => pure (lengths, i)
  | n + 1, lengths, i =>
    if lengths.length ≤ i then failure
    else do
      let lengths ← put lengths i prev
      let i ← fit 64 (i + 1)
      repeatPrev prev n lengths i

def repeatCode (s : LengthState) (br : BitReader) : Checked LengthState :=
  if s.i = 0 then failure
  else do
    let last ← sub s.i 1
    let prev ← get s.lengths last
    let (e, br) ← bits br 2
    let n ← fit 64 (3 + e)
    let (lengths, i) ← repeatPrev prev n s.lengths s.i
    pure ⟨lengths, i, br⟩

def skipZeros (least width : Nat) (s : LengthState) (br : BitReader) : Checked LengthState := do
  let (e, br) ← bits br width
  let n ← fit 64 (least + e)
  let i ← fit 64 (s.i + n)
  pure { s with i := min i s.lengths.length, br := br }

def lengthSymbol (s : LengthState) (sym : Nat) (br : BitReader) : Checked LengthState :=
  if sym ≤ 15 then do
    let lengths ← put s.lengths s.i (sym % 2 ^ 8)
    let i ← fit 64 (s.i + 1)
    pure ⟨lengths, i, br⟩
  else if sym = 16 then repeatCode s br
  else if sym = 17 then skipZeros 3 3 s br
  else if sym = 18 then skipZeros 11 7 s br
  else failure

def lengthStep (clTree : Huffman) (s : LengthState) : Checked (LengthState ⊕ (List Nat × BitReader)) :=
  if s.i < s.lengths.length then do
    let (sym, br) ← decode clTree s.br
    let s ← lengthSymbol s sym br
    pure (.inl s)
  else pure (.inr (s.lengths, s.br))

def readLengths (clTree : Huffman) (total : Nat) (br : BitReader) : Checked (List Nat × BitReader) :=
  Checked.repeatFor (lengthStep clTree) (br.left + 1) ⟨List.replicate total 0, 0, br⟩

/-! ## Blocks -/

def storedHead (br : BitReader) : Checked (Nat × Nat × BitReader) := do
  let br ← alignByte br
  let (len, br) ← bits br 16
  let (nlen, br) ← bits br 16
  pure (len, nlen, br)

def storedBytes (limit : Nat) : Nat → BitReader × List U8 → Checked (BitReader × List U8)
  | 0, s => pure s
  | n + 1, s =>
    if limit ≤ s.2.length then failure
    else do
      let (b, br) ← bits s.1 8
      let out ← push s.2 (BitVec.ofNat 8 b)
      storedBytes limit n (br, out)

/-- The tables of a dynamic block: `lengths[..hlit]` and `lengths[hlit..]`. -/
def dynamicTrees (hlit : Nat) (lengths : List Nat) : Checked (Huffman × Huffman) :=
  if hlit ≤ lengths.length then do
    let lit ← new (lengths.take hlit)
    let dist ← new (lengths.drop hlit)
    pure (lit, dist)
  else stop .index

def blockBody (limit btype : Nat) (s : BitReader × List U8) : Checked (BitReader × List U8) :=
  match btype with
  | 0 => do
    let (len, _, br) ← storedHead s.1
    storedBytes limit len (br, s.2)
  | 1 => do
    let trees ← fixedTrees
    inflateBlock trees.1 trees.2 limit s
  | 2 => do
    let (head, br) ← dynamicHead s.1
    let clTree ← new head.cl
    let total ← fit 64 (head.hlit + head.hdist)
    let (lengths, br) ← readLengths clTree total br
    let trees ← dynamicTrees head.hlit lengths
    inflateBlock trees.1 trees.2 limit (br, s.2)
  | _ => failure

def blockHead (br : BitReader) : Checked (Nat × Nat × BitReader) := do
  let (last, br) ← bits br 1
  let (btype, br) ← bits br 2
  pure (last, btype, br)

def inflateStep (limit : Nat) (s : BitReader × List U8) : Checked ((BitReader × List U8) ⊕ List U8) := do
  let (last, btype, br) ← blockHead s.1
  let s ← blockBody limit btype (br, s.2)
  if last = 1 then pure (.inr s.2) else pure (.inl s)

def inflate (data : List U8) (limit : Nat) : Checked (List U8) :=
  let br := BitReader.new data
  Checked.repeatFor (inflateStep limit) (br.left + 1) (br, [])

/-! ## Compressed images -/

def zlibDecompress (data : List U8) (limit : Nat) : Checked (List U8) :=
  if data.length < 2 then failure
  else do
    let cmf ← get data 0
    let flg ← get data 1
    let check ← fit 16 (cmf.toNat * 256 + flg.toNat)
    if cmf &&& 0x0f#8 ≠ 8#8 ∨ check % 31 ≠ 0 then failure
    else if flg &&& 0x20#8 ≠ 0#8 then failure
    else
      let rest ← slice data 2 data.length
      inflate rest limit

def decodeCompressedImage (b64 : List U8) (limit : Nat) : Checked (List U8) := do
  let raw ← of (base64Decode b64)
  zlibDecompress raw limit

end Vock.Fuzz.Machine
