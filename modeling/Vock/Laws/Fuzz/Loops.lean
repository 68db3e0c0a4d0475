import Vock.Laws.Fuzz.Huffman

/-!
# The loops of inflate

Every round of every loop reads at least one bit, so the bounds the loops are run with are never
reached: each loop answers what `Ends` says (`inflateBlock_eq_some_iff`, `readLengths_eq_some_iff`,
`inflate_eq_some_iff`). Everything else is proved from `Ends`.
-/

namespace Vock.Fuzz

open Library

variable {s r : BitReader × List U8} {s' : LengthState}

variable {br br' : BitReader} {lit dist clTree : Huffman} {limit : Nat} {len sym total btype : Nat}

theorem BitReader.left_alignByte (br : BitReader) : br.alignByte.left ≤ br.left := by
  simp only [BitReader.alignByte, BitReader.left]
  omega

/-! ## Compressed data -/

theorem left_readValue {base extra : List Nat} {i v : Nat}
    (h : readValue base extra i br = some (v, br')) : br'.left ≤ br.left := by
  obtain ⟨⟨e, br₁⟩, he, hret⟩ := Option.bind_eq_some_iff.mp h
  cases hret
  exact BitReader.left_bits_le he

theorem left_readMatch {d : Nat} (h : readMatch dist sym br = some (len, d, br')) :
    br'.left ≤ br.left := by
  simp only [readMatch, Option.bind_eq_bind, Option.bind_eq_some_iff, Prod.exists] at h
  obtain ⟨len', br₁, hlen, dsym, br₂, hsym, h⟩ := h
  split at h
  · cases h
  · simp only [Option.bind_eq_some_iff, Prod.exists] at h
    obtain ⟨d', br₃, hd, hret⟩ := h
    cases hret
    have := left_readValue hlen
    have := Huffman.left_decode hsym
    have := left_readValue hd
    omega

/-- A round of `inflate_block` reads at least one bit, whether it goes on or not. -/
theorem left_blockStep {x : (BitReader × List U8) ⊕ (BitReader × List U8)} (h : blockStep lit dist limit s = some x) :
    (Sum.elim Prod.fst Prod.fst x).left < s.1.left := by
  obtain ⟨⟨sym, br₁⟩, hsym, h⟩ := Option.bind_eq_some_iff.mp h
  have read := Huffman.left_decode hsym
  dsimp only at h
  split at h
  · split at h
    · cases h
    · cases h; exact read
  · split at h
    · cases h; exact read
    · split at h
      · obtain ⟨⟨len, d, br₂⟩, hm, h⟩ := Option.bind_eq_some_iff.mp h
        have more := left_readMatch hm
        split at h
        · cases h
        · cases h; exact Nat.lt_of_le_of_lt more read
      · cases h

theorem inflateBlock_eq_some_iff : inflateBlock lit dist limit s = some r ↔ Ends (blockStep lit dist limit) s r := by
  have lowers : ∀ s s', Continues (blockStep lit dist limit) s s' → s'.1.left < s.1.left :=
    fun _ _ h => left_blockStep h
  exact repeatFor_eq_some_iff lowers (Nat.lt_succ_self s.1.left) r

theorem left_inflateBlock (h : inflateBlock lit dist limit s = some r) : r.1.left ≤ s.1.left :=
  (inflateBlock_eq_some_iff.mp h).invariant (P := fun t => t.1.left ≤ s.1.left)
    (fun _ _ hstep hle => Nat.le_trans (left_blockStep hstep).le hle)
    (fun _ _ hstep hle => Nat.le_trans (left_blockStep hstep).le hle) (Nat.le_refl _)

/-! ## Dynamic blocks -/

theorem left_readCl {os cl cl' : List Nat} (h : readCl os cl br = some (cl', br')) :
    br'.left ≤ br.left := by
  induction os generalizing cl br with
  | nil => cases h; exact Nat.le_refl _
  | cons o os ih =>
    obtain ⟨⟨v, br₁⟩, hv, h⟩ := Option.bind_eq_some_iff.mp h
    have := BitReader.left_bits hv
    have := ih h
    omega

theorem left_dynamicHead {head : DynamicHead} (h : dynamicHead br = some (head, br')) :
    br'.left ≤ br.left := by
  obtain ⟨⟨hlit, br₁⟩, h₁, h⟩ := Option.bind_eq_some_iff.mp h
  obtain ⟨⟨hdist, br₂⟩, h₂, h⟩ := Option.bind_eq_some_iff.mp h
  obtain ⟨⟨hclen, br₃⟩, h₃, h⟩ := Option.bind_eq_some_iff.mp h
  obtain ⟨⟨cl, br₄⟩, h₄, hret⟩ := Option.bind_eq_some_iff.mp h
  cases hret
  have := BitReader.left_bits h₁
  have := BitReader.left_bits h₂
  have := BitReader.left_bits h₃
  have := left_readCl h₄
  omega

theorem left_skipZeros {least width : Nat} {s : LengthState}
    (h : skipZeros least width s br = some s') : s'.br.left ≤ br.left := by
  obtain ⟨⟨e, br₁⟩, he, hret⟩ := Option.bind_eq_some_iff.mp h
  cases hret
  exact BitReader.left_bits_le he

theorem left_repeatCode {s : LengthState} (h : repeatCode s br = some s') : s'.br.left ≤ br.left := by
  rw [repeatCode] at h
  split at h
  · cases h
  · obtain ⟨⟨e, br₁⟩, he, h⟩ := Option.bind_eq_some_iff.mp h
    obtain ⟨⟨lengths, i⟩, -, hret⟩ := Option.bind_eq_some_iff.mp h
    cases hret
    exact BitReader.left_bits_le he

theorem left_lengthSymbol {s : LengthState} (h : lengthSymbol s sym br = some s') :
    s'.br.left ≤ br.left := by
  rw [lengthSymbol] at h
  split at h
  · cases h; exact Nat.le_refl _
  · split at h
    · exact left_repeatCode h
    · split at h
      · exact left_skipZeros h
      · split at h
        · exact left_skipZeros h
        · cases h

theorem left_lengthStep {s : LengthState} (h : Continues (lengthStep clTree) s s') : s'.br.left < s.br.left := by
  rw [Continues, lengthStep] at h
  split at h
  · obtain ⟨⟨sym, br₁⟩, hsym, h⟩ := Option.bind_eq_some_iff.mp h
    obtain ⟨t, ht, hret⟩ := Option.bind_eq_some_iff.mp h
    cases hret
    exact Nat.lt_of_le_of_lt (left_lengthSymbol ht) (Huffman.left_decode hsym)
  · cases h

theorem readLengths_eq_some_iff {r : List Nat × BitReader} :
    readLengths clTree total br = some r ↔
      Ends (lengthStep clTree) ⟨List.replicate total 0, 0, br⟩ r := by
  have lowers : ∀ s s', Continues (lengthStep clTree) s s' → s'.br.left < s.br.left :=
    fun _ _ h => left_lengthStep h
  exact repeatFor_eq_some_iff lowers (Nat.lt_succ_self br.left) r

theorem left_readLengths {lengths : List Nat}
    (h : readLengths clTree total br = some (lengths, br')) : br'.left ≤ br.left := by
  refine (readLengths_eq_some_iff.mp h).invariant (P := fun t => t.br.left ≤ br.left)
    (Q := fun r => r.2.left ≤ br.left)
    (fun _ _ hstep hle => Nat.le_trans (left_lengthStep hstep).le hle) (fun s r hret hle => ?_)
    (Nat.le_refl _)
  rw [lengthStep] at hret
  split at hret
  · obtain ⟨_, -, hret⟩ := Option.bind_eq_some_iff.mp hret
    obtain ⟨_, -, hret⟩ := Option.bind_eq_some_iff.mp hret
    cases hret
  · cases hret; exact hle

/-! ## Blocks -/

theorem left_storedHead {nlen : Nat} (h : storedHead br = some (len, nlen, br')) :
    br'.left ≤ br.left := by
  obtain ⟨⟨len', br₁⟩, h₁, h⟩ := Option.bind_eq_some_iff.mp h
  obtain ⟨⟨nlen', br₂⟩, h₂, hret⟩ := Option.bind_eq_some_iff.mp h
  cases hret
  have := br.left_alignByte
  have := BitReader.left_bits h₁
  have := BitReader.left_bits h₂
  omega

theorem left_storedBytes {n : Nat} (h : storedBytes limit n s = some r) : r.1.left ≤ s.1.left := by
  induction n generalizing s with
  | zero => cases h; exact Nat.le_refl _
  | succ n ih =>
    rw [storedBytes] at h
    split at h
    · cases h
    · obtain ⟨⟨b, br₁⟩, hb, h⟩ := Option.bind_eq_some_iff.mp h
      have := BitReader.left_bits hb
      have : r.1.left ≤ br₁.left := ih h
      omega

theorem left_blockBody (h : blockBody limit btype s = some r) : r.1.left ≤ s.1.left := by
  match btype with
  | 0 =>
    obtain ⟨⟨len, nlen, br₁⟩, h₁, h⟩ := Option.bind_eq_some_iff.mp h
    exact Nat.le_trans (left_storedBytes h) (left_storedHead h₁)
  | 1 => exact left_inflateBlock h
  | 2 =>
    obtain ⟨⟨head, br₁⟩, h₁, h⟩ := Option.bind_eq_some_iff.mp h
    obtain ⟨⟨lengths, br₂⟩, h₂, h⟩ := Option.bind_eq_some_iff.mp h
    exact (left_inflateBlock h).trans ((left_readLengths h₂).trans (left_dynamicHead h₁))
  | _ + 3 => cases h

theorem left_blockHead {last : Nat} (h : blockHead br = some (last, btype, br')) :
    br'.left + 3 = br.left := by
  obtain ⟨⟨last', br₁⟩, h₁, h⟩ := Option.bind_eq_some_iff.mp h
  obtain ⟨⟨btype', br₂⟩, h₂, hret⟩ := Option.bind_eq_some_iff.mp h
  cases hret
  have := BitReader.left_bits h₁
  have := BitReader.left_bits h₂
  omega

/-- A round of `inflate` is a block, and whether it was the last one. -/
theorem inflateStep_eq_some_iff {x : (BitReader × List U8) ⊕ List U8} :
    inflateStep limit s = some x ↔
      ∃ last btype br₁ r, blockHead s.1 = some (last, btype, br₁) ∧
        blockBody limit btype (br₁, s.2) = some r ∧
          x = if last = 1 then .inr r.2 else .inl r := by
  constructor
  · intro h
    obtain ⟨⟨last, btype, br₁⟩, hhead, h⟩ := Option.bind_eq_some_iff.mp h
    obtain ⟨r, hbody, hret⟩ := Option.bind_eq_some_iff.mp h
    refine ⟨last, btype, br₁, r, hhead, hbody, ?_⟩
    split at hret
    · rw [if_pos ‹_›]; exact (Option.some.inj hret).symm
    · rw [if_neg ‹_›]; exact (Option.some.inj hret).symm
  · rintro ⟨last, btype, br₁, r, hhead, hbody, rfl⟩
    simp only [inflateStep, hhead, hbody, Option.bind_eq_bind, Option.bind_some]
    split
    · rfl
    · rfl

theorem left_inflateStep {s' : BitReader × List U8} (h : Continues (inflateStep limit) s s') :
    s'.1.left < s.1.left := by
  obtain ⟨last, btype, br₁, r, hhead, hbody, hx⟩ := inflateStep_eq_some_iff.mp h
  have := left_blockHead hhead
  have : r.1.left ≤ br₁.left := left_blockBody hbody
  split at hx
  · cases hx
  · cases hx
    omega

theorem inflate_eq_some_iff {data out : List U8} :
    inflate data limit = some out ↔ Ends (inflateStep limit) (BitReader.new data, []) out := by
  have lowers : ∀ s s', Continues (inflateStep limit) s s' → s'.1.left < s.1.left :=
    fun _ _ h => left_inflateStep h
  exact repeatFor_eq_some_iff lowers (Nat.lt_succ_self (BitReader.new data).left) out

end Vock.Fuzz
