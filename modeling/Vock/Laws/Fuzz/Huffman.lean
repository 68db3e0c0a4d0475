import Vock.Laws.Fuzz.BitReader
import Vock.Library.CanonicalCode

/-!
# The Huffman tables

`Huffman.new` tabulates the canonical code of its lengths: it counts the words of each length and
lists the symbols by their places (`tabulates_new`). `decode` then reads code words. A word of a code
that fits is read as its symbol (`decode_of_codeword`); and whatever `decode` has read is the word of
the symbol it answers, whether the code fits or not (`codeword_of_decode`).
-/

namespace Vock.Fuzz

open Library List

namespace Huffman

variable {h : Huffman} {lens : List Nat} {n : Nat} {pre suf : List Nat} {s : List Nat × List Nat}

/-- The table of the canonical code with the lengths `lens`. -/
structure Tabulates (h : Huffman) (lens : List Nat) : Prop where
  counts_eq : ∀ n, n ≤ maxBits → h.counts.getD n 0 = codesOf lens n
  symbols_eq : ∀ s n, lens[s]? = some n → n ≠ 0 → h.symbols[slot lens n s]? = some s

/-! ## Counts and offsets -/

theorem getD_set (l : List Nat) (i j v : Nat) :
    (l.set i v).getD j 0 = if i = j ∧ j < l.length then v else l.getD j 0 := by
  by_cases hij : i = j
  · subst hij
    by_cases hl : i < l.length
    · simp [hl]
    · simp [hl]
  · simp [hij]

private theorem count_foldl (counts : List Nat) (hn : n < counts.length) :
    (lens.foldl (fun counts l => counts.set l (counts.getD l 0 + 1)) counts).getD n 0 =
      counts.getD n 0 + lens.count n := by
  induction lens generalizing counts with
  | nil => rfl
  | cons l lens ih =>
    rw [foldl_cons, ih _ (by rwa [length_set]), getD_set, count_cons]
    by_cases hl : l = n
    · subst hl
      simp only [hn, and_self, if_true, beq_self_eq_true]
      omega
    · simp [hl]

theorem getD_countLengths (hn : n ≤ maxBits) :
    (countLengths lens).getD n 0 = codesOf lens n := by
  have inside : n < (replicate (maxBits + 1) 0).length := by
    exact Nat.lt_succ_of_le hn
  rw [countLengths, getD_set, codesOf]
  by_cases hz : n = 0
  · rw [if_pos hz]
    split
    · rfl
    · rename_i outside
      rw [getD_eq_default _ _ (Nat.le_of_not_lt fun hlt => outside ⟨hz.symm, hlt⟩)]
  · rw [if_neg (fun hc => hz hc.1.symm), if_neg hz, count_foldl _ inside,
      getD_replicate _ (by simpa using inside), Nat.zero_add]

private theorem offsets_foldl (counts : List Nat) (hc : ∀ n, n ≤ maxBits → counts.getD n 0 = codesOf lens n)
    (k : Nat) (hk : k < maxBits) :
    let offs := (range' 1 k).foldl
      (fun offs len => offs.set (len + 1) (offs.getD len 0 + counts.getD len 0))
      (replicate (maxBits + 2) 0)
    offs.length = maxBits + 2 ∧ ∀ n, n ≤ k + 1 → offs.getD n 0 = shorterCodes lens n := by
  induction k with
  | zero =>
    refine ⟨length_replicate, fun n hn => ?_⟩
    obtain rfl | rfl : n = 0 ∨ n = 1 := by omega
    · rfl
    · rfl
  | succ k ih =>
    obtain ⟨hlen, hoffs⟩ := ih (Nat.lt_of_succ_lt hk)
    rw [range'_concat, Nat.one_mul, foldl_append]
    refine ⟨by simpa using hlen, fun n hn => ?_⟩
    rw [foldl_cons, foldl_nil, getD_set, hoffs _ (by omega), hc _ (by omega)]
    by_cases hlast : 1 + k + 1 = n
    · subst hlast
      rw [if_pos ⟨rfl, by omega⟩]
      rfl
    · rw [if_neg (fun hc => hlast hc.1), hoffs n (by omega)]

/-- The symbols with words of length `n` start after those with shorter ones. -/
theorem getD_offsets (hn : n ≤ maxBits) :
    (offsets (countLengths lens)).getD n 0 = shorterCodes lens n :=
  (offsets_foldl _ (fun _ h => getD_countLengths h) (maxBits - 1) (by decide)).2 n hn

theorem length_offsets (lens : List Nat) : (offsets (countLengths lens)).length = maxBits + 2 :=
  (offsets_foldl _ (fun _ h => getD_countLengths h) (maxBits - 1) (by decide)).1

/-! ## Placing the symbols -/

/-- The first `pre.length` symbols are placed. -/
private structure Placed (lens pre : List Nat) (s : List Nat × List Nat) : Prop where
  size : s.1.length = lens.length
  offs_eq : ∀ n, n ≠ 0 → n ≤ maxBits → s.2.getD n 0 = shorterCodes lens n + pre.count n
  offs_size : s.2.length = maxBits + 2
  symbols_eq : ∀ t n, pre[t]? = some n → n ≠ 0 → s.1[slot lens n t]? = some t

private theorem getElem?_concat {l t : Nat} (ht : (pre ++ [l])[t]? = some n) :
    pre[t]? = some n ∨ t = pre.length ∧ l = n := by
  rcases Nat.lt_or_ge t pre.length with hlt | hge
  · rw [getElem?_append_left hlt] at ht
    exact .inl ht
  · rw [getElem?_append_right hge, getElem?_singleton] at ht
    split at ht
    · exact .inr ⟨by omega, Option.some.inj ht⟩
    · cases ht

private theorem placed_place {l : Nat}
    (hl : l ≤ maxBits) (p : Placed (pre ++ l :: suf) pre s) :
    Placed (pre ++ l :: suf) (pre ++ [l]) (place s (l, pre.length)) := by
  have here : (pre ++ l :: suf)[pre.length]? = some l := by simp
  have before {t n : Nat} (ht : pre[t]? = some n) : (pre ++ l :: suf)[t]? = some n := by
    obtain ⟨hlt, -⟩ := List.getElem?_eq_some_iff.mp ht
    rw [getElem?_append_left hlt, ht]
  by_cases hz : l = 0
  · have same : place s (l, pre.length) = s := if_neg (not_not.mpr hz)
    rw [same]
    refine ⟨p.size, fun n hn hle => ?_, p.offs_size, fun t n ht hn => ?_⟩
    · have other : l ≠ n := fun hc => hn (hc ▸ hz)
      simp only [p.offs_eq n hn hle, count_append, count_singleton, beq_iff_eq, if_neg other,
        Nat.add_zero]
    · rcases getElem?_concat ht with ht | ⟨-, rfl⟩
      · exact p.symbols_eq t n ht hn
      · exact absurd hz hn
  · have place_eq : s.2.getD l 0 = slot (pre ++ l :: suf) l pre.length := by
      rw [p.offs_eq l hz hl, slot, rank, take_left]
    have room : slot (pre ++ l :: suf) l pre.length < s.1.length := by
      rw [p.size]
      exact slot_lt_length here hz
    have placed : place s (l, pre.length) =
        (s.1.set (slot (pre ++ l :: suf) l pre.length) pre.length,
          s.2.set l (s.2.getD l 0 + 1)) := by
      simp only [place, if_pos hz, place_eq, if_pos room]
    rw [placed]
    refine ⟨by rw [length_set, p.size], fun n hn hle => ?_, by rw [length_set, p.offs_size],
      fun t n ht hn => ?_⟩
    · rw [getD_set, p.offs_size, p.offs_eq n hn hle, count_append]
      by_cases hln : l = n
      · subst hln
        rw [if_pos ⟨rfl, by omega⟩, p.offs_eq l hz hl, count_singleton_self, Nat.add_assoc]
      · simp only [hln, false_and, if_false, count_singleton, beq_iff_eq, Nat.add_zero]
    · rcases getElem?_concat ht with ht | ⟨rfl, rfl⟩
      · obtain ⟨hlt, -⟩ := List.getElem?_eq_some_iff.mp ht
        have apart := slot_ne (before ht) hn here hz hlt
        rw [getElem?_set_ne apart.symm, p.symbols_eq t n ht hn]
      · rw [getElem?_set_self room]

private theorem placed_foldl (pre : List Nat)
    (hle : ∀ n ∈ suf, n ≤ maxBits) (p : Placed (pre ++ suf) pre s) :
    Placed (pre ++ suf) (pre ++ suf) ((suf.zipIdx pre.length).foldl place s) := by
  induction suf generalizing pre s with
  | nil => rwa [append_nil] at p ⊢
  | cons l suf ih =>
    have next := placed_place (hle l mem_cons_self) p
    rw [append_cons] at next ⊢
    have rest := ih _ (fun n hn => hle n (mem_cons_of_mem _ hn)) next
    rwa [length_append] at rest

/-- `new` tabulates the canonical code. -/
theorem tabulates_new (hle : ∀ n ∈ lens, n ≤ maxBits) : Tabulates (new lens) lens := by
  have start : Placed lens [] (replicate lens.length 0, offsets (countLengths lens)) := by
    refine ⟨length_replicate, fun n _ hn => ?_, ?_, nofun⟩
    · rw [getD_offsets hn, count_nil, Nat.add_zero]
    · simp [length_offsets]
  exact ⟨fun n hn => getD_countLengths hn, (placed_foldl [] hle start).symbols_eq⟩

/-! ## Reading words -/

variable {br br' br₁ : BitReader} {u v w l : List Bool} {b : Bool} {k s : Nat}

/-- The loop of `decode` with the bits `u` read: no word of at most their length is among them. -/
def decodeAt (h : Huffman) (lens : List Nat) (k : Nat) (u : List Bool) (br : BitReader) :
    Option (Nat × BitReader) :=
  h.decodeFrom k (u.length + 1) (2 * codeOf u) (firstCode lens (u.length + 1))
    (shorterCodes lens (u.length + 1)) br

/-- The bits `u` are past all words of their length. -/
def Past (lens : List Nat) (u : List Bool) : Prop :=
  firstCode lens u.length + codesOf lens u.length ≤ codeOf u

theorem Past.firstCode_le (hp : Past lens u) :
    firstCode lens (u.length + 1) ≤ codeOf (u ++ [b]) := by
  rw [codeOf_concat]
  exact Nat.le_trans (Nat.mul_le_mul_left 2 hp) (Nat.le_add_right _ _)

private theorem or_bit (c : Nat) (b : Bool) : 2 * c ||| b.toNat = 2 * c + b.toNat :=
  (Nat.two_pow_add_eq_or_of_lt (i := 1) (Nat.lt_succ_of_le b.toNat_le) c).symm

/-- A round of `decode` that finds a word. -/
theorem decodeAt_found (t : Tabulates h lens) (hp : Past lens u) (hk : u.length < maxBits)
    (hb : br.bits 1 = some (b.toNat, br₁))
    (hlt : codeOf (u ++ [b]) < firstCode lens (u.length + 1) + codesOf lens (u.length + 1)) :
    decodeAt h lens (k + 1) u br =
      (h.symbols[shorterCodes lens (u.length + 1) +
        (codeOf (u ++ [b]) - firstCode lens (u.length + 1))]?).map (·, br₁) := by
  have ge := hp.firstCode_le (b := b)
  have index : (shorterCodes lens (u.length + 1) : Int) +
      ((codeOf (u ++ [b]) : Int) - firstCode lens (u.length + 1)) =
        ((shorterCodes lens (u.length + 1) +
          (codeOf (u ++ [b]) - firstCode lens (u.length + 1)) : Nat) : Int) := by omega
  simp only [decodeAt, decodeFrom, hb, Option.bind_eq_bind, Option.bind_some, or_bit,
    ← codeOf_concat, t.counts_eq (u.length + 1) hk, index, Int.toNat_natCast]
  rw [if_pos (by omega), if_neg (by omega)]

/-- A round of `decode` that goes on to the next length. -/
theorem decodeAt_next (t : Tabulates h lens) (hk : u.length < maxBits)
    (hb : br.bits 1 = some (b.toNat, br₁))
    (hge : firstCode lens (u.length + 1) + codesOf lens (u.length + 1) ≤ codeOf (u ++ [b])) :
    decodeAt h lens (k + 1) u br = decodeAt h lens k (u ++ [b]) br₁ := by
  simp only [decodeAt, decodeFrom, hb, Option.bind_eq_bind, Option.bind_some, or_bit,
    ← codeOf_concat, t.counts_eq (u.length + 1) hk]
  rw [if_neg (by omega), Nat.shiftLeft_eq, Nat.shiftLeft_eq, Nat.mul_comm _ 2,
    Nat.mul_comm _ 2, length_append]
  rfl

private theorem decodeAt_of_codeword (t : Tabulates h lens) (hs : lens[s]? = some n)
    (hn : n ≠ 0) (hle : n ≤ maxBits) (hw : codeOf (u ++ v) = firstCode lens n + rank lens n s)
    (hlen : (u ++ v).length = n) (hv : v ≠ []) (hk : u.length + k = maxBits)
    (hbr : Holds br (v ++ l)) : ∃ br', decodeAt h lens k u br = some (s, br') ∧ Holds br' l := by
  have past {u v : List Bool} (hv : v ≠ []) (hlen : (u ++ v).length = n)
      (hw : codeOf (u ++ v) = firstCode lens n + rank lens n s) : Past lens u :=
    codeOf_take_ge hv (by rw [hlen, hw]; exact Nat.le_add_right _ _)
  induction v generalizing u k br with
  | nil => exact absurd rfl hv
  | cons b v ih =>
    have short : u.length < maxBits := by
      rw [length_append, length_cons] at hlen
      omega
    obtain ⟨k, rfl⟩ : ∃ k', k = k' + 1 := ⟨k - 1, by omega⟩
    obtain ⟨br₁, hb, hbr₁⟩ := BitReader.bits_of_holds (u := [b]) hbr (show 1 ≤ 16 by decide)
    rw [append_cons] at hw hlen
    by_cases hnil : v = []
    · -- the last bit of the word
      subst hnil
      rw [append_nil] at hw hlen
      rw [length_append, length_singleton] at hlen
      have below := rank_lt_count hs
      have found : codeOf (u ++ [b]) < firstCode lens (u.length + 1) + codesOf lens (u.length + 1) := by
        rw [hlen, codesOf_of_ne_zero hn]
        omega
      refine ⟨br₁, ?_, hbr₁⟩
      rw [decodeAt_found t (past hv (by rw [length_append, length_singleton, hlen]) hw) short
        hb found, hw, hlen, Nat.add_sub_cancel_left, ← slot, t.symbols_eq s n hs hn]
      rfl
    · have on := past hnil hlen hw
      rw [Past, length_append] at on
      rw [decodeAt_next t short hb on]
      refine ih hw hlen hnil ?_ hbr₁
      rw [length_append, length_singleton]
      omega

/-- Where the code fits, the word of a symbol is read as the symbol. -/
theorem decode_of_codeword (hle : ∀ n ∈ lens, n ≤ maxBits) (fits : Fits maxBits lens)
    (hw : codeword lens s = some w) (hbr : Holds br (w ++ l)) :
    ∃ br', (new lens).decode br = some (s, br') ∧ Holds br' l := by
  obtain ⟨n, hs, hn, hcw⟩ := codeword_eq_some_iff.mp hw
  have short : n ≤ maxBits := hle n (mem_of_getElem? hs)
  have len : w.length = n := by rw [hcw, length_codeBits]
  have nonempty : w ≠ [] := fun hc => hn (by rw [← len, hc]; rfl)
  exact decodeAt_of_codeword (tabulates_new hle) (u := []) hs hn short
    (codeOf_codeword fits hs hn short hcw) len nonempty (Nat.zero_add _) hbr

private theorem codeword_of_decodeAt (t : Tabulates h lens) (hp : Past lens u)
    (hk : u.length + k = maxBits) (hbr : Holds br l)
    (hd : decodeAt h lens k u br = some (s, br')) :
    ∃ v l', l = v ++ l' ∧ codeword lens s = some (u ++ v) ∧ Holds br' l' := by
  induction k generalizing u br l with
  | zero => cases hd
  | succ k ih =>
    cases hb : br.bits 1 with
    | none => simp [decodeAt, decodeFrom, hb] at hd
    | some r =>
      obtain ⟨x, br₁⟩ := r
      obtain ⟨v₀, l₁, rfl, hlen, rfl, hbr₁⟩ := BitReader.holds_of_bits hbr (by decide) hb
      obtain ⟨b, rfl⟩ := length_eq_one_iff.mp hlen
      have value : natOfBits [b] = b.toNat := rfl
      by_cases hlt : codeOf (u ++ [b]) < firstCode lens (u.length + 1) + codesOf lens (u.length + 1)
      · rw [decodeAt_found t hp (by omega) hb hlt] at hd
        have ge := hp.firstCode_le (b := b)
        have below : codeOf (u ++ [b]) - firstCode lens (u.length + 1) < lens.count (u.length + 1) := by
          exact Nat.sub_lt_left_of_lt_add ge hlt
        obtain ⟨s₀, hs₀, hrank⟩ := exists_rank_eq below
        rw [← hrank, ← slot, t.symbols_eq s₀ _ hs₀ (Nat.succ_ne_zero _)] at hd
        cases hd
        refine ⟨[b], l₁, rfl, codeword_eq_some_iff.mpr ⟨_, hs₀, Nat.succ_ne_zero _, ?_⟩, hbr₁⟩
        have len : u.length + 1 = (u ++ [b]).length := by
          rw [length_append, length_singleton]
        rw [hrank, Nat.add_sub_cancel' ge, len, codeBits_codeOf]
      · rw [decodeAt_next t (by omega) hb (Nat.le_of_not_lt hlt)] at hd
        have past : Past lens (u ++ [b]) := by
          rw [Past, length_append]
          exact Nat.le_of_not_lt hlt
        obtain ⟨v, l', rfl, hcw, hbr'⟩ := ih past (by simp; omega) hbr₁ hd
        exact ⟨b :: v, l', rfl, by rw [hcw, append_assoc]; rfl, hbr'⟩

/-- What `decode` has read is the word of the symbol it answers. -/
theorem codeword_of_decode (hle : ∀ n ∈ lens, n ≤ maxBits) (hbr : Holds br l)
    (hd : (new lens).decode br = some (s, br')) :
    ∃ w l', l = w ++ l' ∧ codeword lens s = some w ∧ Holds br' l' :=
  codeword_of_decodeAt (tabulates_new hle) (u := []) (Nat.zero_le _) (Nat.zero_add _) hbr hd

/-- A word has at least one bit. -/
theorem left_decode (hd : h.decode br = some (s, br')) : br'.left < br.left := by
  have loop {k len code first index : Nat} {br : BitReader}
      (hd : h.decodeFrom k len code first index br = some (s, br')) : br'.left < br.left := by
    induction k generalizing len code first index br with
    | zero => cases hd
    | succ k ih =>
      obtain ⟨⟨b, br₁⟩, hb, hd⟩ := Option.bind_eq_some_iff.mp hd
      have read := BitReader.left_bits hb
      dsimp only at hd
      split at hd
      · obtain ⟨sym, -, hret⟩ := Option.map_eq_some_iff.mp hd
        cases hret
        omega
      · have rest := ih hd
        omega
  exact loop hd

end Huffman

end Vock.Fuzz
