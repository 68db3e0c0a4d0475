import Vock.Fuzz.InflateChecked
import Vock.Laws.Fuzz.Loops

/-!
# No fault in inflate

The checked decoder computes what `inflate` does, whatever the data: no index, bound or number is wrong, and no loop
goes on past its bound (`computes_inflate`). The one fault that is left is a vector of `isize::MAX` bytes that is to
hold one more, which takes a limit past that.
-/

namespace Vock.Fuzz.Machine

open Library Checked

variable {i total bound len limit sym : Nat} {s : BitReader × List U8} {lengths : List Nat} {dist : Huffman}
  {out : List U8}

variable {may : Fault → Prop} {br : BitReader} {n limit : Nat}
  {l : List Nat} {code first index : Nat} {h lit : Huffman}

/-! ## Bit reader -/

theorem shl_eq (h : n < 32) (x : BitVec 32) : shl x n = pure (x <<< n) := if_pos h

theorem shr_eq (h : n < 32) (x : BitVec 32) : shr x n = pure (x >>> n) := if_pos h

theorem i32_eq {x : Int} (low : -2 ^ 31 ≤ x) (high : x < 2 ^ 31) : i32 x = pure x := if_pos ⟨low, high⟩

theorem pred_shl (h : n ≤ 16) : pred (1#32 <<< n) = pure ((1#32 <<< n) - 1#32) := by
  refine if_neg fun hz => ?_
  have small : 2 ^ n ≤ 2 ^ 16 := Nat.pow_le_pow_right (by omega) h
  have shifted : (1#32 <<< n).toNat = 2 ^ n := by
    rw [BitVec.toNat_shiftLeft, Nat.shiftLeft_eq, BitVec.toNat_ofNat, Nat.one_mul,
      Nat.mod_eq_of_lt (by omega)]
  have pos := Nat.two_pow_pos n
  rw [hz, BitVec.toNat_ofNat] at shifted
  omega

theorem computes_fill (hn : n ≤ 16) {rest : List U8} {buf : BitVec 32} {cnt : Nat} (hcnt : cnt < n + 8) :
    Computes may (fill n rest buf cnt) (BitReader.fill n rest buf cnt) fun br => n ≤ br.cnt ∧ br.cnt < n + 8 := by
  induction rest generalizing buf cnt with
  | nil =>
    exact .ite (fun _ => .giveUp) fun enough => .answer ⟨Nat.not_lt.mp enough, hcnt⟩
  | cons b rest ih =>
    refine .ite (fun short => ?_) fun enough => .answer ⟨Nat.not_lt.mp enough, hcnt⟩
    rw [shl_eq (by omega), fit_eq (by omega)]
    exact ih (by omega)

theorem computes_bits (hn : n ≤ 16) (hcnt : br.cnt < 8) :
    Computes may (bits br n) (br.bits n) fun r => r.1 < 2 ^ n ∧ r.2.cnt < 8 := by
  refine .ite (fun _ => .answer ⟨Nat.two_pow_pos n, hcnt⟩) fun _ => ?_
  refine (computes_fill hn (by omega)).bind fun filled _ ⟨enough, few⟩ => ?_
  rw [shl_eq (by omega), pure_bind, pred_shl hn, shr_eq (by omega), sub_eq enough]
  refine .answer ⟨?_, by show filled.cnt - n < 8; omega⟩
  rw [BitReader.toNat_mask hn]
  exact Nat.mod_lt _ (Nat.two_pow_pos n)

theorem computes_alignByte (hcnt : br.cnt < 8) :
    Computes may (alignByte br) (some br.alignByte) fun br => br.cnt < 8 := by
  rw [alignByte, shr_eq (by omega), sub_eq (by omega)]
  exact .answer (Nat.lt_of_le_of_lt (Nat.sub_le _ _) hcnt)

/-! ## Huffman tables -/

/-- No table has more symbols. -/
def maxSymbols : Nat := 320

/-- A table as `new` makes it. -/
structure Sized (h : Huffman) : Prop where
  counts_length : h.counts.length = maxBits + 1
  counts_le : ∀ n, h.counts.getD n 0 ≤ maxSymbols
  symbols_length : h.symbols.length ≤ maxSymbols

theorem getD_set_le {v : Nat} (hl : ∀ n, l.getD n 0 ≤ bound) (hv : v ≤ bound) (n : Nat) :
    (l.set i v).getD n 0 ≤ bound := by
  rw [Huffman.getD_set]
  split
  · exact hv
  · exact hl n

theorem computes_countLengths (hle : ∀ l ∈ lengths, l ≤ maxBits)
    (hlen : lengths.length ≤ maxSymbols) :
    Computes may (countLengths lengths) (some (Huffman.countLengths lengths))
      fun counts => counts.length = maxBits + 1 ∧ ∀ n, counts.getD n 0 ≤ maxSymbols := by
  -- a count is at most the number of lengths that are behind
  let P (ls counts : List Nat) : Prop := (∀ l ∈ ls, l ≤ maxBits) ∧ counts.length = maxBits + 1 ∧
    ls.length ≤ maxSymbols ∧ ∀ n, counts.getD n 0 ≤ maxSymbols - ls.length
  have start : P lengths (List.replicate (maxBits + 1) 0) := by
    refine ⟨hle, List.length_replicate, hlen, fun n => ?_⟩
    rw [List.getD_eq_getElem?_getD, List.getElem?_getD_replicate_default_eq]
    exact Nat.zero_le _
  have step : ∀ l ls counts, P (l :: ls) counts →
      Computes may (count counts l) (some (counts.set l (counts.getD l 0 + 1))) (P ls) := by
    rintro l ls counts ⟨hls, hsize, hfew, hcounts⟩
    have hl : l ≤ maxBits := hls l List.mem_cons_self
    have inside : l < counts.length := by omega
    rw [List.length_cons] at hfew hcounts
    have hcount := hcounts l
    have fits : counts.getD l 0 + 1 < 2 ^ 16 := by simp only [maxSymbols] at hcount; omega
    rw [count, get_eq inside 0, pure_bind, fit_eq fits, pure_bind, put_eq inside]
    refine .answer ⟨fun m hm => hls m (List.mem_cons_of_mem _ hm), by rw [List.length_set, hsize], by omega, ?_⟩
    exact getD_set_le (fun n => by have := hcounts n; omega) (by omega)
  refine (Computes.foldlM step start).andThen fun ⟨_, hsize, _, hcounts⟩ => ?_
  rw [put_eq (by omega)]
  exact .answer ⟨by rw [List.length_set, hsize], getD_set_le hcounts (Nat.zero_le _)⟩

theorem computes_offsets {counts : List Nat} (hsize : counts.length = maxBits + 1)
    (hcounts : ∀ n, counts.getD n 0 ≤ maxSymbols) :
    Computes may (offsets counts) (some (Huffman.offsets counts))
      fun offs => offs.length = maxBits + 2 ∧ ∀ n, offs.getD n 0 ≤ maxBits * maxSymbols := by
  -- each round adds one count to an offset at most
  let P (ls offs : List Nat) : Prop := (∀ l ∈ ls, l < maxBits) ∧ offs.length = maxBits + 2 ∧
    ls.length ≤ maxBits ∧ ∀ n, offs.getD n 0 ≤ (maxBits - ls.length) * maxSymbols
  have start : P (List.range' 1 (maxBits - 1)) (List.replicate (maxBits + 2) 0) := by
    refine ⟨fun l hl => ?_, List.length_replicate, ?_, fun n => ?_⟩
    · have := (List.mem_range'_1.mp hl).2
      simp only [maxBits] at this ⊢
      omega
    · rw [List.length_range']
      exact Nat.sub_le _ _
    · rw [List.getD_eq_getElem?_getD, List.getElem?_getD_replicate_default_eq]
      exact Nat.zero_le _
  have step : ∀ l ls offs, P (l :: ls) offs → Computes may (offset counts offs l)
      (some (offs.set (l + 1) (offs.getD l 0 + counts.getD l 0))) (P ls) := by
    rintro l ls offs ⟨hls, hlen, hfew, hoffs⟩
    have hl : l < maxBits := hls l List.mem_cons_self
    rw [List.length_cons] at hfew hoffs
    have ho := hoffs l
    have hc := hcounts l
    have next : (maxBits - ls.length) * maxSymbols = (maxBits - (ls.length + 1)) * maxSymbols + maxSymbols := by
      rw [← Nat.succ_mul, Nat.succ_eq_add_one, Nat.sub_add_eq, Nat.sub_add_cancel (by omega)]
    have fits : offs.getD l 0 + counts.getD l 0 < 2 ^ 16 := by simp only [maxBits, maxSymbols] at *; omega
    rw [offset, get_eq (by omega) 0, pure_bind, get_eq (by omega) 0, pure_bind, fit_eq fits, pure_bind,
      put_eq (by omega)]
    refine .answer ⟨fun m hm => hls m (List.mem_cons_of_mem _ hm), by rw [List.length_set, hlen], by omega, ?_⟩
    exact getD_set_le (fun n => by have := hoffs n; omega) (by omega)
  exact (Computes.foldlM step start).weaken fun offs _ ⟨_, hlen, _, hoffs⟩ => ⟨hlen, hoffs⟩

theorem computes_place {s : List Nat × List Nat} {l : Nat} (hl : l ≤ maxBits) (hsym : sym < maxSymbols)
    (hlen : s.2.length = maxBits + 2) (hoffs : ∀ n, s.2.getD n 0 ≤ bound) (hbound : bound + 1 < 2 ^ 16) :
    Computes may (place s (l, sym)) (some (Huffman.place s (l, sym)))
      fun r => r.1.length = s.1.length ∧ r.2.length = maxBits + 2 ∧ ∀ n, r.2.getD n 0 ≤ bound + 1 := by
  rw [place, Huffman.place]
  by_cases hz : l ≠ 0
  · have inside : l < s.2.length := by omega
    have ho := hoffs l
    have small : sym % 2 ^ 16 = sym := Nat.mod_eq_of_lt (Nat.lt_trans hsym (by simp only [maxSymbols]; omega))
    have symbols : (if s.2.getD l 0 < s.1.length then put s.1 (s.2.getD l 0) (sym % 2 ^ 16) else pure s.1) =
        (pure (if s.2.getD l 0 < s.1.length then s.1.set (s.2.getD l 0) sym else s.1) : Checked (List Nat)) := by
      split
      · rw [put_eq ‹_›, small]
      · rfl
    simp only [if_pos hz]
    rw [get_eq inside 0, pure_bind, symbols, pure_bind, pure_bind, fit_eq (by omega), pure_bind, put_eq inside]
    refine .answer ⟨?_, by rw [List.length_set, hlen],
      getD_set_le (fun n => Nat.le_succ_of_le (hoffs n)) (Nat.succ_le_succ ho)⟩
    show List.length (if _ then _ else _) = _
    split
    · exact List.length_set
    · rfl
  · simp only [if_neg hz]
    exact .answer ⟨rfl, hlen, fun n => Nat.le_succ_of_le (hoffs n)⟩

theorem computes_new (hle : ∀ l ∈ lengths, l ≤ maxBits) (hlen : lengths.length ≤ maxSymbols) :
    Computes may (new lengths) (some (Huffman.new lengths)) Sized := by
  refine (computes_countLengths hle hlen).andThen fun ⟨hsize, hcounts⟩ => ?_
  refine (computes_offsets hsize hcounts).andThen fun ⟨hoffsLen, hoffs⟩ => ?_
  let P (es : List (Nat × Nat)) (s : List Nat × List Nat) : Prop :=
    (∀ e ∈ es, e.1 ≤ maxBits ∧ e.2 < maxSymbols) ∧ s.1.length = lengths.length ∧ s.2.length = maxBits + 2 ∧
      es.length ≤ maxSymbols ∧ ∀ n, s.2.getD n 0 ≤ maxBits * maxSymbols + (maxSymbols - es.length)
  have start : ∀ offs : List Nat, offs.length = maxBits + 2 → (∀ n, offs.getD n 0 ≤ maxBits * maxSymbols) →
      P lengths.zipIdx (List.replicate lengths.length 0, offs) := by
    intro offs hoffsLen hoffs
    refine ⟨fun e he => ?_, List.length_replicate, hoffsLen, by rw [List.length_zipIdx]; exact hlen,
      fun n => Nat.le_add_right_of_le (hoffs n)⟩
    obtain ⟨-, hlt, heq⟩ := List.mem_zipIdx he
    exact ⟨hle _ (heq ▸ List.getElem_mem _), by omega⟩
  have step : ∀ e es s, P (e :: es) s → Computes may (place s e) (some (Huffman.place s e)) (P es) := by
    rintro ⟨l, sym⟩ es s ⟨hes, hsyms, hoffsLen, hfew, hoffs⟩
    obtain ⟨hl, hsym⟩ := hes (l, sym) List.mem_cons_self
    rw [List.length_cons] at hfew hoffs
    refine (computes_place hl hsym hoffsLen hoffs (by simp only [maxBits, maxSymbols]; omega)).weaken ?_
    rintro r - ⟨hr, hrLen, hrOffs⟩
    refine ⟨fun e he => hes e (List.mem_cons_of_mem _ he), hr.trans hsyms, hrLen, by omega, fun n => ?_⟩
    have := hrOffs n
    omega
  exact (Computes.foldlM step (start _ hoffsLen hoffs)).andThen fun ⟨_, hsyms, _⟩ => .answer ⟨hsize, hcounts, hsyms.trans_le hlen⟩

/-- What the loop of `decode` keeps in front of the round for the length `len`. -/
structure Bounded (len code first index : Nat) : Prop where
  code_lt : code < 2 ^ len
  first_le : first + 2 ^ 10 ≤ 2 ^ 9 * 2 ^ len
  index_le : index ≤ maxSymbols * len

theorem Bounded.next {b count : Nat} (h : Bounded len code first index) (hb : b < 2 ^ len)
    (hcount : count ≤ maxSymbols) :
    Bounded (len + 1) ((code ||| b) <<< 1) ((first + count) <<< 1) (index + count) := by
  obtain ⟨hcode, hfirst, hindex⟩ := h
  refine ⟨?_, ?_, ?_⟩
  · have := Nat.or_lt_two_pow hcode hb
    rw [Nat.pow_succ]
    omega
  · rw [Nat.pow_succ]
    simp only [maxSymbols] at hcount
    omega
  · rw [Nat.mul_succ]
    omega

/-- An index in an `i32` finds nothing if it is negative: as a `usize` it is past any table. -/
theorem getElem?_asUsize {symbols : List Nat} (hlen : symbols.length ≤ maxSymbols) {i : Int} (low : -2 ^ 31 ≤ i)
    (high : i < 2 ^ 31) : symbols[asUsize i]? = if i < 0 then none else symbols[i.toNat]? := by
  split
  · apply List.getElem?_eq_none
    simp only [asUsize, maxSymbols] at *
    omega
  · have same : asUsize i = i.toNat := by
      simp only [asUsize]
      omega
    rw [same]

theorem computes_decodeFrom (hh : Sized h) (hlen : len + n = maxBits + 1)
    (pos : 0 < len) (hb : Bounded len code first index) (hcnt : br.cnt < 8) :
    Computes may (decodeFrom h n len code first index br) (h.decodeFrom n len code first index br)
      fun r => r.2.cnt < 8 := by
  induction n generalizing len code first index br with
  | zero => exact .giveUp
  | succ n ih =>
    refine (computes_bits (by omega) hcnt).bind fun ⟨b, br⟩ _ ⟨hbit, hcnt⟩ => ?_
    have hcount := hh.counts_le len
    have inside : len < h.counts.length := by rw [hh.counts_length]; omega
    have bit : b < 2 ^ len := Nat.lt_of_lt_of_le hbit (Nat.pow_le_pow_right (by omega) pos)
    have small : 2 ^ len ≤ 2 ^ 15 := Nat.pow_le_pow_right (by omega) (by simp only [maxBits] at hlen; omega)
    have next := hb.next bit hcount
    obtain ⟨-, hfirst, hindex⟩ := hb
    have hindex : index ≤ maxSymbols * 15 :=
      hindex.trans (Nat.mul_le_mul_left _ (by simp only [maxBits] at hlen; omega))
    have code_lt := next.code_lt
    have first_le := next.first_le
    rw [Nat.pow_succ] at code_lt first_le
    simp only [maxSymbols] at hcount hindex
    dsimp only
    rw [get_eq inside 0, pure_bind, i32_eq (by omega) (by omega)]
    refine .ite (fun _ => ?_) fun _ => ?_
    · rw [i32_eq (by omega) (by omega), pure_bind, i32_eq (by omega) (by omega), pure_bind,
        getElem?_asUsize hh.symbols_length (by omega) (by omega), Option.map_eq_bind]
      exact (Computes.option fun _ _ => trivial).bind fun sym _ _ => .answer hcnt
    · rw [fit_eq (by omega), pure_bind, fit_eq (by omega), pure_bind, fit_eq (by omega),
        fit_eq (by omega), pure_bind]
      exact ih (by omega) (by omega) next hcnt

theorem computes_decode (hh : Sized h) (hcnt : br.cnt < 8) :
    Computes may (decode h br) (h.decode br) fun r => r.2.cnt < 8 :=
  computes_decodeFrom hh (by omega) (by omega) ⟨by omega, by omega, Nat.zero_le _⟩ hcnt

theorem fixedLit_le : ∀ l ∈ fixedLit, l ≤ maxBits := by
  intro l hl
  obtain ⟨i, -, rfl⟩ := List.mem_map.mp hl
  simp only [maxBits]
  split_ifs
  all_goals omega

theorem fixedDist_le : ∀ l ∈ fixedDist, l ≤ maxBits := by
  intro l hl
  rw [List.eq_of_mem_replicate hl]
  simp only [maxBits]
  omega

theorem computes_fixedTrees :
    Computes may fixedTrees (some Fuzz.fixedTrees) fun trees => Sized trees.1 ∧ Sized trees.2 := by
  have hlit : fixedLit.length ≤ maxSymbols := by simp only [fixedLit, List.length_map, List.length_range, maxSymbols]; omega
  have hdist : fixedDist.length ≤ maxSymbols := by simp only [fixedDist, List.length_replicate, maxSymbols]; omega
  refine (computes_new fixedLit_le hlit).andThen fun lit => ?_
  exact (computes_new fixedDist_le hdist).andThen fun dist => .answer ⟨lit, dist⟩

/-! ## Compressed data -/

/-- The one fault that is left: a vector that is full, below the limit. -/
def Full (limit : Nat) (e : Fault) : Prop := e = .capacity ∧ 2 ^ 63 ≤ limit

/-- What is between two rounds: bits of less than a byte, and a vector that may be. -/
def Fine (s : BitReader × List U8) : Prop := s.1.cnt < 8 ∧ s.2.length < 2 ^ 63

theorem computes_push (hlt : out.length < limit) (b : U8) :
    Computes (Full limit) (push out b) (some (out ++ [b])) fun r => r.length < 2 ^ 63 := by
  by_cases room : out.length < 2 ^ 63 - 1
  · rw [push, if_pos room]
    exact .answer (by rw [List.length_append, List.length_singleton]; omega)
  · rw [push, if_neg room]
    exact .inr ⟨.capacity, ⟨rfl, by omega⟩, rfl⟩

theorem computes_readValue {base extra : List Nat} (hbase : i < base.length)
    (hextra : i < extra.length) (hn : extra.getD i 0 ≤ 16) (hbound : base.getD i 0 ≤ bound)
    (hsmall : bound < 2 ^ 63) (hcnt : br.cnt < 8) :
    Computes may (readValue base extra i br) (Fuzz.readValue base extra i br)
      fun r => base.getD i 0 ≤ r.1 ∧ r.1 < bound + 2 ^ 16 ∧ r.2.cnt < 8 := by
  rw [readValue, get_eq hbase 0, get_eq hextra 0]
  refine (computes_bits hn hcnt).bind fun ⟨e, br⟩ _ ⟨he, hcnt⟩ => ?_
  have few : 2 ^ extra.getD i 0 ≤ 2 ^ 16 := Nat.pow_le_pow_right (by omega) hn
  dsimp only at he hcnt ⊢
  rw [fit_eq (by omega)]
  exact .answer ⟨Nat.le_add_right _ _, by dsimp only; omega, hcnt⟩

theorem computes_copyMatch {start : Nat} (hstart : start < out.length)
    (hlen : out.length + len ≤ limit) (hout : out.length < 2 ^ 63) :
    Computes (Full limit) (copyMatch start len out) (some (Fuzz.copyMatch start len out))
      fun r => r.length < 2 ^ 63 := by
  -- byte `k` is read behind `k` bytes that were written
  let P (ks : List Nat) (r : List U8) : Prop := ∃ k, ks = List.range' k ks.length ∧ start + k < r.length ∧
    r.length + ks.length ≤ limit ∧ r.length < 2 ^ 63
  have init : P (List.range len) out := by
    refine ⟨0, ?_, hstart, ?_, hout⟩
    · rw [List.length_range, List.range_eq_range']
    · rwa [List.length_range]
  have step : ∀ k ks r, P (k :: ks) r →
      Computes (Full limit) (copyByte start r k) (some (r ++ [r.getD (start + k) 0#8])) (P ks) := by
    rintro k ks r ⟨k', hks, hk, hroom, hr⟩
    obtain ⟨rfl, hks⟩ := List.cons.inj hks
    rw [List.length_cons] at hroom
    rw [copyByte, fit_eq (by omega), pure_bind, get_eq hk 0#8]
    refine (computes_push (by omega) _).weaken fun r' hr' hlen => ?_
    obtain rfl := Option.some.inj hr'
    refine ⟨k + 1, hks, ?_, ?_, hlen⟩
    · rw [List.length_append, List.length_singleton]; omega
    · rw [List.length_append, List.length_singleton]; omega
  exact (Computes.foldlM step init).weaken fun r _ ⟨_, _, _, _, hr⟩ => hr

theorem tables_lengths : lenBase.length = 29 ∧ lenExtra.length = 29 ∧ distBase.length = 30 ∧ distExtra.length = 30 :=
  ⟨rfl, rfl, rfl, rfl⟩

theorem lenTable (h : i < 29) : lenExtra.getD i 0 ≤ 16 ∧ lenBase.getD i 0 ≤ 2 ^ 16 := by
  decide +revert

theorem distTable (h : i < 30) : distExtra.getD i 0 ≤ 16 ∧ 0 < distBase.getD i 0 ∧ distBase.getD i 0 ≤ 2 ^ 16 := by
  decide +revert

theorem computes_readMatch (hdist : Sized dist) (low : 257 ≤ sym) (high : sym ≤ 285)
    (hcnt : br.cnt < 8) :
    Computes may (readMatch dist sym br) (Fuzz.readMatch dist sym br)
      fun r => r.1 < 2 ^ 17 ∧ 0 < r.2.1 ∧ r.2.2.cnt < 8 := by
  obtain ⟨hlb, hle, hdb, hde⟩ := tables_lengths
  obtain ⟨hextra, hbase⟩ := lenTable (i := sym - 257) (by omega)
  rw [readMatch, sub_eq low, pure_bind]
  refine (computes_readValue (by omega) (by omega) hextra hbase (by omega) hcnt).bind ?_
  rintro ⟨len, br⟩ - ⟨-, hlen, hcnt⟩
  refine (computes_decode hdist hcnt).bind fun ⟨dsym, br⟩ _ hcnt => ?_
  refine .ite (fun _ => .giveUp) fun hd => ?_
  obtain ⟨hextra, hpos, hbase⟩ := distTable (i := dsym) (by omega)
  refine (computes_readValue (by omega) (by omega) hextra hbase (by omega) hcnt).bind ?_
  rintro ⟨d, br⟩ - ⟨hd, -, hcnt⟩
  exact .answer ⟨by dsimp only at hlen ⊢; omega, Nat.lt_of_lt_of_le hpos hd, hcnt⟩

theorem computes_takeMatch {d : Nat} (hlen : len < 2 ^ 17) (hd : 0 < d) (hs : Fine (br, out)) :
    Computes (Full limit) (takeMatch limit len d br out)
      (if d > out.length ∨ out.length + len > limit then none
        else some (.inl (br, Fuzz.copyMatch (out.length - d) len out))) (Sum.elim Fine Fine) := by
  obtain ⟨hcnt, hout⟩ := hs
  dsimp only at hcnt hout
  rw [takeMatch]
  by_cases far : d > out.length
  · rw [if_pos far, if_pos (.inl far)]
    exact .giveUp
  · rw [if_neg far, fit_eq (by omega), pure_bind]
    by_cases past : out.length + len > limit
    · rw [if_pos past, if_pos (.inr past)]
      exact .giveUp
    · rw [if_neg past, if_neg (not_or.mpr ⟨far, past⟩), sub_eq (by omega)]
      refine (computes_copyMatch (by omega) (by omega) hout).andThen fun hr => ?_
      exact .answer ⟨hcnt, hr⟩

theorem computes_blockStep (hlit : Sized lit) (hdist : Sized dist)
    (hs : Fine s) :
    Computes (Full limit) (blockStep lit dist limit s) (Fuzz.blockStep lit dist limit s) (Sum.elim Fine Fine) := by
  obtain ⟨hcnt, hout⟩ := hs
  refine (computes_decode hlit hcnt).bind fun ⟨sym, br⟩ _ hcnt => ?_
  refine .ite (fun _ => .ite (fun _ => .giveUp) fun room => ?_) fun hsym => ?_
  · exact (computes_push (Nat.not_le.mp room) _).andThen fun hr => .answer ⟨hcnt, hr⟩
  · refine .ite (fun _ => .answer ⟨hcnt, hout⟩) fun hend => .ite (fun hle => ?_) fun _ => .giveUp
    refine (computes_readMatch hdist (by omega) hle hcnt).bind ?_
    rintro ⟨len, d, br⟩ - ⟨hlen, hd, hcnt⟩
    exact computes_takeMatch hlen hd ⟨hcnt, hout⟩

theorem computes_inflateBlock (hlit : Sized lit) (hdist : Sized dist)
    (hs : Fine s) :
    Computes (Full limit) (inflateBlock lit dist limit s) (Fuzz.inflateBlock lit dist limit s) Fine := by
  refine Computes.repeatFor (fun s => s.1.left) (fun s hs => ?_) hs (Nat.lt_succ_self _)
  refine (computes_blockStep hlit hdist hs).weaken fun x hx hfine => ?_
  have read := left_blockStep hx
  cases x with
  | inl s' => exact ⟨hfine, read⟩
  | inr r => exact hfine

/-! ## Dynamic blocks -/

theorem forall_mem_set {v : Nat} (hl : ∀ x ∈ l, x ≤ bound) (hv : v ≤ bound) :
    ∀ x ∈ l.set i v, x ≤ bound := by
  intro x hx
  rcases List.mem_or_eq_of_mem_set hx with hx | rfl
  · exact hl x hx
  · exact hv

theorem computes_readCl {os cl : List Nat} (hos : ∀ o ∈ os, o < cl.length) (hcl : ∀ l ∈ cl, l ≤ maxBits)
    (hcnt : br.cnt < 8) :
    Computes may (readCl os cl br) (Fuzz.readCl os cl br)
      fun r => r.1.length = cl.length ∧ (∀ l ∈ r.1, l ≤ maxBits) ∧ r.2.cnt < 8 := by
  induction os generalizing cl br with
  | nil => exact .answer ⟨rfl, hcl, hcnt⟩
  | cons o os ih =>
    refine (computes_bits (by omega) hcnt).bind fun ⟨v, br⟩ _ ⟨hv, hcnt⟩ => ?_
    dsimp only
    rw [put_eq (hos o List.mem_cons_self)]
    refine (ih (fun o' ho' => ?_) (forall_mem_set hcl ?_) hcnt).weaken ?_
    · rw [List.length_set]
      exact hos o' (List.mem_cons_of_mem _ ho')
    · simp only [maxBits] at hv ⊢
      omega
    · rintro r - ⟨hlen, hr, hcnt⟩
      exact ⟨hlen.trans List.length_set, hr, hcnt⟩

/-- What stands in front of the lengths of a dynamic block. -/
structure Headed (head : DynamicHead) : Prop where
  hlit_le : head.hlit ≤ 288
  hdist_le : head.hdist ≤ 32
  cl_length : head.cl.length = 19
  cl_le : ∀ l ∈ head.cl, l ≤ maxBits

theorem computes_dynamicHead (hcnt : br.cnt < 8) :
    Computes may (dynamicHead br) (Fuzz.dynamicHead br) fun r => Headed r.1 ∧ r.2.cnt < 8 := by
  refine (computes_bits (by omega) hcnt).bind fun ⟨hlit, br⟩ _ ⟨hl, hcnt⟩ => ?_
  dsimp only at hl ⊢
  rw [fit_eq (by omega)]
  refine (computes_bits (by omega) hcnt).bind fun ⟨hdist, br⟩ _ ⟨hd, hcnt⟩ => ?_
  rw [fit_eq (by omega), pure_bind]
  refine (computes_bits (by omega) hcnt).bind fun ⟨hclen, br⟩ _ ⟨hc, hcnt⟩ => ?_
  dsimp only at hc ⊢
  rw [fit_eq (by omega), pure_bind]
  have inside : ∀ o ∈ order.take (hclen + 4), o < (List.replicate 19 0).length := by
    intro o ho
    have all : ∀ o ∈ order, o < 19 := by decide
    exact all o (List.mem_of_mem_take ho)
  refine (computes_readCl inside (fun l hl => ?_) hcnt).bind ?_
  · rw [List.eq_of_mem_replicate hl]
    exact Nat.zero_le _
  · rintro ⟨cl, br⟩ - ⟨hlen, hcl, hcnt⟩
    exact .answer ⟨⟨by dsimp only; omega, by dsimp only; omega, hlen.trans List.length_replicate, hcl⟩, hcnt⟩

/-- The lengths while they are read, `total` of them. -/
structure Reading (total : Nat) (s : LengthState) : Prop where
  lengths_length : s.lengths.length = total
  lengths_le : ∀ l ∈ s.lengths, l ≤ maxBits
  i_le : s.i ≤ total
  cnt_lt : s.br.cnt < 8

theorem computes_repeatPrev {prev : Nat} (hprev : prev ≤ maxBits)
    (hlen : lengths.length = total) (hle : ∀ l ∈ lengths, l ≤ maxBits) (hi : i ≤ total) (hsmall : total ≤ maxSymbols) :
    Computes may (repeatPrev prev n lengths i) (Fuzz.repeatPrev prev n lengths i)
      fun r => r.1.length = total ∧ (∀ l ∈ r.1, l ≤ maxBits) ∧ r.2 ≤ total := by
  induction n generalizing lengths i with
  | zero => exact .answer ⟨hlen, hle, hi⟩
  | succ n ih =>
    refine .ite (fun _ => .giveUp) fun inside => ?_
    have fits : i + 1 < 2 ^ 64 := by simp only [maxSymbols] at hsmall; omega
    rw [put_eq (by omega), fit_eq fits]
    exact ih (List.length_set.trans hlen) (forall_mem_set hle hprev) (by omega)

theorem computes_repeatCode {s : LengthState} (hs : Reading total s) (hsmall : total ≤ maxSymbols)
    (hcnt : br.cnt < 8) : Computes may (repeatCode s br) (Fuzz.repeatCode s br) (Reading total) := by
  obtain ⟨hlen, hle, hi, -⟩ := hs
  refine .ite (fun _ => .giveUp) fun hz => ?_
  have inside : s.i - 1 < s.lengths.length := by omega
  have hprev : s.lengths.getD (s.i - 1) 0 ≤ maxBits := by
    rw [List.getD_eq_getElem _ _ inside]
    exact hle _ (List.getElem_mem inside)
  rw [sub_eq (by omega), pure_bind, get_eq inside 0]
  refine (computes_bits (by omega) hcnt).bind fun ⟨e, br⟩ _ ⟨he, hcnt⟩ => ?_
  dsimp only at he ⊢
  rw [fit_eq (by omega)]
  refine (computes_repeatPrev hprev hlen hle hi hsmall).bind ?_
  rintro ⟨lengths, i⟩ - ⟨hlen, hle, hi⟩
  exact .answer ⟨hlen, hle, hi, hcnt⟩

theorem computes_skipZeros {s : LengthState} {least width : Nat} (hs : Reading total s)
    (hsmall : total ≤ maxSymbols) (hleast : least ≤ 11) (hwidth : width ≤ 7) (hcnt : br.cnt < 8) :
    Computes may (skipZeros least width s br) (Fuzz.skipZeros least width s br) (Reading total) := by
  obtain ⟨hlen, hle, hi, -⟩ := hs
  refine (computes_bits (by omega) hcnt).bind fun ⟨e, br⟩ _ ⟨he, hcnt⟩ => ?_
  have few : 2 ^ width ≤ 2 ^ 7 := Nat.pow_le_pow_right (by omega) hwidth
  simp only [maxSymbols] at hsmall
  dsimp only at he ⊢
  rw [fit_eq (by omega), pure_bind, fit_eq (by omega)]
  exact .answer ⟨hlen, hle, (Nat.min_le_right _ _).trans hlen.le, hcnt⟩

theorem computes_lengthSymbol {s : LengthState} (hs : Reading total s) (hsmall : total ≤ maxSymbols)
    (hi : s.i < total) (hcnt : br.cnt < 8) :
    Computes may (lengthSymbol s sym br) (Fuzz.lengthSymbol s sym br) (Reading total) := by
  refine .ite (fun hsym => ?_) fun _ => .ite (fun _ => computes_repeatCode hs hsmall hcnt) fun _ =>
    .ite (fun _ => computes_skipZeros hs hsmall (by omega) (by omega) hcnt) fun _ =>
      .ite (fun _ => computes_skipZeros hs hsmall (by omega) (by omega) hcnt) fun _ => .giveUp
  obtain ⟨hlen, hle, -, -⟩ := hs
  have fits : s.i + 1 < 2 ^ 64 := by simp only [maxSymbols] at hsmall; omega
  rw [put_eq (by omega), fit_eq fits, Nat.mod_eq_of_lt (by omega)]
  exact .answer ⟨List.length_set.trans hlen, forall_mem_set hle hsym, hi, hcnt⟩

theorem computes_readLengths {clTree : Huffman} (hcl : Sized clTree) (hsmall : total ≤ maxSymbols)
    (hcnt : br.cnt < 8) :
    Computes may (readLengths clTree total br) (Fuzz.readLengths clTree total br)
      fun r => r.1.length = total ∧ (∀ l ∈ r.1, l ≤ maxBits) ∧ r.2.cnt < 8 := by
  have start : Reading total ⟨List.replicate total 0, 0, br⟩ := by
    refine ⟨List.length_replicate, fun l hl => ?_, Nat.zero_le _, hcnt⟩
    rw [List.eq_of_mem_replicate hl]
    exact Nat.zero_le _
  refine Computes.repeatFor (P := Reading total) (fun s => s.br.left) (fun s hs => ?_) start (Nat.lt_succ_self _)
  have step : Computes may (lengthStep clTree s) (Fuzz.lengthStep clTree s) (Sum.elim (Reading total)
      fun r => r.1.length = total ∧ (∀ l ∈ r.1, l ≤ maxBits) ∧ r.2.cnt < 8) := by
    refine .ite (fun hi => ?_) fun _ => .answer ⟨hs.lengths_length, hs.lengths_le, hs.cnt_lt⟩
    refine (computes_decode hcl hs.cnt_lt).bind fun ⟨sym, br⟩ _ hcnt => ?_
    refine (computes_lengthSymbol hs hsmall (hs.lengths_length ▸ hi) hcnt).bind fun s' _ hs' => ?_
    exact .answer hs'
  refine step.weaken fun x hx hR => ?_
  cases x with
  | inl s' => exact ⟨hR, left_lengthStep hx⟩
  | inr r => exact hR

/-! ## Blocks -/

theorem computes_storedHead (hcnt : br.cnt < 8) :
    Computes may (storedHead br) (Fuzz.storedHead br) fun r => r.2.2.cnt < 8 := by
  refine (computes_alignByte hcnt).andThen fun hcnt => ?_
  refine (computes_bits (by omega) hcnt).bind fun ⟨len, br⟩ _ ⟨_, hcnt⟩ => ?_
  refine (computes_bits (by omega) hcnt).bind fun ⟨nlen, br⟩ _ ⟨_, hcnt⟩ => ?_
  exact .answer hcnt

theorem computes_storedBytes (hs : Fine s) :
    Computes (Full limit) (storedBytes limit n s) (Fuzz.storedBytes limit n s) Fine := by
  induction n generalizing s with
  | zero => exact .answer hs
  | succ n ih =>
    refine .ite (fun _ => .giveUp) fun room => ?_
    refine (computes_bits (by omega) hs.1).bind fun ⟨b, br⟩ _ ⟨_, hcnt⟩ => ?_
    exact (computes_push (Nat.not_le.mp room) _).andThen fun hr => ih ⟨hcnt, hr⟩

theorem computes_dynamicTrees {hlit : Nat} (hle : ∀ l ∈ lengths, l ≤ maxBits)
    (hlen : lengths.length ≤ maxSymbols) (hhlit : hlit ≤ lengths.length) :
    Computes may (dynamicTrees hlit lengths)
      (some (Huffman.new (lengths.take hlit), Huffman.new (lengths.drop hlit)))
      fun trees => Sized trees.1 ∧ Sized trees.2 := by
  have few : (lengths.take hlit).length ≤ maxSymbols := (List.length_take_le' hlit lengths).trans hlen
  have rest : (lengths.drop hlit).length ≤ maxSymbols := by rw [List.length_drop]; omega
  rw [dynamicTrees, if_pos hhlit]
  refine (computes_new (fun l hl => hle l (List.mem_of_mem_take hl)) few).andThen fun lit => ?_
  refine (computes_new (fun l hl => hle l (List.mem_of_mem_drop hl)) rest).andThen fun dist => ?_
  exact .answer ⟨lit, dist⟩

theorem computes_blockBody (btype : Nat) (hs : Fine s) :
    Computes (Full limit) (blockBody limit btype s) (Fuzz.blockBody limit btype s) Fine := by
  match btype with
  | 0 =>
    refine (computes_storedHead hs.1).bind fun ⟨len, nlen, br⟩ _ hcnt => ?_
    exact computes_storedBytes ⟨hcnt, hs.2⟩
  | 1 => exact computes_fixedTrees.andThen fun ⟨lit, dist⟩ => computes_inflateBlock lit dist hs
  | 2 =>
    refine (computes_dynamicHead hs.1).bind fun ⟨head, br⟩ _ ⟨hhead, hcnt⟩ => ?_
    obtain ⟨hlit, hdist, hcl, hclLe⟩ := hhead
    have few : head.hlit + head.hdist ≤ maxSymbols := by simp only [maxSymbols]; dsimp only at hlit hdist; omega
    have fits : head.hlit + head.hdist < 2 ^ 64 := Nat.lt_of_le_of_lt few (by simp only [maxSymbols]; omega)
    dsimp only at hcl hclLe ⊢
    refine (computes_new hclLe (by simp only [maxSymbols]; omega)).andThen fun hclTree => ?_
    rw [fit_eq fits]
    refine (computes_readLengths hclTree few hcnt).bind ?_
    rintro ⟨lengths, br⟩ - ⟨hlen, hle, hcnt⟩
    have hhlit : head.hlit ≤ lengths.length := hlen ▸ Nat.le_add_right _ _
    refine (computes_dynamicTrees hle (hlen.trans_le few) hhlit).andThen fun ⟨lit, dist⟩ => ?_
    exact computes_inflateBlock lit dist ⟨hcnt, hs.2⟩
  | _ + 3 => exact .giveUp

theorem computes_blockHead (hcnt : br.cnt < 8) :
    Computes may (blockHead br) (Fuzz.blockHead br) fun r => r.2.2.cnt < 8 := by
  refine (computes_bits (by omega) hcnt).bind fun ⟨last, br⟩ _ ⟨_, hcnt⟩ => ?_
  refine (computes_bits (by omega) hcnt).bind fun ⟨btype, br⟩ _ ⟨_, hcnt⟩ => ?_
  exact .answer hcnt

theorem computes_inflateStep (hs : Fine s) :
    Computes (Full limit) (inflateStep limit s) (Fuzz.inflateStep limit s) (Sum.elim Fine fun _ => True) := by
  refine (computes_blockHead hs.1).bind fun ⟨last, btype, br⟩ _ hcnt => ?_
  have fine : Fine (br, s.2) := ⟨hcnt, hs.2⟩
  refine (computes_blockBody btype fine).bind fun r _ hr => ?_
  exact .ite (fun _ => .answer trivial) fun _ => .answer hr

/-- The checked decoder is not stopped, and computes what `inflate` does; a limit past `isize::MAX` leaves the
vector that is full. -/
theorem computes_inflate (data : List U8) (limit : Nat) :
    Computes (Full limit) (inflate data limit) (Fuzz.inflate data limit) fun _ => True := by
  have start : Fine (BitReader.new data, []) := ⟨Nat.zero_lt_succ 7, Nat.two_pow_pos 63⟩
  refine Computes.repeatFor (P := Fine) (fun s => s.1.left) (fun s hs => ?_) start (Nat.lt_succ_self _)
  refine (computes_inflateStep hs).weaken fun x hx hfine => ?_
  cases x with
  | inl s' => exact ⟨hfine, left_inflateStep hx⟩
  | inr r => trivial

/-! ## Compressed images -/

theorem inflate_eq (hlimit : limit < 2 ^ 63) (data : List U8) :
    inflate data limit = Checked.of (Fuzz.inflate data limit) := by
  rcases computes_inflate data limit with ⟨same, -⟩ | ⟨e, ⟨-, large⟩, -⟩
  · exact same
  · omega

theorem zlibDecompress_eq (hlimit : limit < 2 ^ 63) (data : List U8) :
    zlibDecompress data limit = Checked.of (Fuzz.zlibDecompress data limit) := by
  match data with
  | [] => rfl
  | [_] => rfl
  | cmf :: flg :: rest =>
    have long : ¬ (cmf :: flg :: rest).length < 2 := by simp only [List.length_cons]; omega
    have fits : cmf.toNat * 256 + flg.toNat < 2 ^ 16 := by
      omega
    have first : get (cmf :: flg :: rest) 0 = pure cmf := rfl
    have second : get (cmf :: flg :: rest) 1 = pure flg := rfl
    have behind : slice (cmf :: flg :: rest) 2 (cmf :: flg :: rest).length = pure rest := by
      rw [slice_eq (Nat.not_lt.mp long) (Nat.le_refl _)]
      exact congrArg pure List.take_length
    rw [zlibDecompress, if_neg long, first, pure_bind, second, pure_bind, fit_eq fits, pure_bind, behind, pure_bind,
      inflate_eq hlimit]
    exact Computes.eq_of (Q := fun _ => True) (.ite (fun _ => .giveUp) fun _ => .ite (fun _ => .giveUp) fun _ =>
      .option fun _ _ => trivial)

theorem decodeCompressedImage_eq (hlimit : limit < 2 ^ 63) (b64 : List U8) :
    decodeCompressedImage b64 limit = Checked.of (Fuzz.decodeCompressedImage b64 limit) := by
  rw [decodeCompressedImage, Fuzz.decodeCompressedImage]
  cases base64Decode b64 with
  | none => rfl
  | some raw => exact zlibDecompress_eq hlimit raw

end Vock.Fuzz.Machine
