import Vock.Laws.Fuzz.Fields
import Vock.Library.OnesComplement

/-!
# Checksums

`csum_inet` is the complement of the one's complement sum of the little-endian words (`toNat_csumInet`), and a checksum
that is filled in at an even place makes the checksum of the whole buffer zero (`csum_fills`).
-/

namespace Vock.Fuzz

open Library List

variable {acc : BitVec 32} {data front : List U8} {rest : List U8} {sum : BitVec 16}

/-- The little-endian words of a buffer; an odd last byte is the low byte of one. -/
def leWords : List U8 → List Nat
  | lo :: hi :: rest => (lo.toNat + 256 * hi.toNat) :: leWords rest
  | [b] => [b.toNat]
  | [] => []

/-! ## The accumulator -/

theorem leWord_le (lo hi : U8) : lo.toNat + 256 * hi.toNat ≤ 0xffff := by
  omega

theorem byte_le (b : U8) : b.toNat ≤ 0xffff := by
  omega

theorem le_of_mem_leWords {w : Nat} (h : w ∈ leWords data) : w ≤ 0xffff := by
  fun_induction leWords data with
  | case1 lo hi rest ih =>
    rcases mem_cons.mp h with rfl | h
    · exact leWord_le lo hi
    · exact ih h
  | case2 b =>
    obtain rfl := mem_singleton.mp h
    exact byte_le b
  | case3 => cases h

theorem leWords_append (heven : front.length % 2 = 0) (rest : List U8) :
    leWords (front ++ rest) = leWords front ++ leWords rest := by
  fun_induction leWords front with
  | case1 lo hi front ih =>
    simp only [length_cons] at heven
    rw [cons_append, cons_append, leWords, ih (by omega), cons_append]
  | case2 b => simp only [length_cons, length_nil] at heven; omega
  | case3 => rfl

/-- Two words below the carry fold to their sum with the carry added at the low end. -/
theorem toNat_foldCarries {word : BitVec 32} (hacc : acc.toNat ≤ 0xffff) (hword : word.toNat ≤ 0xffff) :
    (foldCarries (acc + word)).toNat = endAround 0xffff acc.toNat word.toNat := by
  have hsum : (acc + word).toNat = acc.toNat + word.toNat := by
    rw [BitVec.toNat_add, Nat.mod_eq_of_lt (by omega)]
  have hmask : (0xffff#32).toNat = 2 ^ 16 - 1 := rfl
  have hlow : ∀ x : BitVec 32, x.toNat ≤ 0xffff → foldCarry x = none := by
    intro x hx
    apply if_neg
    rw [BitVec.lt_def]
    omega
  unfold foldCarries endAround
  split
  next hcarry =>
    have hturn : foldCarry (acc + word) = some (((acc + word) &&& 0xffff#32) + ((acc + word) >>> 16)) := by
      apply if_pos
      rw [BitVec.lt_def]
      omega
    have hnext : (((acc + word) &&& 0xffff#32) + ((acc + word) >>> 16)).toNat = acc.toNat + word.toNat - 0xffff := by
      rw [BitVec.toNat_add, BitVec.toNat_and, BitVec.toNat_ushiftRight, hmask, Nat.and_two_pow_sub_one_eq_mod]
      omega
    rw [exec_succ_of_some hturn, exec_of_none (hlow _ (by omega)), hnext]
  next hcarry => rw [exec_of_none (hlow _ (by omega)), hsum]

theorem toNat_leWord (lo hi : U8) : ((hi ++ lo).setWidth 32).toNat = lo.toNat + 256 * hi.toNat := by
  have hlo := lo.isLt
  rw [BitVec.toNat_setWidth, BitVec.toNat_append, ← Nat.shiftLeft_add_eq_or_of_lt hlo]
  omega

theorem foldCarries_of_le (hacc : acc.toNat ≤ 0xffff) : foldCarries acc = acc := by
  have hmask : (0xffff#32).toNat = 0xffff := rfl
  apply exec_of_none
  apply if_neg
  rw [BitVec.lt_def]
  omega

/-- Over whole words the accumulator is the one's complement sum so far. -/
theorem toNat_csumWords (hacc : acc.toNat ≤ 0xffff) (heven : data.length % 2 = 0) :
    (csumWords data acc).toNat = (leWords data).foldl (endAround 0xffff) acc.toNat ∧
      (csumWords data acc).toNat ≤ 0xffff := by
  fun_induction csumWords data acc with
  | case1 lo hi rest acc ih =>
    have hword : ((hi ++ lo).setWidth 32).toNat ≤ 0xffff := by
      rw [toNat_leWord]
      exact leWord_le lo hi
    have hturn := toNat_foldCarries hacc hword
    simp only [length_cons] at heven
    have hrest := ih (by rw [hturn]; exact endAround_le hacc hword) (by omega)
    rwa [hturn, toNat_leWord] at hrest
  | case2 b acc => simp only [length_cons, length_nil] at heven; omega
  | case3 acc => exact ⟨rfl, hacc⟩

/-- An odd byte is added behind the whole words. -/
theorem csumWords_concat (heven : data.length % 2 = 0) (b : U8) :
    csumWords (data ++ [b]) acc = csumWords data acc + b.setWidth 32 := by
  fun_induction csumWords data acc with
  | case1 lo hi rest acc ih =>
    simp only [length_cons] at heven
    rw [cons_append, cons_append, csumWords, ih (by omega)]
  | case2 b acc => simp only [length_cons, length_nil] at heven; omega
  | case3 acc => rfl

/-- A buffer of odd length has whole words and one byte. -/
theorem exists_concat_of_odd (hodd : data.length % 2 = 1) : ∃ front b, data = front ++ [b] ∧ front.length % 2 = 0 := by
  have hne : data ≠ [] := by
    rintro rfl
    simp only [length_nil, Nat.zero_mod, Nat.zero_ne_one] at hodd
  refine ⟨data.dropLast, data.getLast hne, (dropLast_append_getLast hne).symm, ?_⟩
  rw [length_dropLast]
  omega

theorem toNat_foldCarries_csumWords (data : List U8) :
    (foldCarries (csumWords data 0#32)).toNat = onesSum 0xffff (leWords data) ∧
      (foldCarries (csumWords data 0#32)).toNat ≤ 0xffff := by
  have hzero : (0#32).toNat ≤ 0xffff := Nat.zero_le _
  rcases Nat.mod_two_eq_zero_or_one data.length with heven | hodd
  · obtain ⟨hsum, hle⟩ := toNat_csumWords hzero heven
    rw [foldCarries_of_le hle]
    exact ⟨hsum, hle⟩
  · obtain ⟨front, b, rfl, heven⟩ := exists_concat_of_odd hodd
    obtain ⟨hsum, hle⟩ := toNat_csumWords hzero heven
    have hbyte : (b.setWidth 32).toNat = b.toNat :=
      (BitVec.toNat_setWidth 32 b).trans (Nat.mod_eq_of_lt (Nat.lt_of_le_of_lt (byte_le b) (by decide)))
    have hfold := toNat_foldCarries hle (hbyte.trans_le (byte_le b))
    have hsums : onesSum 0xffff (leWords (front ++ [b])) = endAround 0xffff (csumWords front 0#32).toNat b.toNat := by
      rw [leWords_append heven, onesSum, foldl_append, hsum]
      rfl
    rw [csumWords_concat heven, hfold, hsums]
    exact ⟨rfl, endAround_le hle (byte_le b)⟩

/-- `csum_inet` is the complement of the one's complement sum of the words. -/
theorem toNat_csumInet (data : List U8) : (csumInet data).toNat = 0xffff - onesSum 0xffff (leWords data) := by
  obtain ⟨hsum, hle⟩ := toNat_foldCarries_csumWords data
  rw [csumInet, BitVec.toNat_not, BitVec.toNat_setWidth, Nat.mod_eq_of_lt (by omega), hsum]

/-! ## Filling a checksum in -/

/-- The bytes of a checksum spell its word. -/
theorem leWords_bytes (sum : BitVec 16) (rest : List U8) :
    leWords (sum.setWidth 8 :: (sum >>> 8).setWidth 8 :: rest) = sum.toNat :: leWords rest := by
  rw [leWords]
  congr 1
  rw [BitVec.toNat_setWidth, BitVec.toNat_setWidth, BitVec.toNat_ushiftRight]
  omega

/-- A checksum over a buffer with zeros in its place, put there, makes the checksum of the buffer zero. -/
theorem csumInet_filled (heven : front.length % 2 = 0)
    (hsum : csumInet (front ++ 0#8 :: 0#8 :: rest) = sum) :
    csumInet (front ++ sum.setWidth 8 :: (sum >>> 8).setWidth 8 :: rest) = 0#16 := by
  have hzero : leWords (0#8 :: 0#8 :: rest) = 0 :: leWords rest := rfl
  have hvalue : sum.toNat = 0xffff - onesSum 0xffff (leWords front ++ 0 :: leWords rest) := by
    rw [← hsum, toNat_csumInet, leWords_append heven, hzero]
  apply BitVec.eq_of_toNat_eq
  rw [toNat_csumInet, leWords_append heven, leWords_bytes, hvalue,
    onesSum_complement (by decide) (fun _ => le_of_mem_leWords) (fun _ => le_of_mem_leWords)]
  rfl

theorem getElem?_of_ne {x y x' y' : U8} {i : Nat} (hi : i ≠ front.length)
    (hi' : i ≠ front.length + 1) : (front ++ x' :: y' :: rest)[i]? = (front ++ x :: y :: rest)[i]? := by
  rcases Nat.lt_or_ge i front.length with hlt | hge
  · rw [getElem?_append_left hlt, getElem?_append_left hlt]
  · obtain ⟨j, rfl⟩ : ∃ j, i = front.length + (j + 1 + 1) := ⟨i - front.length - 2, by omega⟩
    rw [getElem?_append_right (Nat.le_add_right _ _), getElem?_append_right (Nat.le_add_right _ _),
      Nat.add_sub_cancel_left, getElem?_cons_succ, getElem?_cons_succ, getElem?_cons_succ,
      getElem?_cons_succ]

mutual

theorem csumOffset_of_not_mem (w : Nat) : ∀ a : Arg, .csum ∉ a.nodes → ∀ d, csumOffset w a d = none
  | .struct fs, h, d | .array fs, h, d => csumOffsetAll_of_not_mem w fs (fun hmem => h (mem_cons_of_mem _ hmem)) d
  | .union inner, h, d | .out _ inner, h, d => csumOffset_of_not_mem w inner (fun hmem => h (mem_cons_of_mem _ hmem)) d
  | .csum, h, _ => absurd mem_cons_self h
  | .int _, _, _ | .res .., _, _ | .ptr .., _, _ | .data _, _, _ | .nil, _, _ => rfl

theorem csumOffsetAll_of_not_mem (w : Nat) : ∀ fs : List Arg, .csum ∉ Arg.nodesAll fs → ∀ d, csumOffsetAll w fs d = none
  | [], _, _ => rfl
  | f :: fs, h, d => by
    rw [Arg.nodesAll, mem_append, not_or] at h
    rw [csumOffsetAll, csumOffset_of_not_mem w f h.1]
    exact csumOffsetAll_of_not_mem w fs h.2 _

end

theorem isCsum_iff {a : Arg} : a.isCsum = true ↔ a = .csum := by
  cases a <;> simp [Arg.isCsum]

section

variable {ctx : Ctx} {w : Nat} {a : Arg} {before behind : List Arg}

/-- The only checksum of a tree, as a field: no other field has one in its tree. -/
theorem csum_not_mem_nodes (hone : a.nodes.countP Arg.isCsum = 1) (hleaves : a.leaves = before ++ .csum :: behind) :
    ∀ f ∈ before ++ behind, .csum ∉ f.nodes := by
  intro f hf hcsum
  have hle : (a.leaves.flatMap Arg.nodes).countP Arg.isCsum ≤ a.nodes.countP Arg.isCsum :=
    (flatMap_nodes_leaves_sublist a).countP_le
  have hself : countP Arg.isCsum (Arg.nodes .csum) = 1 := rfl
  rw [hleaves, flatMap_append, flatMap_cons, countP_append, countP_append] at hle
  have hpos : ∀ fs : List Arg, f ∈ fs → 0 < (fs.flatMap Arg.nodes).countP Arg.isCsum := by
    intro fs hf
    exact countP_pos_iff.mpr ⟨.csum, mem_flatMap.mpr ⟨f, hf, hcsum⟩, rfl⟩
  rcases mem_append.mp hf with hf | hf
  · have := hpos before hf
    omega
  · have := hpos behind hf
    omega

variable (ctx w) in
/-- The place that is found is that of the only checksum. -/
theorem csumOffset_of_leaves (hone : a.nodes.countP Arg.isCsum = 1) (hleaves : a.leaves = before ++ .csum :: behind) :
    csumOffset w a 0 = some (before.flatMap (encode ctx · w)).length := by
  have hnot := csum_not_mem_nodes hone hleaves
  have houts : ∀ slot inner, .out slot inner ∈ a.leaves → ∀ d, csumOffset w inner d = none := by
    intro slot inner hmem d
    rw [hleaves, mem_append, mem_cons] at hmem
    apply csumOffset_of_not_mem
    intro hcsum
    refine hnot (.out slot inner) ?_ (mem_cons_of_mem _ hcsum)
    rcases hmem with hmem | hmem | hmem
    · exact mem_append_left _ hmem
    · cases hmem
    · exact mem_append_right _ hmem
  have hbefore : (placedFrom ctx w 0 before).find? (·.1.isCsum) = none := by
    apply find?_eq_none.mpr
    rintro ⟨f, d⟩ hmem hcsum
    obtain ⟨front, rest, rfl, -⟩ := mem_placedFrom hmem
    obtain rfl := isCsum_iff.mp hcsum
    exact hnot .csum (mem_append_left _ (mem_append_right _ mem_cons_self)) (Arg.mem_nodes_self _)
  rw [csumOffset_eq_placed ctx _ houts, hleaves, placedFrom_append, find?_append, hbefore, Nat.zero_add]
  rfl

variable (ctx w) in
/-- The buffer of a tree with one checksum among its fields. -/
theorem fixCsums_encode (hone : a.nodes.countP Arg.isCsum = 1) (hleaves : a.leaves = before ++ .csum :: behind) (hsum : csumInet (encode ctx a w) = sum) :
    encode ctx a w = before.flatMap (encode ctx · w) ++ 0#8 :: 0#8 :: behind.flatMap (encode ctx · w) ∧
      fixCsums (encode ctx a w) a w =
        before.flatMap (encode ctx · w) ++ sum.setWidth 8 :: (sum >>> 8).setWidth 8 :: behind.flatMap (encode ctx · w) := by
  have hbytes : encode ctx a w =
      before.flatMap (encode ctx · w) ++ 0#8 :: 0#8 :: behind.flatMap (encode ctx · w) := by
    rw [encode_eq_flatMap a, hleaves, flatMap_append, flatMap_cons]
    rfl
  refine ⟨hbytes, ?_⟩
  have hset : ∀ (x y x' y' : U8) (front rest : List U8),
      ((front ++ x :: y :: rest).set front.length x').set (front.length + 1) y' = front ++ x' :: y' :: rest := by
    intro x y x' y' front rest
    rw [set_append_right _ _ (Nat.le_refl _), Nat.sub_self, set_cons_zero,
      set_append_right (front.length + 1) _ (Nat.le_succ _), Nat.add_sub_cancel_left, set_cons_succ,
      set_cons_zero]
  unfold fixCsums
  rw [csumOffset_of_leaves ctx w hone hleaves]
  dsimp only
  rw [if_neg (by rw [hbytes, length_append, length_cons, length_cons]; omega)]
  rw [hbytes, hset, ← hbytes, hsum, hbytes, hset]

end

/-- `csum_inet` computes the complement of the one's complement sum, with room in its accumulator for the next word at
every turn. A checksum that is the only one of a tree, is one of its fields and has an even place makes the checksum of
the whole buffer zero; nothing else changes. -/
theorem csum_fills :
    (∀ data : List U8, (csumInet data).toNat = 0xffff - onesSum 0xffff (leWords data) ∧
      ∀ k, 2 * k ≤ data.length → (csumWords (data.take (2 * k)) 0#32).toNat + 0xffff < 2 ^ 32) ∧
    ∀ (ctx : Ctx) (w : Nat) (a : Arg) (d : Nat), a.nodes.countP Arg.isCsum = 1 → (.csum, d) ∈ a.placed ctx w →
      d % 2 = 0 → csumInet (fixCsums (encode ctx a w) a w) = 0#16 ∧
        (fixCsums (encode ctx a w) a w).length = (encode ctx a w).length ∧
        ∀ i, i ≠ d → i ≠ d + 1 → (fixCsums (encode ctx a w) a w)[i]? = (encode ctx a w)[i]? := by
  refine ⟨?_, ?_⟩
  · intro data
    refine ⟨toNat_csumInet data, ?_⟩
    intro k hk
    have heven : (data.take (2 * k)).length % 2 = 0 := by
      rw [length_take, Nat.min_eq_left hk]
      omega
    have hzero : (0#32).toNat ≤ 0xffff := Nat.zero_le _
    have hle := (toNat_csumWords hzero heven).2
    omega
  · intro ctx w a d hone hmem heven
    obtain ⟨before, behind, hleaves, rfl⟩ := mem_placed hmem
    obtain ⟨hbytes, hfixed⟩ := fixCsums_encode ctx w hone hleaves rfl
    refine ⟨?_, length_fixCsums _ _ _, ?_⟩
    · rw [hfixed]
      exact csumInet_filled heven (by rw [← hbytes])
    · intro i hi hi'
      rw [hfixed, hbytes]
      exact getElem?_of_ne hi hi'

/-- A header with a checksum between two words. -/
def checked : Arg := .struct [.data [0x45#8, 0x00#8], .union .csum, .int 0x1234#64]

theorem csum_fills_header : csumInet (fixCsums (encode .new checked 4) checked 4) = 0#16 :=
  (csum_fills.2 .new 4 checked 2 (by decide) (mem_cons_of_mem _ mem_cons_self) (by decide)).1

end Vock.Fuzz
