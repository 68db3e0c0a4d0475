import Mathlib.Algebra.Group.Int.Defs
import Mathlib.Algebra.GroupWithZero.Nat
import Mathlib.Data.List.Basic

/-!
# Machine words

The two fixed-width integers the decoders compute with, the little-endian reading they share, and words xored with their
shifts.
-/

namespace Vock

/-- `u8`. -/
abbrev U8 := BitVec 8

instance : LawfulBEq U8 := inferInstance

/-- `u64`. -/
abbrev U64 := BitVec 64

/-- The byte of an ASCII character. -/
def byte (c : Char) : U8 := BitVec.ofNat 8 c.toNat

/-- A literal of the source. -/
def ascii (cs : List Char) : List U8 := cs.map byte

/-- The bytes of a string. -/
def utf8 (s : String) : List U8 := s.toByteArray.data.toList.map UInt8.toBitVec

theorem toNat_word {w n : Nat} (h : n < 2 ^ w) : (BitVec.ofNat w n).toNat = n := by
  rw [BitVec.toNat_ofNat, Nat.mod_eq_of_lt h]

/-- The loop `val |= (bytes[i] as u64) << (8 * i)`, from byte index `k` on. -/
def leFrom (k : Nat) : List U8 → U64
  | [] => 0#64
  | b :: bs => (b.setWidth 64 <<< (8 * k)) ||| leFrom (k + 1) bs

/-- A little-endian payload as the word it spells. -/
def leValue (bytes : List U8) : U64 := leFrom 0 bytes

/-- The little-endian word of `n` bytes at an offset. -/
def loadLe (n : Nat) (mem : Nat → U8) (off : Nat) : U64 := leValue ((List.range n).map fun i => mem (off + i))

/-- The low `n` bytes of a word, lowest first. -/
def leBytes (n : Nat) (w : U64) : List U8 := (List.range n).map fun i => w.extractLsb' (8 * i) 8

@[simp] theorem length_leBytes (n : Nat) (w : U64) : (leBytes n w).length = n := by
  simp only [leBytes, List.length_map, List.length_range]

/-- Bit `j` of a little-endian reading is bit `j % 8` of byte `j / 8`. -/
theorem getLsbD_leFrom (k : Nat) (bs : List U8) (j : Nat) (hj : j < 64) :
    (leFrom k bs).getLsbD j =
      (decide (8 * k ≤ j) && (bs[j / 8 - k]?.getD 0#8).getLsbD (j % 8)) := by
  induction bs generalizing k with
  | nil => simp only [leFrom, List.getElem?_nil, Option.getD_none, BitVec.getLsbD_zero, Bool.and_false]
  | cons b bs ih =>
    simp only [leFrom, BitVec.getLsbD_or, BitVec.getLsbD_shiftLeft, BitVec.getLsbD_setWidth, ih]
    rcases Nat.lt_trichotomy (j / 8) k with hlt | heq | hgt
    · -- below byte `k`: nothing is set
      have h1 : ¬ 8 * k ≤ j := by omega
      have h2 : ¬ 8 * (k + 1) ≤ j := by omega
      have h3 : j < 8 * k := by omega
      simp only [h1, h2, h3, decide_true, decide_false, Bool.not_true, Bool.and_false, Bool.false_and,
        Bool.or_false]
    · -- inside byte `k`
      have h1 : 8 * k ≤ j := by omega
      have h2 : ¬ 8 * (k + 1) ≤ j := by omega
      have h3 : ¬ j < 8 * k := by omega
      have h4 : j - 8 * k = j % 8 := by omega
      have h5 : j % 8 < 64 := by omega
      have h6 : j / 8 - k = 0 := by omega
      simp only [hj, h1, h2, h3, h4, h5, h6, decide_true, decide_false, Bool.not_false, Bool.and_true,
        Bool.true_and, Bool.false_and, Bool.or_false, List.getElem?_cons_zero, Option.getD_some]
    · -- above byte `k`: the tail answers
      have h1 : 8 * k ≤ j := by omega
      have h2 : 8 * (k + 1) ≤ j := by omega
      have h3 : 8 ≤ j - 8 * k := by omega
      have h4 : j / 8 - k = (j / 8 - (k + 1)) + 1 := by omega
      simp only [h1, h2, h4, BitVec.getLsbD_of_ge b _ h3, decide_true, Bool.and_false, Bool.true_and,
        Bool.false_or, List.getElem?_cons_succ]

/-- A payload of `n` bytes has nothing above them. -/
theorem leValue_ushiftRight (bytes : List U8) (n : Nat) (h : bytes.length ≤ n) :
    leValue bytes >>> (8 * n) = 0#64 := by
  apply BitVec.eq_of_getLsbD_eq
  intro j _
  rw [BitVec.getLsbD_ushiftRight, BitVec.getLsbD_zero]
  by_cases hj : 8 * n + j < 64
  · rw [leValue, getLsbD_leFrom 0 _ _ hj, List.getElem?_eq_none (by omega), Option.getD_none,
      BitVec.getLsbD_zero, Bool.and_false]
  · exact BitVec.getLsbD_of_ge _ _ (by omega)

theorem toNat_leValue_lt {bytes : List U8} {n : Nat} (h : bytes.length ≤ n) :
    (leValue bytes).toNat < 2 ^ (8 * n) := by
  have hzero := congrArg BitVec.toNat (leValue_ushiftRight bytes n h)
  rw [BitVec.toNat_ushiftRight, Nat.shiftRight_eq_div_pow, BitVec.toNat_ofNat, Nat.zero_mod] at hzero
  exact (Nat.div_eq_zero_iff_lt (Nat.two_pow_pos _)).mp hzero

/-- Reading back the low `n` bytes of a word keeps its low `8 * n` bits. -/
theorem getLsbD_leValue_leBytes (n : Nat) (w : U64) (j : Nat) (hj : j < 64) :
    (leValue (leBytes n w)).getLsbD j = (decide (j < 8 * n) && w.getLsbD j) := by
  rw [leValue, getLsbD_leFrom 0 _ j hj]
  by_cases hn : j < 8 * n
  · have h1 : j / 8 < n := by omega
    have h2 : j % 8 < 8 := by omega
    have h3 : 8 * (j / 8) + j % 8 = j := by omega
    simp only [leBytes, hn, h1, h2, h3, Nat.mul_zero, Nat.zero_le, Nat.sub_zero, List.getElem?_map,
      List.getElem?_range, Option.map_some, Option.getD_some, BitVec.getLsbD_extractLsb', decide_true,
      Bool.true_and]
  · have h1 : n ≤ j / 8 := by omega
    simp only [leBytes, hn, List.getElem?_map, List.getElem?_eq_none (List.length_range.symm ▸ h1 :
      (List.range n).length ≤ j / 8 - 0), Option.map_none, Option.getD_none, BitVec.getLsbD_zero,
      decide_false, Bool.and_false, Bool.false_and]

/-- All eight bytes of a word spell the word. -/
theorem leValue_leBytes_eight (w : U64) : leValue (leBytes 8 w) = w := by
  apply BitVec.eq_of_getLsbD_eq
  intro j hj
  rw [getLsbD_leValue_leBytes 8 w j hj, decide_eq_true (by omega), Bool.true_and]

/-- So do fewer, where they hold all of it. -/
theorem leValue_leBytes_of_lt {n : Nat} {w : U64} (h : w.toNat < 2 ^ (8 * n)) : leValue (leBytes n w) = w := by
  apply BitVec.eq_of_getLsbD_eq
  intro j hj
  rw [getLsbD_leValue_leBytes n w j hj]
  by_cases hn : j < 8 * n
  · rw [decide_eq_true hn, Bool.true_and]
  · have hzero : w.getLsbD j = false := by
      rw [BitVec.getLsbD]
      exact Nat.testBit_lt_two_pow (Nat.lt_of_lt_of_le h (Nat.pow_le_pow_right (by decide) (by omega)))
    rw [hzero, Bool.and_false]

theorem leValue_leBytes_four (v : BitVec 32) : (leValue (leBytes 4 (v.setWidth 64))).setWidth 32 = v := by
  apply BitVec.eq_of_getLsbD_eq
  intro j hj
  have hj' : j < 64 := by omega
  rw [BitVec.getLsbD_setWidth, getLsbD_leValue_leBytes 4 _ j hj', BitVec.getLsbD_setWidth, decide_eq_true hj,
    decide_eq_true hj', Bool.true_and, Bool.true_and, Bool.true_and]

/-- A word is read where its bytes are. -/
theorem loadLe_eq {n : Nat} {mem : Nat → U8} {off : Nat} {w : U64}
    (h : ∀ i < n, mem (off + i) = w.extractLsb' (8 * i) 8) : loadLe n mem off = leValue (leBytes n w) := by
  rw [loadLe, leBytes]
  exact congrArg leValue (List.map_congr_left fun i hi => h i (List.mem_range.mp hi))

theorem loadLe_eight {mem : Nat → U8} {off : Nat} {w : U64} (h : ∀ i < 8, mem (off + i) = w.extractLsb' (8 * i) 8) :
    loadLe 8 mem off = w := (loadLe_eq h).trans (leValue_leBytes_eight w)

section

variable {w k : Nat} {x : BitVec w}

/-- A word without bits is the only one that is its own shift. -/
theorem xor_shiftLeft_eq_zero_iff (hk : 0 < k) : x ^^^ (x <<< k) = 0#w ↔ x = 0#w := by
  constructor
  · intro h
    have hshift : x = x <<< k := BitVec.xor_eq_zero_iff.mp h
    -- from the lowest bit up, each is one that is lower by `k`
    have hbits : ∀ i, x.getLsbD i = false := by
      intro i
      induction i using Nat.strongRecOn with
      | ind i ih =>
        rw [hshift, BitVec.getLsbD_shiftLeft]
        by_cases hik : i < k
        · simp [hik]
        · rw [ih (i - k) (by omega), Bool.and_false]
    exact BitVec.eq_of_getLsbD_eq fun i _ => by rw [hbits, BitVec.getLsbD_zero]
  · rintro rfl
    simp

theorem xor_ushiftRight_eq_zero_iff (hk : 0 < k) : x ^^^ (x >>> k) = 0#w ↔ x = 0#w := by
  constructor
  · intro h
    have hshift := congrArg BitVec.toNat (BitVec.xor_eq_zero_iff.mp h)
    rw [BitVec.toNat_ushiftRight, Nat.shiftRight_eq_div_pow] at hshift
    refine BitVec.eq_of_toNat_eq ?_
    by_contra hne
    have hless := Nat.div_lt_self (Nat.pos_of_ne_zero hne) (Nat.one_lt_two_pow (Nat.ne_of_gt hk))
    omega
  · rintro rfl
    simp

end

end Vock
