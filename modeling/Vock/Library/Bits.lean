import Mathlib.Data.List.Induction
import Mathlib.Tactic.Ring

/-!
# Bit strings

Numbers as strings of bits, lowest bit first (`bitsOfNat`, `natOfBits`), and bytes as the strings
they are packed from. Code words are sent highest bit first: `codeBits` and `codeOf` are the same two
functions on the reversed string.
-/

namespace Vock.Library

open List

/-- The `n` lowest bits of `v`, lowest first. -/
def bitsOfNat : Nat → Nat → List Bool
  | 0, _ => []
  | n + 1, v => (v % 2 == 1) :: bitsOfNat n (v / 2)

/-- The number a string of bits spells, lowest bit first. -/
def natOfBits : List Bool → Nat
  | [] => 0
  | b :: bs => b.toNat + 2 * natOfBits bs

/-- A string of bytes as bits: byte by byte, each lowest bit first. -/
def bytesBits (bytes : List (BitVec 8)) : List Bool := bytes.flatMap fun b => bitsOfNat 8 b.toNat

@[simp] theorem length_bitsOfNat (n v : Nat) : (bitsOfNat n v).length = n := by
  induction n generalizing v with
  | zero => rfl
  | succ n ih => rw [bitsOfNat, length_cons, ih]

theorem natOfBits_lt (l : List Bool) : natOfBits l < 2 ^ l.length := by
  induction l with
  | nil => exact Nat.one_pos
  | cons b l ih =>
    have hb : b.toNat ≤ 1 := b.toNat_le
    rw [natOfBits, length_cons]
    omega

@[simp] theorem bitsOfNat_natOfBits (l : List Bool) : bitsOfNat l.length (natOfBits l) = l := by
  induction l with
  | nil => rfl
  | cons b l ih =>
    have low : (b.toNat + 2 * natOfBits l) % 2 = b.toNat := by cases b <;> simp
    have high : (b.toNat + 2 * natOfBits l) / 2 = natOfBits l := by cases b <;> simp; omega
    rw [natOfBits, length_cons, bitsOfNat, low, high, ih]
    cases b <;> rfl

theorem natOfBits_bitsOfNat (n v : Nat) : natOfBits (bitsOfNat n v) = v % 2 ^ n := by
  induction n generalizing v with
  | zero => rw [Nat.pow_zero, Nat.mod_one]; rfl
  | succ n ih =>
    have low : (v % 2 == 1).toNat = v % 2 := by
      rcases Nat.mod_two_eq_zero_or_one v with h | h <;> rw [h] <;> rfl
    rw [bitsOfNat, natOfBits, ih, low, Nat.pow_succ', Nat.mod_mul]

/-- The low bits of a number are those of its remainder. -/
theorem bitsOfNat_mod (n v : Nat) : bitsOfNat n (v % 2 ^ n) = bitsOfNat n v := by
  have h := bitsOfNat_natOfBits (bitsOfNat n v)
  rwa [length_bitsOfNat, natOfBits_bitsOfNat] at h

/-- A number's bits, cut after the first `m`. -/
theorem bitsOfNat_add (m n v : Nat) :
    bitsOfNat (m + n) v = bitsOfNat m v ++ bitsOfNat n (v / 2 ^ m) := by
  induction m generalizing v with
  | zero => rw [Nat.zero_add, Nat.pow_zero, Nat.div_one]; rfl
  | succ m ih =>
    rw [Nat.add_right_comm, bitsOfNat, bitsOfNat, ih, Nat.div_div_eq_div_mul, ← Nat.pow_succ',
      cons_append]

/-- A number whose bits are put together from two. -/
theorem bitsOfNat_join (m n : Nat) {v : Nat} (hv : v < 2 ^ m) (w : Nat) :
    bitsOfNat (m + n) (v + 2 ^ m * w) = bitsOfNat m v ++ bitsOfNat n w := by
  have low : (v + 2 ^ m * w) % 2 ^ m = v := by
    rw [Nat.add_mul_mod_self_left, Nat.mod_eq_of_lt hv]
  have high : (v + 2 ^ m * w) / 2 ^ m = w := by
    rw [Nat.add_mul_div_left _ _ (Nat.two_pow_pos m), Nat.div_eq_of_lt hv, Nat.zero_add]
  rw [bitsOfNat_add, ← bitsOfNat_mod, low, high]

@[simp] theorem bytesBits_nil : bytesBits [] = [] := rfl

@[simp] theorem bytesBits_cons (b : BitVec 8) (bytes : List (BitVec 8)) :
    bytesBits (b :: bytes) = bitsOfNat 8 b.toNat ++ bytesBits bytes := rfl

@[simp] theorem bytesBits_append (xs ys : List (BitVec 8)) :
    bytesBits (xs ++ ys) = bytesBits xs ++ bytesBits ys := flatMap_append

@[simp] theorem length_bytesBits (bytes : List (BitVec 8)) :
    (bytesBits bytes).length = 8 * bytes.length := by
  induction bytes with
  | nil => rfl
  | cons b bytes ih =>
    rw [bytesBits_cons, length_append, length_bitsOfNat, length_cons]
    omega

/-- Bytes are whole. -/
theorem length_bytesBits_mod (bytes : List (BitVec 8)) : (0 + (bytesBits bytes).length) % 8 = 0 := by
  rw [length_bytesBits, Nat.zero_add]
  exact Nat.mul_mod_right 8 _

theorem bytesBits_take (n : Nat) (bytes : List (BitVec 8)) :
    bytesBits (bytes.take n) = (bytesBits bytes).take (8 * n) := by
  induction n generalizing bytes with
  | zero => rfl
  | succ n ih =>
    cases bytes with
    | nil => rw [take_nil, bytesBits_nil, take_nil]
    | cons b bytes =>
      have past : 8 * (n + 1) = (bitsOfNat 8 b.toNat).length + 8 * n := by
        rw [length_bitsOfNat]
        omega
      rw [take_succ_cons, bytesBits_cons, bytesBits_cons, past, take_length_add_append, ih]

/-- The first bits of a byte string are those of its first bytes, but for the rest of the last one. -/
theorem exists_bytes_cover {bytes : List (BitVec 8)} {u v : List Bool} (h : bytesBits bytes = u ++ v) :
    ∃ first pad, first <+: bytes ∧ bytesBits first = u ++ pad ∧ pad.length < 8 := by
  have enough : u.length ≤ 8 * ((u.length + 7) / 8) := by omega
  refine ⟨bytes.take ((u.length + 7) / 8), v.take (8 * ((u.length + 7) / 8) - u.length),
    List.take_prefix _ _, ?_, ?_⟩
  · rw [bytesBits_take, h, take_append, take_of_length_le enough]
  · rw [length_take]
    omega

/-! ## Code words -/

/-- The `n` lowest bits of `v`, highest first. -/
def codeBits (n v : Nat) : List Bool := (bitsOfNat n v).reverse

/-- The number a code word spells, highest bit first. -/
def codeOf (w : List Bool) : Nat := natOfBits w.reverse

@[simp] theorem length_codeBits (n v : Nat) : (codeBits n v).length = n := by
  rw [codeBits, length_reverse, length_bitsOfNat]

/-- One more bit doubles the number. -/
theorem codeOf_concat (w : List Bool) (b : Bool) : codeOf (w ++ [b]) = 2 * codeOf w + b.toNat := by
  rw [codeOf, reverse_append, reverse_singleton, singleton_append, natOfBits, codeOf,
    Nat.add_comm]

theorem codeOf_codeBits {n v : Nat} (h : v < 2 ^ n) : codeOf (codeBits n v) = v := by
  rw [codeOf, codeBits, reverse_reverse, natOfBits_bitsOfNat, Nat.mod_eq_of_lt h]

theorem codeBits_codeOf (w : List Bool) : codeBits w.length (codeOf w) = w := by
  rw [codeBits, codeOf, ← length_reverse, bitsOfNat_natOfBits, reverse_reverse]

/-- Shorter words spell the leading part of the number. -/
theorem codeOf_append (w v : List Bool) :
    codeOf (w ++ v) = codeOf w * 2 ^ v.length + codeOf v := by
  induction v using reverseRecOn with
  | nil => simp [codeOf, natOfBits]
  | append_singleton v b ih =>
    rw [← append_assoc, codeOf_concat, ih, codeOf_concat, length_append,
      length_singleton]
    ring

theorem codeOf_lt (w : List Bool) : codeOf w < 2 ^ w.length := by
  rw [← length_reverse]
  exact natOfBits_lt _

end Vock.Library
