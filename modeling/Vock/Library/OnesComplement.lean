import Mathlib.Algebra.BigOperators.Group.List.Basic
import Mathlib.Algebra.GroupWithZero.Nat

/-!
# Sums with an end-around carry

The one's complement sum of words, where `m` is the greatest word. The sum of words is the residue of their plain sum
in `1 … m`, or zero where all words are zero (`onesSum_eq_residue`): zero has two words, `0` and `m`, and a sum in which
some word is not zero is never the first. A word that completes the sum of the others to `m` makes the sum `m`
(`onesSum_complement`).
-/

namespace Vock.Library

/-- Addition with the carry added at the low end. -/
def endAround (m a b : Nat) : Nat := if m < a + b then a + b - m else a + b

def onesSum (m : Nat) (ws : List Nat) : Nat := ws.foldl (endAround m) 0

/-- The residue modulo `m`, in `1 … m` for what is not zero. -/
def residue (m n : Nat) : Nat := if n = 0 then 0 else (n - 1) % m + 1

variable {m : Nat}

theorem endAround_le {a b : Nat} (ha : a ≤ m) (hb : b ≤ m) : endAround m a b ≤ m := by
  unfold endAround
  split <;> omega

/-- A number that is not zero, by multiples of `m`. -/
theorem exists_multiple (hm : 0 < m) {n : Nat} (hn : n ≠ 0) : ∃ q r, r < m ∧ n = m * q + r + 1 := by
  refine ⟨(n - 1) / m, (n - 1) % m, Nat.mod_lt _ hm, ?_⟩
  rw [Nat.div_add_mod]
  omega

theorem residue_multiple {q r : Nat} (hr : r < m) : residue m (m * q + r + 1) = r + 1 := by
  rw [residue, if_neg (Nat.succ_ne_zero _), Nat.add_sub_cancel, Nat.mul_add_mod, Nat.mod_eq_of_lt hr]

theorem endAround_residue (hm : 0 < m) (n : Nat) {b : Nat} (hb : b ≤ m) :
    endAround m (residue m n) b = residue m (n + b) := by
  unfold endAround
  by_cases hn : n = 0
  · have hzero : residue m n = 0 := if_pos hn
    rw [hzero, if_neg (by omega), hn]
    by_cases hb0 : b = 0
    · rw [hb0]
      rfl
    · have hb1 : 0 + b = m * 0 + (b - 1) + 1 := by omega
      rw [hb1, residue_multiple (by omega)]
      omega
  · obtain ⟨q, r, hr, rfl⟩ := exists_multiple hm hn
    rw [residue_multiple hr]
    split
    next hcarry =>
      -- one multiple of `m` more
      have hnext : m * q + r + 1 + b = m * (q + 1) + (r + b - m) + 1 := by
        rw [Nat.mul_add]
        omega
      rw [hnext, residue_multiple (by omega)]
      omega
    next hcarry =>
      have hsame : m * q + r + 1 + b = m * q + (r + b) + 1 := by omega
      rw [hsame, residue_multiple (by omega)]
      omega

/-- The sum of words is the residue of their plain sum. -/
theorem onesSum_eq_residue (hm : 0 < m) {ws : List Nat} (h : ∀ w ∈ ws, w ≤ m) : onesSum m ws = residue m ws.sum := by
  have hfold : ∀ n, ws.foldl (endAround m) (residue m n) = residue m (n + ws.sum) := by
    induction ws with
    | nil => intro n; rfl
    | cons w ws ih =>
      intro n
      rw [List.foldl_cons, endAround_residue hm n (h w List.mem_cons_self),
        ih fun v hv => h v (List.mem_cons_of_mem w hv), List.sum_cons, Nat.add_assoc]
  have hzero := hfold 0
  rw [Nat.zero_add] at hzero
  exact hzero

/-- A word that completes the sum of the others. -/
theorem onesSum_complement (hm : 0 < m) {before behind : List Nat} (hbefore : ∀ w ∈ before, w ≤ m)
    (hbehind : ∀ w ∈ behind, w ≤ m) :
    onesSum m (before ++ (m - onesSum m (before ++ 0 :: behind)) :: behind) = m := by
  have hfilled : ∀ c ≤ m, ∀ w ∈ before ++ c :: behind, w ≤ m := by
    intro c hc w hw
    rcases List.mem_append.mp hw with hw | hw
    · exact hbefore w hw
    · rcases List.mem_cons.mp hw with rfl | hw
      · exact hc
      · exact hbehind w hw
  rw [onesSum_eq_residue hm (hfilled 0 (Nat.zero_le m)), onesSum_eq_residue hm (hfilled _ (Nat.sub_le _ _))]
  simp only [List.sum_append, List.sum_cons, Nat.zero_add]
  generalize before.sum = x
  generalize behind.sum = y
  by_cases hzero : x + y = 0
  · have hnone : residue m (x + y) = 0 := if_pos hzero
    have hall : x + (m - residue m (x + y) + y) = m * 0 + (m - 1) + 1 := by omega
    rw [hall, residue_multiple (by omega)]
    omega
  · obtain ⟨q, r, hr, hsum⟩ := exists_multiple hm hzero
    have hresidue : residue m (x + y) = r + 1 := by rw [hsum, residue_multiple hr]
    have hall : x + (m - residue m (x + y) + y) = m * q + (m - 1) + 1 := by omega
    rw [hall, residue_multiple (by omega)]
    omega

end Vock.Library
