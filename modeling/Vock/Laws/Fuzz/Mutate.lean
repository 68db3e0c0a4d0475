import Mathlib.Order.Interval.Finset.Nat
import Vock.Fuzz.Mutate
import Vock.Fuzz.ProgMutate

/-!
# Choice and removal of calls

How often `biased_idx` takes an index (`biased_later_iff`): the earlier ones are the frequent ones. What
`minimize_trace` leaves of a trace (`minimizeTrace_keeps`). Which seeds the generators run from (`generators_run_iff`).

Frequencies are counted over the numbers below `n * n`. Not established: that the generator gives each as often.
-/

namespace Vock.Fuzz.Mutate

open List

/-! ## The biased index -/

/-- How many random numbers give the index `i`. -/
def hits (n i : Nat) : Nat := ((Finset.range (n * n)).filter fun r => biasedAt n r = i).card

theorem biasedAt_of_lt {n r : Nat} (hr : r < n * n) : r.sqrt < n ∧ biasedAt n r = n - 1 - r.sqrt := by
  have hlt := Nat.sqrt_lt.mpr hr
  rw [biasedAt, if_neg (by omega)]
  omega

theorem hits_eq {n i : Nat} (hi : i < n) : hits n i = 2 * (n - 1 - i) + 1 := by
  obtain ⟨k, rfl⟩ : ∃ k, n = i + k + 1 := ⟨n - 1 - i, by omega⟩
  have hsquares : (Finset.range ((i + k + 1) * (i + k + 1))).filter (fun r => biasedAt (i + k + 1 : Nat) r = i) =
      Finset.Ico (k * k) ((k + 1) * (k + 1)) := by
    ext r
    have habove : r < (k + 1) * (k + 1) ↔ r.sqrt < k + 1 := Nat.sqrt_lt.symm
    rw [Finset.mem_filter, Finset.mem_range, Finset.mem_Ico, ← Nat.le_sqrt]
    constructor
    · rintro ⟨hr, hidx⟩
      obtain ⟨hlt, heq⟩ := biasedAt_of_lt hr
      omega
    · rintro ⟨hle, hlt⟩
      have hr : r < (i + k + 1) * (i + k + 1) := Nat.sqrt_lt.mp (by omega)
      obtain ⟨-, heq⟩ := biasedAt_of_lt hr
      exact ⟨hr, by omega⟩
  rw [hits, hsquares, Nat.card_Ico]
  have hsquare : (k + 1) * (k + 1) = k * k + 2 * k + 1 := by
    rw [Nat.add_mul, Nat.mul_add]
    omega
  omega

/-- The index is that of a random number below the square, where `i64` holds the square. -/
theorem biasedIdx_eq {n : Nat} (hpos : 0 < n) (hfits : n * n < 2 ^ 63) (rng : Rng) :
    ∃ r < n * n, (biasedIdx n rng).1 = biasedAt n r := by
  have hsquare : ((n : Int) * n).bmod (2 ^ 64) = ((n * n : Nat) : Int) := by
    rw [Int.bmod_eq_of_le (by omega) (by omega)]
    norm_cast
  have hmul : 0 < n * n := Nat.mul_pos hpos hpos
  rw [biasedIdx, if_neg (by omega), hsquare, Rng.below, if_neg (by omega)]
  exact ⟨_, Nat.mod_lt _ hmul, rfl⟩

/-- Each index is taken, and none out of range, but a later one is never taken more often. What `biased_idx` gives is
the index of such a number. -/
theorem biased_later_iff (n : Nat) :
    (∀ r < n * n, biasedAt n r < n) ∧ (∀ i < n, 0 < hits n i) ∧ (∀ i j, i < j → j < n → hits n j < hits n i) ∧
      ((∀ i j, i ≤ j → j < n → hits n i ≤ hits n j) ↔ n ≤ 1) ∧
      (0 < n → n * n < 2 ^ 63 → ∀ rng, ∃ r < n * n, (biasedIdx n rng).1 = biasedAt n r) := by
  have hless : ∀ i j, i < j → j < n → hits n j < hits n i := by
    intro i j hij hj
    rw [hits_eq hj, hits_eq (hij.trans hj)]
    omega
  refine ⟨fun r hr => ?_, fun i hi => ?_, hless, ⟨fun h => ?_, fun hn i j hij hj => ?_⟩, biasedIdx_eq⟩
  · obtain ⟨hlt, heq⟩ := biasedAt_of_lt hr
    omega
  · rw [hits_eq hi]
    omega
  · by_contra hn
    exact absurd (h 0 1 (by omega) (by omega)) (Nat.not_le_of_lt (hless 0 1 (by omega) (by omega)))
  · rw [show i = j by omega]

/-- Of two calls, the first is taken for three numbers of four. -/
theorem earlier_favoured : hits 2 0 = 3 ∧ hits 2 1 = 1 := by decide +kernel

/-! ## Minimization -/

/-- What may be left of calls: a value below 256 of a call that is gone is in no argument of a later one. -/
inductive Minimized : List Syscall → List Syscall → Prop
  | nil : Minimized [] []
  | kept {c : Syscall} {cs ks : List Syscall} (rest : Minimized cs ks) : Minimized (c :: cs) (c :: ks)
  | gone {c : Syscall} {cs ks : List Syscall} (rest : Minimized cs ks)
      (unused : 0 ≤ c.ret.toInt → c.ret.toInt < 256 → ∀ k ∈ ks, c.ret ∉ k.args) : Minimized (c :: cs) ks

variable {cs ks : List Syscall}

theorem Minimized.sublist (h : Minimized cs ks) : ks.Sublist cs := by
  induction h with
  | nil => exact .slnil
  | kept _ ih => exact ih.cons_cons _
  | gone _ _ ih => exact ih.cons _

theorem Minimized.append_left (h : Minimized cs ks) (front : List Syscall) :
    Minimized (front ++ cs) (front ++ ks) := by
  induction front with
  | nil => exact h
  | cons c front ih => exact ih.kept

theorem unused_of_not_needed {ret : U64} {later : List Syscall} (h : ¬ needed ret later) (hlo : 0 ≤ ret.toInt)
    (hhi : ret.toInt < 256) : ∀ k ∈ later, ret ∉ k.args := by
  simpa [needed, hlo, hhi] using h

/-- The calls behind `front` are as they stay, and `front` is to be gone through from its end. -/
theorem minimizeFrom_spec (c : Syscall) (front : List Syscall) (h : Minimized cs ks) (rng : Rng)
    (hlen : 3 ≤ (c :: front ++ ks).length) :
    ∃ ls, (minimizeFrom front.length (c :: front ++ ks) rng).1 = c :: ls ∧ Minimized (front ++ cs) ls ∧ 2 ≤ ls.length := by
  induction front using reverseRecOn generalizing cs ks rng with
  | nil => exact ⟨ks, rfl, h, by simpa using hlen⟩
  | append_singleton front d ih =>
    have hstop : ∃ ls, c :: (front ++ [d]) ++ ks = c :: ls ∧ Minimized (front ++ [d] ++ cs) ls ∧ 2 ≤ ls.length :=
      ⟨_, rfl, h.append_left _, by simpa using hlen⟩
    rw [length_append, length_singleton, minimizeFrom]
    split
    next hlong =>
      have hsplit : c :: (front ++ [d]) ++ ks = (c :: front) ++ d :: ks := by simp
      have hkeep := fun rng => ih (h.kept) rng (by rwa [← hsplit])
      rw [hsplit, drop_left' (by rfl), append_assoc]
      dsimp only
      split
      next => exact hkeep rng
      next hfree =>
        split
        next =>
          rw [take_left' (by rfl)]
          refine ih (h.gone (unused_of_not_needed hfree)) _ ?_
          rw [hsplit] at hlong
          simp only [length_append, length_cons] at hlong ⊢
          omega
        next => exact hkeep _
    next => exact hstop

/-- The first call stays, three calls or all stay, and no value that a later call has goes. -/
theorem minimizeTrace_keeps (trace : List Syscall) (rng : Rng) :
    (minimizeTrace trace rng).1.Sublist trace ∧ Minimized trace (minimizeTrace trace rng).1 ∧
      (minimizeTrace trace rng).1.head? = trace.head? ∧ min 3 trace.length ≤ (minimizeTrace trace rng).1.length := by
  rw [minimizeTrace]
  split
  next =>
    have hall := Minimized.nil.append_left trace
    rw [append_nil] at hall
    exact ⟨.refl _, hall, rfl, Nat.min_le_right _ _⟩
  next hlong =>
    obtain ⟨c, front, rfl⟩ := exists_cons_of_ne_nil (l := trace) (by rintro rfl; simp at hlong)
    obtain ⟨ls, hls, hmin, hlen⟩ := minimizeFrom_spec c front .nil rng (by simp at hlong ⊢; omega)
    rw [append_nil] at hls hmin
    rw [length_cons, Nat.add_sub_cancel, hls]
    exact ⟨hmin.kept.sublist, hmin.kept, rfl, by rw [length_cons]; omega⟩

/-! ## The generators -/

theorem next_eq_zero_iff (rng : Fuzz.Rng) : rng.next.2.state = 0#64 ↔ rng.state = 0#64 := by
  rw [Fuzz.Rng.next]
  dsimp only
  rw [xor_ushiftRight_eq_zero_iff (by decide), xor_shiftLeft_eq_zero_iff (by decide),
    xor_ushiftRight_eq_zero_iff (by decide)]

theorem nextU64_eq_zero_iff (rng : Rng) : rng.nextU64.2.state = 0#64 ↔ rng.state = 0#64 := by
  rw [Rng.nextU64]
  dsimp only
  rw [xor_shiftLeft_eq_zero_iff (by decide), xor_ushiftRight_eq_zero_iff (by decide),
    xor_shiftLeft_eq_zero_iff (by decide)]

/-- The generator for programs never comes to the state 0; that of the fuzzer is there from the seed on where the seed
is its constant, and never otherwise. -/
theorem generators_run_iff (seed : U64) (n : Nat) :
    ((fun rng : Fuzz.Rng => rng.next.2)^[n] (.new seed)).state ≠ 0#64 ∧
      (((fun rng : Rng => rng.nextU64.2)^[n] (.new seed)).state ≠ 0#64 ↔ seed ≠ 0x9e3779b97f4a7c15#64) := by
  have hstart : (Fuzz.Rng.new seed).state ≠ 0#64 := by
    rw [Fuzz.Rng.new]
    dsimp only
    split
    next => decide
    next hseed => exact hseed
  refine ⟨?_, ?_, ?_⟩
  · exact Function.Iterate.rec (fun rng : Fuzz.Rng => rng.state ≠ 0#64) hstart
      (fun rng => mt (next_eq_zero_iff rng).mp) n
  · rintro hstate rfl
    exact hstate (Function.Iterate.rec (fun rng : Rng => rng.state = 0#64) rfl
      (fun rng => (nextU64_eq_zero_iff rng).mpr) n)
  · intro hseed
    refine Function.Iterate.rec (fun rng : Rng => rng.state ≠ 0#64) ?_ (fun rng => mt (nextU64_eq_zero_iff rng).mp) n
    exact fun hzero => hseed (BitVec.xor_eq_zero_iff.mp hzero)

/-- From this seed on the numbers are all 0. -/
theorem generator_stuck :
    (Rng.new 0x9e3779b97f4a7c15#64).state = 0#64 ∧ (Rng.new 0x9e3779b97f4a7c15#64).nextU64 = (0#64, ⟨0#64⟩) :=
  ⟨rfl, rfl⟩

end Vock.Fuzz.Mutate
