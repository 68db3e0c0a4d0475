import Vock.Fuzz.Covset

/-!
# Coverage sets, loaded and compared

A set takes lines until it is full and drops repeated PCs only then (`pcs_loadFile`): a log with repetitions may fill it
before all of its PCs came (`loadFile_exact_iff`). Two sets are compared by counts that are exact as long as an `i32`
holds them (`counts_exact_iff`).
-/

namespace Vock.Fuzz.Covset

open List

/-- The nonzero PCs of a log, in order. -/
def logPcs (text : List U8) : List U64 := (lines text).filterMap linePc

theorem foldl_add (c : Covset) (ls : List (List U8)) :
    ls.foldl (fun c line => (linePc line).elim c c.add) c =
      { c with pcs := c.pcs ++ (ls.filterMap linePc).take (c.cap - c.pcs.length) } := by
  induction ls generalizing c with
  | nil => simp
  | cons l ls ih =>
    rw [foldl_cons, ih]
    cases hpc : linePc l with
    | none => rw [filterMap_cons_none hpc, Option.elim_none]
    | some pc =>
      rw [filterMap_cons_some hpc, Option.elim_some, add]
      split
      next hroom =>
        obtain ⟨n, hn⟩ : ∃ n, c.cap - c.pcs.length = n + 1 := ⟨c.cap - c.pcs.length - 1, by omega⟩
        have hleft : c.cap - (c.pcs ++ [pc]).length = n := by
          rw [length_append, length_singleton]
          omega
        rw [hn, take_succ_cons]
        rw [hleft, append_assoc, singleton_append]
      next hfull => rw [Nat.sub_eq_zero_of_le (Nat.le_of_not_lt hfull), take_zero, take_zero]

theorem pcs_loadFile (cap : Nat) (text : List U8) :
    ((new cap).loadFile (some text)).2 = sortDedup ⟨(logPcs text).take cap, cap⟩ := by
  rw [loadFile, foldl_add]
  rfl

theorem pcs_sortDedup (c : Covset) : c.sortDedup.pcs = (c.pcs.mergeSort fun a b => a ≤ b).dedup := by
  rw [sortDedup]
  split
  next hshort =>
    match h : c.pcs with
    | [] | [pc] => simp
    | _ :: _ :: _ => simp [h] at hshort
  next => exact (pairwise_mergeSort' (· ≤ ·) c.pcs).destutter_eq_dedup

theorem mem_sortDedup {c : Covset} {pc : U64} : pc ∈ c.sortDedup.pcs ↔ pc ∈ c.pcs := by
  rw [pcs_sortDedup, mem_dedup, mem_mergeSort]

theorem pairwise_sortDedup (c : Covset) : c.sortDedup.pcs.Pairwise (· < ·) := by
  have hsorted := (pairwise_mergeSort' (· ≤ ·) c.pcs).sublist (dedup_sublist _)
  rw [pcs_sortDedup]
  exact hsorted.imp₂ (fun _ _ => BitVec.lt_of_le_ne) (nodup_dedup _)

/-- A set has the PCs of a log exactly if each is among the first ones that it has room for. -/
theorem loadFile_exact_iff (cap : Nat) (text : List U8) :
    ((((new cap).loadFile (some text)).2.pcs.Pairwise (· < ·)) ∧
      ∀ pc, pc ∈ ((new cap).loadFile (some text)).2.pcs ↔ pc ∈ logPcs text) ↔
        ∀ pc ∈ logPcs text, pc ∈ (logPcs text).take cap := by
  rw [pcs_loadFile, and_iff_right (pairwise_sortDedup _)]
  simp only [mem_sortDedup]
  exact ⟨fun h pc => (h pc).mpr, fun h pc => ⟨mem_of_mem_take, h pc⟩⟩

/-- A line given twice takes the room of another one. -/
theorem repeated_line_fills :
    (logPcs (utf8 "0x1\n0x1\n0x2\n")).toFinset.card ≤ 2 ∧ 2#64 ∈ logPcs (utf8 "0x1\n0x1\n0x2\n") ∧
      2#64 ∉ ((new 2).loadFile (some (utf8 "0x1\n0x1\n0x2\n"))).2.pcs := by
  have hpcs : logPcs (utf8 "0x1\n0x1\n0x2\n") = [1#64, 1#64, 2#64] := by decide +kernel
  rw [pcs_loadFile, mem_sortDedup, hpcs]
  decide

/-! ## Counting -/

/-- A PC that is not in the first list makes no difference to it. -/
theorem countP_mem_cons (bs : List U64) {as : List U64} {b : U64} (h : ∀ x ∈ as, x ≠ b) :
    as.countP (· ∈ b :: bs) = as.countP (· ∈ bs) ∧ as.countP (· ∉ b :: bs) = as.countP (· ∉ bs) := by
  have hmem : ∀ x ∈ as, (x ∈ b :: bs ↔ x ∈ bs) := fun x hx => by rw [mem_cons, or_iff_right (h x hx)]
  constructor
  · exact countP_congr fun x hx => by simp only [hmem x hx]
  · exact countP_congr fun x hx => by simp only [hmem x hx]

/-- The loop counts the PCs of the first list, those in the second and the others. -/
theorem mergeLoop_eq (both first n : BitVec 32) {as bs : List U64} (has : as.Pairwise (· < ·))
    (hbs : bs.Pairwise (· < ·)) :
    (mergeLoop both first n as bs).1 + BitVec.ofNat 32 (mergeLoop both first n as bs).2.length * first =
      n + BitVec.ofNat 32 (as.countP (· ∈ bs)) * both + BitVec.ofNat 32 (as.countP (· ∉ bs)) * first := by
  fun_induction mergeLoop both first n as bs with
  | case1 n as b bs ih =>
    rw [pairwise_cons] at has hbs
    obtain ⟨hin, hout⟩ := countP_mem_cons bs fun x hx => (BitVec.ne_of_lt (has.1 x hx)).symm
    rw [ih has.2 hbs.2, countP_cons_of_pos (by simp), countP_cons_of_neg (by simp), hin, hout, BitVec.ofNat_add]
    grind
  | case2 n a as b bs hne hlt ih =>
    rw [pairwise_cons] at has
    have hnot : a ∉ b :: bs := by
      intro hmem
      rcases mem_cons.mp hmem with rfl | hmem
      · exact hne rfl
      · exact BitVec.lt_irrefl a (BitVec.lt_trans hlt ((pairwise_cons.mp hbs).1 a hmem))
    rw [ih has.2 hbs, countP_cons_of_neg (by simpa using hnot), countP_cons_of_pos (by simpa using hnot),
      BitVec.ofNat_add]
    grind
  | case3 n a as b bs hne hle ih =>
    have hbelow : ∀ x ∈ a :: as, x ≠ b := by
      rintro x hx rfl
      rcases mem_cons.mp hx with rfl | hx
      · exact hne rfl
      · exact hle ((pairwise_cons.mp has).1 x hx)
    obtain ⟨hin, hout⟩ := countP_mem_cons bs hbelow
    rw [ih has (pairwise_cons.mp hbs).2, hin, hout]
  | case4 n as bs hend =>
    cases as with
    | nil => simp
    | cons a as =>
      cases bs with
      | nil => simp
      | cons b bs => exact (hend a as b bs rfl rfl).elim

theorem card_filter {as : List U64} (has : as.Pairwise (· < ·)) (p : U64 → Bool) :
    (as.filter p).toFinset.card = as.countP p := by
  have hnodup : as.Nodup := has.imp BitVec.ne_of_lt
  rw [toFinset_card_of_nodup (hnodup.filter p), countP_eq_length_filter]

/-- How many PCs of the first set the second has, and how many it does not have. -/
def common (c other : Covset) : Nat := (c.pcs.toFinset ∩ other.pcs.toFinset).card

def added (c other : Covset) : Nat := (c.pcs.toFinset \ other.pcs.toFinset).card

section

variable {c other : Covset} (hc : c.pcs.Pairwise (· < ·)) (hother : other.pcs.Pairwise (· < ·))
include hc hother

theorem intersect_eq : c.intersect other = BitVec.ofNat 32 (c.common other) := by
  have hcommon : c.pcs.toFinset ∩ other.pcs.toFinset = (c.pcs.filter (· ∈ other.pcs)).toFinset := by
    ext pc
    simp
  have hloop := mergeLoop_eq 1#32 0#32 0#32 hc hother
  rw [common, hcommon, card_filter hc, intersect]
  simpa using hloop

theorem novel_eq : c.novel other = BitVec.ofNat 32 (c.added other) := by
  have hadded : c.pcs.toFinset \ other.pcs.toFinset = (c.pcs.filter (· ∉ other.pcs)).toFinset := by
    ext pc
    simp
  have hloop := mergeLoop_eq 0#32 1#32 0#32 hc hother
  rw [added, hadded, card_filter hc, novel]
  simpa using hloop

omit hother in
theorem common_add_added : c.common other + c.added other = c.pcs.length := by
  have hnodup : c.pcs.Nodup := hc.imp BitVec.ne_of_lt
  rw [common, added, Finset.card_inter_add_card_sdiff, toFinset_card_of_nodup hnodup]

end

theorem toInt_eq_iff (n : Nat) : (BitVec.ofNat 32 n).toInt = n ↔ n < 2 ^ 31 := by
  rw [BitVec.toInt_eq_toNat_bmod, BitVec.toNat_ofNat, Int.bmod_def]
  split <;> omega

/-- The counts are those of the sets, and add up to the length, exactly if an `i32` holds them. -/
theorem counts_exact_iff (c other : Covset) (hc : c.pcs.Pairwise (· < ·)) (hother : other.pcs.Pairwise (· < ·)) :
    ((c.intersect other).toInt = c.common other ∧ (c.novel other).toInt = c.added other ∧
      (c.intersect other).toInt + (c.novel other).toInt = c.pcs.length) ↔
        c.common other < 2 ^ 31 ∧ c.added other < 2 ^ 31 := by
  rw [intersect_eq hc hother, novel_eq hc hother, ← toInt_eq_iff, ← toInt_eq_iff]
  refine and_congr_right fun hcommon => and_iff_left_of_imp fun hadded => ?_
  rw [hcommon, hadded, ← Nat.cast_add, common_add_added hc]

theorem counts_exact_iff_two :
    (intersect ⟨[1#64, 2#64], 4⟩ ⟨[2#64], 4⟩).toInt = 1 ∧ (novel ⟨[1#64, 2#64], 4⟩ ⟨[2#64], 4⟩).toInt = 1 :=
  have hcounts := (counts_exact_iff ⟨[1#64, 2#64], 4⟩ ⟨[2#64], 4⟩ (by decide) (by decide)).mpr (by decide)
  ⟨hcounts.1, hcounts.2.1⟩

/-- The PCs below `n`. -/
def pcsBelow (n : Nat) : Covset := ⟨(range n).map (BitVec.ofNat 64), n⟩

theorem intersect_pcsBelow {n : Nat} (hn : n ≤ 2 ^ 64) :
    (pcsBelow n).pcs.Pairwise (· < ·) ∧ (pcsBelow n).intersect (pcsBelow n) = BitVec.ofNat 32 n := by
  have hsorted : (pcsBelow n).pcs.Pairwise (· < ·) := by
    refine pairwise_map.mpr (pairwise_lt_range.imp_of_mem fun {i j} hi hj hij => ?_)
    have := mem_range.mp hj
    rw [BitVec.lt_def, BitVec.toNat_ofNat, BitVec.toNat_ofNat]
    omega
  have hsum : (pcsBelow n).common (pcsBelow n) + _ = _ := common_add_added hsorted
  rw [added, Finset.sdiff_self, Finset.card_empty, Nat.add_zero] at hsum
  refine ⟨hsorted, ?_⟩
  rw [intersect_eq hsorted hsorted, hsum, pcsBelow, length_map, length_range]

/-- A set of 2 ^ 31 PCs has a negative number of them in common with itself. -/
theorem intersect_wraps :
    (pcsBelow (2 ^ 31)).pcs.Pairwise (· < ·) ∧
      ((pcsBelow (2 ^ 31)).intersect (pcsBelow (2 ^ 31))).toInt = -2 ^ 31 := by
  obtain ⟨hsorted, hcount⟩ := @intersect_pcsBelow (2 ^ 31) (by decide)
  rw [hcount]
  exact ⟨hsorted, by decide⟩

end Vock.Fuzz.Covset
