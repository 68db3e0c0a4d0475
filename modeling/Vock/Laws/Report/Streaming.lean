import Vock.Laws.Report.Log
import Vock.Report.Streaming

/-!
# Laws of the streaming report

With a resolver that answers each address and a fixed offset, what is kept for the PCs is aligned after every block:
the pairs are the answers for the distinct PCs, in the order they were met (`aligned_streamPcs`). The coverage is
therefore that of the answers for the distinct PCs in ascending order, however the PCs come and are cut into blocks
(`accumulate_covered`).
-/

namespace Vock.Report

open List

variable {met : List U64} {s : Streaming} {r : Streaming × List U64}

/-- The distinct PCs in ascending order. -/
def ascending (pcs : List U64) : List U64 := pcs.dedup.mergeSort fun a b => a ≤ b

section

variable (resolve : U64 → Answered) (off : U64) (kernelSrc : List U8)

/-- The variables after the PCs that were met. -/
structure Aligned (met : List U64) (s : Streaming) : Prop where
  seen : ∀ pc, s.seen pc = none ↔ pc ∉ s.uniq
  nodup : s.uniq.Nodup
  mem : ∀ pc, pc ∈ s.uniq ↔ pc ∈ met
  pairs : s.pairs = s.uniq.map fun pc => resolve (pc - off)
  locs : s.locs = s.pairs.map (locationString kernelSrc)
  offset : s.offset.getD off = off

variable {resolve off kernelSrc}

/-! ## The PCs of a block -/

/-- What is known while the PCs of a block are met: the fresh ones are at the end of `uniq`. -/
structure Meeting (s : Streaming) (met : List U64) (r : Streaming × List U64) : Prop where
  seen : ∀ pc, r.1.seen pc = none ↔ pc ∉ r.1.uniq
  nodup : r.1.uniq.Nodup
  mem : ∀ pc, pc ∈ r.1.uniq ↔ pc ∈ met
  uniq : r.1.uniq = s.uniq ++ r.2
  pairs : r.1.pairs = s.pairs
  locs : r.1.locs = s.locs
  offset : r.1.offset = s.offset

theorem meeting_meet (h : Meeting s met r) (pc : U64) : Meeting s (met ++ [pc]) (meet r pc) := by
  have hseen := h.seen pc
  unfold meet
  split
  next hnone =>
    have hfresh : pc ∉ r.1.uniq := hseen.mp hnone
    refine ⟨?_, ?_, ?_, ?_, h.pairs, h.locs, h.offset⟩
    · intro q
      simp only [Function.update_apply, mem_append, mem_singleton, not_or]
      by_cases hq : q = pc
      · simp only [hq, if_true, reduceCtorEq, not_true_eq_false, and_false]
      · rw [if_neg hq, h.seen q]
        exact (and_iff_left hq).symm
    · simpa only [concat_eq_append] using h.nodup.concat hfresh
    · intro q
      simp [h.mem q]
    · simp only [h.uniq, append_assoc]
  next hsome =>
    have hmem : pc ∈ r.1.uniq := by
      apply Classical.byContradiction
      intro hnot
      exact hsome (hseen.mpr hnot)
    refine ⟨h.seen, h.nodup, ?_, h.uniq, h.pairs, h.locs, h.offset⟩
    intro q
    rw [h.mem q, mem_append, mem_singleton]
    constructor
    · exact .inl
    · rintro (hq | rfl)
      · exact hq
      · exact (h.mem q).mp hmem

theorem meeting_foldl (h : Meeting s met r) (pcs : List U64) : Meeting s (met ++ pcs) (pcs.foldl meet r) := by
  induction pcs generalizing met r with
  | nil => rwa [append_nil]
  | cons pc pcs ih =>
    have hrest := ih (meeting_meet h pc)
    rwa [append_assoc] at hrest

/-- The answers for the fresh PCs keep the pairs aligned, and no padding is needed. -/
theorem aligned_resolveFresh (h : Meeting s met r) (hpairs : s.pairs = s.uniq.map fun pc => resolve (pc - off))
    (hlocs : s.locs = s.pairs.map (locationString kernelSrc)) (hoffset : s.offset.getD off = off) :
    Aligned resolve off kernelSrc met (resolveFresh (List.map resolve) kernelSrc off r.2 r.1) := by
  unfold resolveFresh
  split
  next hnil =>
    have huniq : r.1.uniq = s.uniq := by rw [h.uniq, hnil, append_nil]
    refine ⟨h.seen, h.nodup, h.mem, ?_, ?_, ?_⟩
    · rw [h.pairs, hpairs, huniq]
    · rw [h.locs, hlocs, h.pairs]
    · rw [h.offset, hoffset]
  next =>
    have hmissing : r.1.uniq.length - (r.1.pairs.length + ((r.2.map (· - off)).map resolve).length) = 0 := by
      rw [h.uniq, h.pairs, hpairs]
      simp
    refine ⟨h.seen, h.nodup, h.mem, ?_, ?_, ?_⟩
    · simp only [hmissing, replicate_zero, append_nil]
      rw [h.pairs, hpairs, h.uniq, map_append, map_map]
      rfl
    · simp only [hmissing, replicate_zero, append_nil]
      rw [h.locs, hlocs, h.pairs, map_append]
    · rw [h.offset, hoffset]

/-- One block. -/
theorem aligned_streamPcs (h : Aligned resolve off kernelSrc met s) (pcs : List U64) :
    Aligned resolve off kernelSrc (met ++ pcs) (streamPcs (List.map resolve) (fun _ => off) kernelSrc s pcs) := by
  unfold streamPcs
  split
  next hnil => rwa [hnil, append_nil]
  next =>
    have hstart : Meeting { s with offset := some off } met ({ s with offset := some off }, []) :=
      ⟨h.seen, h.nodup, h.mem, (append_nil _).symm, rfl, rfl, rfl⟩
    have haligned := aligned_resolveFresh (meeting_foldl hstart pcs) h.pairs h.locs rfl
    rw [h.offset]
    exact ⟨haligned.seen, haligned.nodup, haligned.mem, haligned.pairs, haligned.locs, haligned.offset⟩

variable (resolve off kernelSrc) in
/-- All blocks. -/
theorem aligned_accumulate (blocks : List (List U64)) :
    Aligned resolve off kernelSrc blocks.flatten (accumulate (List.map resolve) (fun _ => off) kernelSrc blocks) := by
  have hrun : ∀ (met : List U64) (s : Streaming), Aligned resolve off kernelSrc met s →
      Aligned resolve off kernelSrc (met ++ blocks.flatten)
        (blocks.foldl (streamPcs (map resolve) (fun _ => off) kernelSrc) s) := by
    induction blocks with
    | nil =>
      intro met s h
      rwa [flatten_nil, append_nil]
    | cons pcs blocks ih =>
      intro met s h
      rw [flatten_cons, ← append_assoc]
      exact ih _ _ (aligned_streamPcs h pcs)
  refine hrun [] .init ⟨?_, nodup_nil, ?_, rfl, rfl, rfl⟩
  · intro pc
    simp [Streaming.init]
  · intro pc
    rfl

/-! ## The order -/

/-- Sorting the indices by their PCs sorts the answers by their PCs. -/
theorem ordered_eq (h : Aligned resolve off kernelSrc met s) :
    s.ordered = (s.uniq.mergeSort fun a b => a ≤ b).map fun pc => resolve (pc - off) := by
  let pcAt : Nat → U64 := fun i => s.uniq[i]?.getD 0#64
  have hpcs : (range s.uniq.length).map pcAt = s.uniq := by
    apply ext_getElem (by simp only [length_map, length_range])
    intro i hi hi'
    simp only [getElem_map, getElem_range, pcAt, getElem?_eq_getElem hi', Option.getD_some]
  have hsorted : ((range s.uniq.length).mergeSort fun i j => pcAt i ≤ pcAt j).map pcAt =
      s.uniq.mergeSort fun a b => a ≤ b := by
    rw [map_mergeSort (s := fun a b => decide (a ≤ b)) (fun _ _ _ _ => rfl), hpcs]
  rw [← hsorted, map_map]
  rw [← filterMap_eq_map]
  apply filterMap_congr
  intro i hi
  have hlt : i < s.uniq.length := mem_range.mp (mem_mergeSort.mp hi)
  simp only [h.pairs, getElem?_map, getElem?_eq_getElem hlt, Option.map_some, Function.comp_apply, pcAt,
    Option.getD_some]

theorem mergeSort_congr {l l' : List U64} (h : l.Perm l') :
    (l.mergeSort fun a b => a ≤ b) = l'.mergeSort fun a b => a ≤ b := by
  have hpairwise : ∀ l : List U64, (l.mergeSort fun a b => a ≤ b).Pairwise fun a b => decide (a ≤ b) = true := by
    apply pairwise_mergeSort
    · intro a b c hab hbc
      exact decide_eq_true (BitVec.le_trans (of_decide_eq_true hab) (of_decide_eq_true hbc))
    · intro a b
      rw [Bool.or_eq_true, decide_eq_true_eq, decide_eq_true_eq]
      exact Nat.le_total _ _
  refine Perm.eq_of_pairwise ?_ (hpairwise l) (hpairwise l') ?_
  · intro a b _ _ hab hba
    exact BitVec.le_antisymm (of_decide_eq_true hab) (of_decide_eq_true hba)
  · exact (mergeSort_perm _ _).trans (h.trans (mergeSort_perm _ _).symm)

/-- Lists with the same PCs have the same distinct ones. -/
theorem ascending_congr {pcs pcs' : List U64} (h : ∀ pc, pc ∈ pcs ↔ pc ∈ pcs') : ascending pcs = ascending pcs' := by
  apply mergeSort_congr
  apply (perm_ext_iff_of_nodup (nodup_dedup _) (nodup_dedup _)).mpr
  intro pc
  rw [mem_dedup, mem_dedup, h pc]

theorem ordered_accumulate (blocks : List (List U64)) :
    (accumulate (List.map resolve) (fun _ => off) kernelSrc blocks).ordered =
      (ascending blocks.flatten).map fun pc => resolve (pc - off) := by
  have haligned := aligned_accumulate resolve off kernelSrc blocks
  rw [ordered_eq haligned, ascending]
  congr 1
  apply mergeSort_congr
  apply (perm_ext_iff_of_nodup haligned.nodup (nodup_dedup _)).mpr
  intro pc
  rw [haligned.mem, mem_dedup]

end

/-- The coverage is that of the answers for the distinct PCs in ascending order, so it is the same for all sequences
of the same PCs, in whatever blocks they come. -/
theorem accumulate_covered (resolve : U64 → Answered) (off : U64) (kernelSrc : List U8)
    {blocks blocks' : List (List U64)} (hsame : ∀ pc, pc ∈ blocks.flatten ↔ pc ∈ blocks'.flatten) :
    covered kernelSrc (accumulate (List.map resolve) (fun _ => off) kernelSrc blocks).ordered =
        covered kernelSrc (accumulate (List.map resolve) (fun _ => off) kernelSrc blocks').ordered ∧
      covered kernelSrc (accumulate (List.map resolve) (fun _ => off) kernelSrc blocks).ordered =
        covered kernelSrc ((ascending blocks.flatten).map fun pc => resolve (pc - off)) := by
  rw [ordered_accumulate, ordered_accumulate, ascending_congr hsame]
  exact ⟨rfl, rfl⟩

/-- The report of log files covers the distinct PCs of what the reader keeps of them, in whatever pieces they are read. -/
theorem runStreaming_files (resolve : U64 → Answered) (off : U64) (kernelSrc : List U8) (files : List (Option Reading)) :
    runStreaming (List.map resolve) (fun _ => off) kernelSrc (spawnReader [] (files.map (Option.map Reading.answers))) =
      covered kernelSrc
        ((ascending (readAllPcs (files.map (Option.map Reading.kept)))).map fun pc => resolve (pc - off)) := by
  rw [runStreaming, ordered_accumulate, ← streamedPcs_eq, streamedPcs, flatMap_def]

/-- A resolver that tells a line of one file for each address. -/
def lineOf (pc : U64) : Answered := (utf8 "f", utf8 "/k/a.c:" ++ dec pc.toNat)

/-- Three PCs in two blocks, and in one block in another order and with one of them twice. -/
theorem accumulate_covered_blocks :
    covered (utf8 "/k") (accumulate (List.map lineOf) (fun _ => 0#64) (utf8 "/k") [[1#64, 2#64], [3#64]]).ordered =
      covered (utf8 "/k")
        (accumulate (List.map lineOf) (fun _ => 0#64) (utf8 "/k") [[3#64, 1#64, 1#64, 2#64]]).ordered := by
  refine (accumulate_covered lineOf 0#64 (utf8 "/k") ?_).1
  intro pc
  simp only [flatten_cons, flatten_nil, append_nil, cons_append, nil_append, mem_cons]
  tauto

end Vock.Report
