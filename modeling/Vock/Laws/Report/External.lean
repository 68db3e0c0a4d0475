import Vock.Report.Resolve

/-!
# Laws of the external symbolizer

A process of the tool prints two lines for an address, and may stop behind any line. Its batch then has the answers of
the addresses whose two lines were printed, and the rest is unresolved (`symbolizeBatch_stops`); the batches together
have the answers of all addresses at their own places (`symbolizeExternal_answers`).
-/

namespace Vock.Report

open Library List
open Fuzz (lines)

/-- A text that stands on a line: it has no line end in it. -/
structure IsLine (l : List U8) : Prop where
  newline : ∀ b ∈ l, (b == byte '\n') = false
  carriage : l.dropSuffix? (ascii ['\r']) = none

/-- The lines the tool prints for addresses. -/
def answerLines (answer : List U8 → Answered) (addrs : List (List U8)) : List (List U8) :=
  addrs.flatMap fun a => [(answer a).1, (answer a).2]

/-- A process for a batch of addresses stops behind its first `n` lines; one that does not run prints none. -/
def Stops (answer : List U8 → Answered) (addrs : List (List U8)) (n : Nat) (stdout : Option (List U8)) : Prop :=
  (stdout = none ∧ n = 0) ∨ stdout = some (((answerLines answer addrs).take n).flatMap (· ++ [byte '\n']))

/-- What the report is told of the address at a place, by how many lines were printed. -/
def told (answer : List U8 → Answered) (n place : Nat) (a : List U8) : Answered :=
  if 2 * place + 2 ≤ n then (canonicalFunction (answer a).1, (answer a).2) else unresolved

/-! ## One batch -/

theorem lines_whole {ls : List (List U8)} (h : ∀ l ∈ ls, IsLine l) : lines (ls.flatMap (· ++ [byte '\n'])) = ls := by
  have hsplit := splitOnP_flatMap_concat (p := (· == byte '\n')) (s := byte '\n') (by decide)
    fun l hl => (h l hl).newline
  have hwhole : ls.map (fun l => (l.dropSuffix? (ascii ['\r'])).getD l) = ls := by
    refine (map_congr_left ?_).trans (map_id ls)
    intro l hl
    rw [(h l hl).carriage]
    rfl
  unfold lines
  simp [hsplit, hwhole]

variable {answer : List U8 → Answered} {addrs : List (List U8)}

/-- Lines are paired as far as both were printed. -/
theorem pairLines_take (answer : List U8 → Answered) (addrs : List (List U8)) (n : Nat) :
    pairLines ((answerLines answer addrs).take n) =
      (addrs.take (n / 2)).map fun a => (canonicalFunction (answer a).1, (answer a).2) := by
  induction addrs generalizing n with
  | nil => simp [answerLines, pairLines]
  | cons a addrs ih =>
    obtain _ | _ | n := n
    · rfl
    · rfl
    · have hhalf : (n + 1 + 1) / 2 = n / 2 + 1 := by omega
      rw [hhalf, take_succ_cons, map_cons, ← ih]
      rfl

/-- A batch is padded behind its answers. -/
theorem padBatch_take (g : List U8 → Answered) (addrs : List (List U8)) (m : Nat) :
    padBatch ((addrs.take m).map g) addrs.length = addrs.mapIdx fun i a => if i < m then g a else unresolved := by
  apply ext_getElem?
  intro i
  unfold padBatch
  rw [getElem?_take, getElem?_append, getElem?_mapIdx]
  simp only [length_map, length_take, getElem?_replicate]
  rcases Nat.lt_or_ge i addrs.length with hi | hi
  · rw [if_pos hi, getElem?_eq_getElem hi, Option.map_some]
    by_cases hm : i < m
    · simp [hm, hi]
    · rw [if_neg (by omega), if_neg hm, if_pos (by omega)]
  · rw [if_neg (by omega), getElem?_eq_none hi, Option.map_none]

/-- One batch, whose process stops behind `n` lines. -/
theorem symbolizeBatch_stops {process : List U8 → Option (List U8)} {n : Nat}
    (hlines : ∀ a ∈ addrs, IsLine (answer a).1 ∧ IsLine (answer a).2)
    (hstops : Stops answer addrs n (process (batchInput addrs))) :
    symbolizeBatch process addrs = addrs.mapIdx (told answer n) := by
  have htold : ∀ i a, told answer n i a =
      if i < n / 2 then (canonicalFunction (answer a).1, (answer a).2) else unresolved := by
    intro i a
    unfold told
    congr 1
    apply propext
    omega
  simp only [funext fun i => funext (htold i)]
  rw [← padBatch_take]
  unfold symbolizeBatch
  rcases hstops with ⟨hnone, rfl⟩ | hsome
  · rw [hnone]
    rfl
  · have hprinted : ∀ l ∈ (answerLines answer addrs).take n, IsLine l := by
      intro l hl
      obtain ⟨a, ha, hl⟩ := mem_flatMap.mp (mem_of_mem_take hl)
      simp only [mem_cons, not_mem_nil, or_false] at hl
      rcases hl with rfl | rfl
      · exact (hlines a ha).1
      · exact (hlines a ha).2
    rw [hsome]
    dsimp only
    rw [lines_whole hprinted, pairLines_take]

/-! ## All batches -/

section

variable {α β : Type} {size : Nat}

theorem chunks_nil (hsize : 0 < size) : chunks size ([] : List α) = [] := by
  have hzero : (0 + size - 1) / size = 0 := Nat.div_eq_of_lt (by omega)
  simp only [chunks, length_nil, hzero, range_zero, map_nil]

theorem chunks_cons (hsize : 0 < size) {l : List α} (h : l ≠ []) :
    chunks size l = l.take size :: chunks size (l.drop size) := by
  have hpos := length_pos_of_ne_nil h
  have hcount : (l.length + size - 1) / size = ((l.drop size).length + size - 1) / size + 1 := by
    rw [length_drop]
    rcases Nat.lt_or_ge size l.length with hlt | hge
    · rw [← Nat.add_div_right _ hsize]
      congr 1
      omega
    · have hlast : l.length + size - 1 = (l.length - 1) + size := by omega
      rw [hlast, Nat.add_div_right _ hsize, Nat.div_eq_of_lt (by omega), Nat.div_eq_of_lt (by omega)]
  unfold chunks
  rw [hcount, range_succ_eq_map, map_cons, map_map]
  congr 1
  apply map_congr_left
  intro k _
  rw [Function.comp_apply, drop_drop, Nat.mul_succ, Nat.add_comm]

/-- What is done chunk by chunk is done at the places in the whole list. -/
theorem flatten_mapIdx_chunks (hsize : 0 < size) (g : Nat → Nat → α → β) (l : List α) :
    ((chunks size l).mapIdx fun k chunk => chunk.mapIdx (g k)).flatten =
      l.mapIdx fun i => g (i / size) (i % size) := by
  induction hn : l.length using Nat.strong_induction_on generalizing l g with
  | _ n ih =>
    by_cases hnil : l = []
    · subst hnil
      simp [chunks_nil hsize]
    · have hpos := length_pos_of_ne_nil hnil
      have hshort : (l.drop size).length < n := by
        rw [length_drop]
        omega
      have hrest := ih _ hshort (fun k => g (k + 1)) (l.drop size) rfl
      rw [chunks_cons hsize hnil, mapIdx_cons, flatten_cons, hrest]
      conv_rhs => rw [← take_append_drop size l, mapIdx_append]
      congr 1
      · apply mapIdx_eq_mapIdx_iff.mpr
        intro i hi
        have hlt : i < size := by
          rw [length_take] at hi
          omega
        rw [Nat.div_eq_of_lt hlt, Nat.mod_eq_of_lt hlt]
      · apply mapIdx_eq_mapIdx_iff.mpr
        intro i hi
        have hfull : (l.take size).length = size := by
          rw [length_drop] at hi
          rw [length_take]
          omega
        rw [hfull, Nat.add_div_right _ hsize, Nat.add_mod_right]

end

/-- How many addresses a process gets. -/
def batchSize (sym : Resolver) (addrs : List (List U8)) : Nat := if sym.isGnu then gnuAddr2lineChunk else addrs.length

theorem gnuAddr2lineChunk_pos : 0 < gnuAddr2lineChunk := Nat.two_pow_pos 11

theorem symbolizeExternal_nil (sym : Resolver) (process : Nat → List U8 → Option (List U8)) :
    symbolizeExternal sym process [] = [] := by
  unfold symbolizeExternal
  split
  · rw [chunks_nil gnuAddr2lineChunk_pos, mapIdx_nil, flatten_nil]
  · unfold symbolizeBatch
    split
    · rfl
    · rfl

/-- The batches, each with the answers of its process. -/
theorem symbolizeExternal_eq_mapIdx {sym : Resolver} {process : Nat → List U8 → Option (List U8)} {printed : Nat → Nat} (hlines : ∀ a ∈ addrs, IsLine (answer a).1 ∧ IsLine (answer a).2)
    (hstops : ∀ k chunk, (chunks (batchSize sym addrs) addrs)[k]? = some chunk →
      Stops answer chunk (printed k) (process k (batchInput chunk))) :
    symbolizeExternal sym process addrs =
      addrs.mapIdx fun i => told answer (printed (i / batchSize sym addrs)) (i % batchSize sym addrs) := by
  by_cases hnil : addrs = []
  · subst hnil
    exact symbolizeExternal_nil sym process
  have hsize : 0 < batchSize sym addrs := by
    unfold batchSize
    split
    · exact gnuAddr2lineChunk_pos
    · exact length_pos_of_ne_nil hnil
  rw [← flatten_mapIdx_chunks hsize (fun k => told answer (printed k))]
  have hbatches : ((chunks (batchSize sym addrs) addrs).mapIdx fun k chunk => symbolizeBatch (process k) chunk) =
      (chunks (batchSize sym addrs) addrs).mapIdx fun k chunk => chunk.mapIdx (told answer (printed k)) := by
    apply mapIdx_eq_mapIdx_iff.mpr
    intro k hk
    refine symbolizeBatch_stops ?_ (hstops k _ (getElem?_eq_getElem hk))
    intro a ha
    obtain ⟨j, -, hj⟩ := mem_map.mp (getElem_mem hk)
    rw [← hj] at ha
    exact hlines a (mem_of_mem_drop (mem_of_mem_take ha))
  rw [← hbatches]
  unfold symbolizeExternal batchSize
  split
  · rfl
  · -- one process gets all addresses
    have hone : chunks addrs.length addrs = [addrs] := by
      rw [chunks_cons (length_pos_of_ne_nil hnil) hnil, take_length, drop_length,
        chunks_nil (length_pos_of_ne_nil hnil)]
    rw [hone, mapIdx_singleton, flatten_singleton]

/-- One pair for each address, and each at its own place: the answer of the tool where its process printed both lines,
and `??` otherwise. -/
theorem symbolizeExternal_answers (sym : Resolver) (process : Nat → List U8 → Option (List U8))
    (addrs : List (List U8)) (answer : List U8 → Answered) (printed : Nat → Nat)
    (hlines : ∀ a ∈ addrs, IsLine (answer a).1 ∧ IsLine (answer a).2)
    (hstops : ∀ k chunk, (chunks (batchSize sym addrs) addrs)[k]? = some chunk →
      Stops answer chunk (printed k) (process k (batchInput chunk))) :
    (symbolizeExternal sym process addrs).length = addrs.length ∧
      ∀ i a, addrs[i]? = some a → (symbolizeExternal sym process addrs)[i]? =
        some (if 2 * (i % batchSize sym addrs) + 2 ≤ printed (i / batchSize sym addrs) then
          (canonicalFunction (answer a).1, (answer a).2)
        else (utf8 "??", utf8 "??:0")) := by
  rw [symbolizeExternal_eq_mapIdx hlines hstops]
  refine ⟨length_mapIdx, ?_⟩
  intro i a ha
  rw [getElem?_mapIdx, ha]
  rfl

/-- A tool that says the same of every address and is killed behind the function of the second. -/
theorem symbolizeExternal_answers_killed :
    (symbolizeExternal .gnu (fun _ _ => some (utf8 "f.isra.0\na.c:1\nf.isra.0\n")) [utf8 "0x1", utf8 "0x2"])[0]? =
        some (utf8 "f", utf8 "a.c:1") ∧
      (symbolizeExternal .gnu (fun _ _ => some (utf8 "f.isra.0\na.c:1\nf.isra.0\n")) [utf8 "0x1", utf8 "0x2"])[1]? =
        some (utf8 "??", utf8 "??:0") := by
  have hlines : IsLine (utf8 "f.isra.0") ∧ IsLine (utf8 "a.c:1") :=
    ⟨⟨by decide +kernel, by decide +kernel⟩, ⟨by decide +kernel, by decide +kernel⟩⟩
  have hstops : ∀ (k : Nat) (chunk : List (List U8)),
      (chunks (batchSize .gnu [utf8 "0x1", utf8 "0x2"]) [utf8 "0x1", utf8 "0x2"])[k]? = some chunk →
        Stops (fun _ => (utf8 "f.isra.0", utf8 "a.c:1")) chunk 3 (some (utf8 "f.isra.0\na.c:1\nf.isra.0\n")) := by
    intro k chunk hchunk
    cases k with
    | zero =>
      obtain rfl : [utf8 "0x1", utf8 "0x2"] = chunk := Option.some.inj hchunk
      right
      decide +kernel
    | succ k => cases hchunk
  obtain ⟨-, hanswers⟩ := symbolizeExternal_answers .gnu (fun _ _ => some (utf8 "f.isra.0\na.c:1\nf.isra.0\n"))
    [utf8 "0x1", utf8 "0x2"] (fun _ => (utf8 "f.isra.0", utf8 "a.c:1")) (fun _ => 3) (fun _ _ => hlines) hstops
  exact ⟨(hanswers 0 _ rfl).trans (by decide +kernel), (hanswers 1 _ rfl).trans (by decide +kernel)⟩

end Vock.Report
