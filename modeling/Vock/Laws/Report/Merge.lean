import Vock.Laws.Report.Log
import Vock.Report.Merge

/-!
# The PCs of merged logs

A merged file ends in a line end after each log (`Ended`), so that what is written next begins a line of its own:
the PCs of the file are those of the logs, one after the other (`merged_pcs`).
-/

namespace Vock.Report

open Library List

/-- Empty, or up to a line end. -/
def Ended (w : List U8) : Prop := wholeLines isNewline w = w

theorem Ended.nil : Ended [] := rfl

theorem Ended.concat (w : List U8) : Ended (w ++ [newline]) :=
  (cut_at_end (p := isNewline) rfl (forall_mem_nil _) w).1

theorem parsePcs_nil : parsePcs [] = [] := rfl

variable {w : List U8}

theorem parsePcs_append (h : Ended w) (data : List U8) :
    parsePcs (w ++ data) = parsePcs w ++ parsePcs data := by
  have happend := parseLines_append (p := isNewline) linePc_nil w data
  rwa [h] at happend

/-- A line end behind a log adds no PC. -/
theorem parsePcs_concat (data : List U8) : parsePcs (data ++ [newline]) = parsePcs data := by
  have hcut : parsePcs (data ++ newline :: []) = parsePcs data ++ parsePcs [] :=
    parseLines_append_cons rfl data []
  rw [hcut, parsePcs_nil, append_nil]

/-! ## One log -/

section

variable {w : List U8} (h : Ended w) (data : List U8)

include h

theorem Ended.writeLog : Ended (writeLog w data) := by
  rw [Report.writeLog]
  split
  · exact Ended.concat (w ++ data)
  · rename_i closed
    by_cases hempty : data = []
    · rw [hempty, append_nil]
      exact h
    · obtain ⟨front, rfl⟩ : [newline] <:+ data := not_not.mp fun hopen => closed ⟨hempty, hopen⟩
      rw [← append_assoc]
      exact Ended.concat (w ++ front)

theorem parsePcs_writeLog : parsePcs (writeLog w data) = parsePcs w ++ parsePcs data := by
  rw [writeLog]
  split
  · rw [parsePcs_concat, parsePcs_append h]
  · exact parsePcs_append h data

end

/-! ## All logs -/

/-- The loop over the logs, on a file that ends in a line end. -/
theorem foldl_writeLog (h : Ended w) (logs : List Entry) :
    Ended (logs.foldl (fun w log => log.data.elim w (writeLog w)) w) ∧
      parsePcs (logs.foldl (fun w log => log.data.elim w (writeLog w)) w) =
        parsePcs w ++ readAllPcs (logs.map Entry.data) := by
  induction logs generalizing w with
  | nil => exact ⟨h, (append_nil _).symm⟩
  | cons log logs ih =>
    obtain ⟨name, data⟩ := log
    cases data with
    | none => exact ih h
    | some data =>
      obtain ⟨hended, hpcs⟩ := ih (h.writeLog data)
      refine ⟨hended, hpcs.trans ?_⟩
      rw [parsePcs_writeLog h, append_assoc]
      rfl

/-- Telling the entries apart as they come merges the same logs. -/
theorem mergeLogs_eq (dir : List Entry) : mergeLogs dir = mergeTidLogs dir :=
  foldl_filter.symm

theorem parsePcs_appendParentRemoteLog (h : Ended w) (remote : Option (List U8)) :
    parsePcs (appendParentRemoteLog remote w) = parsePcs w ++ partPcs remote := by
  rcases remote with _ | data
  · exact (append_nil _).symm
  · rw [appendParentRemoteLog]
    split
    · exact parsePcs_writeLog h data
    · rename_i hempty
      obtain rfl : data = [] := length_eq_zero_iff.mp (Nat.eq_zero_of_not_pos hempty)
      exact (append_nil _).symm

/-- Whatever the logs are, the merged file with the remote log behind it holds their PCs, log by log, whichever of the
two programs has merged them. -/
theorem merged_pcs (dir : List Entry) (remote : Option (List U8)) :
    parsePcs (appendParentRemoteLog remote (mergeTidLogs dir)) =
        readAllPcs ((tidLogs dir).map Entry.data ++ [remote]) ∧
      parsePcs (appendParentRemoteLog remote (mergeLogs dir)) =
        readAllPcs ((tidLogs dir).map Entry.data ++ [remote]) := by
  have hall : parsePcs (appendParentRemoteLog remote (mergeTidLogs dir)) =
      readAllPcs ((tidLogs dir).map Entry.data ++ [remote]) := by
    obtain ⟨hended, hpcs⟩ := foldl_writeLog Ended.nil (tidLogs dir)
    rw [mergeTidLogs, parsePcs_appendParentRemoteLog hended, hpcs, readAllPcs, readAllPcs, flatMap_append,
      flatMap_singleton]
    rfl
  exact ⟨hall, by rwa [mergeLogs_eq]⟩

end Vock.Report
