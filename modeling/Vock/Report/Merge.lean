import Mathlib.Data.List.Infix
import Vock.Report.Log

/-!
# Merging the logs

`merge_tid_logs` and `append_parent_remote_log` of `vock/src/mode/kcov.rs`, and `merge_logs` of
`kcov-preload/src/lib.rs`: the logs of the threads, one after the other, in one file.

The working directory is the list of its entries, in the order in which it is read; what cannot be read is `none`.
`kerncov.log` can be created, and all that is written to it arrives.
-/

namespace Vock.Report

open Library

/-- An entry of the working directory: its name, and its bytes. -/
structure Entry where
  name : List U8
  data : Option (List U8)

/-- `local-*.log*` or `remote-*.log*`. -/
def isTidLog (name : List U8) : Bool :=
  ((utf8 "local-").isPrefixOf name || (utf8 "remote-").isPrefixOf name) && decide (utf8 ".log" <:+: name)

/-- `tid_logs`. -/
def tidLogs (dir : List Entry) : List Entry := dir.filter (isTidLog ·.name)

/-- What a file `w` is after a log has been written to it: a line that the log leaves open is ended. -/
def writeLog (w data : List U8) : List U8 :=
  if data ≠ [] ∧ ¬ [newline] <:+ data then w ++ data ++ [newline] else w ++ data

/-- `merge_tid_logs`. -/
def mergeTidLogs (dir : List Entry) : List U8 :=
  (tidLogs dir).foldl (fun w log => log.data.elim w (writeLog w)) []

/-- `merge_logs`, with the entries told apart as they come. -/
def mergeLogs (dir : List Entry) : List U8 :=
  dir.foldl (fun w ent => if isTidLog ent.name then ent.data.elim w (writeLog w) else w) []

/-- `append_parent_remote_log`, to the bytes of `kerncov.log`. -/
def appendParentRemoteLog (remote : Option (List U8)) (log : List U8) : List U8 :=
  match remote with
  | none => log
  | some data => if 0 < data.length then writeLog log data else log

end Vock.Report
