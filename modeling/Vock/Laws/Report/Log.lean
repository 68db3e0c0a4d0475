import Vock.Report.Log

/-!
# Streaming against reading whole

What the reader thread delivers of a log is `kept`: at every interrupted read, and at the end of the
file, the line that is still open is dropped with the block that took it. So nothing is ever left to
send after the loop (`readLoop_left`), and the PCs that are streamed are those of the kept bytes
(`streamedPcs_eq`). `streamed_eq_iff` draws the consequence for a list of logs: it says when
streaming finds the PCs that reading each log whole does.
-/

namespace Vock.Report

open Library List

theorem linePc_nil : linePc [] = none := rfl

/-! ## What is kept of a log -/

/-- The bytes that are delivered, `soFar` having been read since the start or the last
interruption. -/
def kept (soFar : List U8) : List Answer → List U8
  | [] => wholeLines isNewline soFar
  | .failed :: _ => wholeLines isNewline soFar
  | .interrupted :: answers => wholeLines isNewline soFar ++ kept [] answers
  | .chunk bytes :: answers => kept (soFar ++ bytes) answers

def Reading.kept (r : Reading) : List U8 := Report.kept [] r.answers

/-- Nothing is in `carry` where the loop is left, so nothing is sent after it. -/
theorem readLoop_left (carry : List U8) (answers : List Answer) : (readLoop carry answers).2 = [] := by
  induction answers generalizing carry with
  | nil => rfl
  | cons a answers ih =>
    cases a with
    | failed => rfl
    | interrupted => exact ih _
    | chunk bytes =>
      rw [readLoop]
      split
      · exact ih _
      · exact ih _

/-- A round that has read: the whole lines go out, the open one is carried. -/
theorem readLoop_chunk (carry bytes : List U8) (answers : List Answer) :
    (readLoop carry (.chunk bytes :: answers)).1.flatMap parsePcs =
      parsePcs (wholeLines isNewline (carry ++ bytes)) ++
        (readLoop (openLine isNewline (carry ++ bytes)) answers).1.flatMap parsePcs := by
  rw [readLoop, appendCarry]
  cases hr : rposition isNewline (carry ++ bytes) with
  | some nl =>
    obtain ⟨hwhole, hopen⟩ := cut_of_rposition hr
    rw [hwhole, hopen]
    rfl
  | none =>
    obtain ⟨hwhole, hopen⟩ := cut_of_rposition_none hr
    rw [hwhole, hopen]
    rfl

/-- The loop's blocks, after what was sent of `soFar`, hold the PCs of what is kept. -/
theorem readLoop_kept (soFar : List U8) (answers : List Answer) :
    parsePcs (kept soFar answers) =
      parsePcs (wholeLines isNewline soFar) ++
        (readLoop (openLine isNewline soFar) answers).1.flatMap parsePcs := by
  induction answers generalizing soFar with
  | nil => exact (append_nil _).symm
  | cons a answers ih =>
    cases a with
    | failed => exact (append_nil _).symm
    | interrupted =>
      have hnext := ih []
      rw [kept, parsePcs, parseLines_append linePc_nil]
      exact congrArg (parsePcs (wholeLines isNewline soFar) ++ ·) hnext
    | chunk bytes =>
      obtain ⟨hwhole, hopen⟩ := cut_append soFar bytes
      rw [kept, ih (soFar ++ bytes), readLoop_chunk, hopen, hwhole, parsePcs,
        parseLines_append linePc_nil, append_assoc]
      rfl

/-- What is streamed: the PCs of the kept bytes of each log. -/
theorem streamedPcs_eq (files : List (Option Reading)) :
    streamedPcs (files.map (Option.map Reading.answers)) =
      readAllPcs (files.map (Option.map Reading.kept)) := by
  rw [streamedPcs]
  induction files with
  | nil => rfl
  | cons file files ih =>
    cases file with
    | none => exact ih
    | some r =>
      have hfile := readLoop_kept [] r.answers
      have hfile' : (readLoop [] r.answers).1.flatMap parsePcs = parsePcs r.kept := hfile.symm
      rw [map_cons, Option.map_some, spawnReader]
      dsimp only
      rw [if_pos (readLoop_left _ _), readLoop_left, flatMap_append, ih, hfile']
      rfl

/-! ## Interruptions between lines -/

/-- Every interruption finds what was read so far at a line end. -/
def BetweenLines (soFar : List U8) : List Answer → Prop
  | [] => True
  | .failed :: _ => True
  | .interrupted :: answers => openLine isNewline soFar = [] ∧ BetweenLines soFar answers
  | .chunk bytes :: answers => BetweenLines (soFar ++ bytes) answers

/-- What ends at a line end is kept whatever follows. -/
theorem kept_append {lines : List U8} (ended : openLine isNewline lines = []) (more : List U8)
    (answers : List Answer) : kept (lines ++ more) answers = lines ++ kept more answers := by
  have hwhole : ∀ bytes, wholeLines isNewline (lines ++ bytes) = lines ++ wholeLines isNewline bytes := by
    intro bytes
    have hall := wholeLines_append_openLine (p := isNewline) lines
    rw [ended, append_nil] at hall
    rw [(cut_append lines bytes).1, ended, hall, nil_append]
  induction answers generalizing more with
  | nil => exact hwhole more
  | cons a answers ih =>
    cases a with
    | failed => exact hwhole more
    | interrupted => rw [kept, kept, hwhole, append_assoc]
    | chunk bytes => rw [kept, kept, append_assoc, ih]

/-- Then all whole lines of the log are kept. -/
theorem kept_of_betweenLines {soFar : List U8} {answers : List Answer}
    (h : BetweenLines soFar answers) (allowed : ∀ a ∈ answers, a.Allowed) :
    kept soFar answers = wholeLines isNewline (soFar ++ answers.flatMap Answer.bytes) := by
  induction answers generalizing soFar with
  | nil => rw [flatMap_nil, append_nil]; rfl
  | cons a answers ih =>
    have hrest : ∀ a ∈ answers, a.Allowed := fun b hb => allowed b (mem_cons_of_mem a hb)
    cases a with
    | failed => exact (allowed _ (mem_cons_self ..)).elim
    | interrupted =>
      have hkeep := kept_append h.1 [] answers
      have hall := wholeLines_append_openLine (p := isNewline) soFar
      rw [h.1, append_nil] at hall
      rw [append_nil] at hkeep
      rw [kept, hall, ← hkeep, ih h.2 hrest]
      rfl
    | chunk bytes => rw [kept, ih h hrest, append_assoc]; rfl

/-! ## The PCs of a list of logs -/

/-- The PCs a log's open last line would add. -/
def lastPcs : Option Reading → List U64
  | some r => (linePc (openLine isNewline r.content)).toList
  | none => []

/-- The PCs of a log's whole lines. -/
def wholePcs : Option Reading → List U64
  | some r => parsePcs (wholeLines isNewline r.content)
  | none => []

theorem readAllPcs_content (files : List (Option Reading)) :
    readAllPcs (files.map (Option.map Reading.content)) =
      files.flatMap fun file => wholePcs file ++ lastPcs file := by
  rw [readAllPcs, flatMap_map]
  congr 1
  funext file
  cases file with
  | none => rfl
  | some r => exact parseLines_eq linePc_nil r.content

theorem readAllPcs_kept {files : List (Option Reading)}
    (between : ∀ r, some r ∈ files → BetweenLines [] r.answers) :
    readAllPcs (files.map (Option.map Reading.kept)) = files.flatMap wholePcs := by
  rw [readAllPcs, flatMap_map]
  refine flatMap_congr fun file hfile => ?_
  cases file with
  | none => rfl
  | some r => exact congrArg parsePcs (kept_of_betweenLines (between r hfile) r.allowed)

theorem lastPcs_nil_iff (files : List (Option Reading)) :
    (∀ file ∈ files, lastPcs file = []) ↔
      ∀ r, some r ∈ files → linePc (openLine isNewline r.content) = none := by
  constructor
  · intro h r hr
    exact Option.toList_eq_nil_iff.mp (h (some r) hr)
  · intro h file hfile
    cases file with
    | none => rfl
    | some r => exact Option.toList_eq_nil_iff.mpr (h r hfile)

/-- **Streaming against reading whole.** For every list of logs and every way `read` may answer: the
streamed PCs are those of a whole read exactly when taking out the line that is open at each
interruption and at the end of each log does not change what a whole read finds. Where every
interruption comes between lines: exactly when no log ends in an open line that holds a PC. -/
theorem streamed_eq_iff (files : List (Option Reading)) :
    (streamedPcs (files.map (Option.map Reading.answers)) =
        readAllPcs (files.map (Option.map Reading.content)) ↔
      readAllPcs (files.map (Option.map Reading.kept)) =
        readAllPcs (files.map (Option.map Reading.content))) ∧
    ((∀ r, some r ∈ files → BetweenLines [] r.answers) →
      (streamedPcs (files.map (Option.map Reading.answers)) =
          readAllPcs (files.map (Option.map Reading.content)) ↔
        ∀ r, some r ∈ files → linePc (openLine isNewline r.content) = none)) := by
  rw [streamedPcs_eq]
  refine ⟨Iff.rfl, fun between => ?_⟩
  rw [readAllPcs_kept between, readAllPcs_content, flatMap_append_eq_iff, lastPcs_nil_iff]

/-- A log of one PC and no line end, read in one go. -/
def cutLog : Reading where
  answers := [.chunk [0x30#8, 0x78#8, 0x31#8]]
  allowed := by
    intro a ha
    obtain rfl := List.mem_singleton.mp ha
    exact ⟨List.cons_ne_nil _ _, show 3 ≤ readBlock by decide⟩

/-- Its PC is lost. -/
theorem cut_log_lost :
    streamedPcs [some cutLog.answers] = [] ∧ readAllPcs [some cutLog.content] = [0x1#64] := by
  decide

end Vock.Report
