import Vock.Format
import Vock.Report.Log
import Vock.Report.Resolve

/-!
# The streaming report

`run_streaming` of `vock/src/report/mod.rs`, from the blocks of the reader to the covered lines. The resolver is a
function of the list of addresses, and `detect` is `kaslr::detect_offset` of the image.

What is drawn from the coverage, the timing and the texts of the progress are left out. Where no PC came at all the
source stops before it aggregates; the coverage is empty then.
-/

namespace Vock.Report

/-- `u32`, the type of the indices in `seen`. -/
abbrev U32 := BitVec 32

/-- The variables of `run_streaming`. -/
structure Streaming where
  seen : U64 → Option U32
  uniq : List U64
  pairs : List Answered
  locs : List (Option (List U8))
  offset : Option U64
  out : List U8

def Streaming.init : Streaming := ⟨fun _ => none, [], [], [], none, []⟩

/-- One PC of a block: it is fresh if it was not seen. -/
def meet (s : Streaming × List U64) (pc : U64) : Streaming × List U64 :=
  if s.1.seen pc = none then
    ({ s.1 with
        seen := Function.update s.1.seen pc (some (BitVec.ofNat 32 s.1.uniq.length))
        uniq := s.1.uniq ++ [pc] },
      s.2 ++ [pc])
  else s

/-- The line of a PC in the twin of the log. -/
def srccovLine (s : Streaming) (pc : U64) : List U8 :=
  let loc := ((s.seen pc).bind fun i => s.locs[i.toNat]?).join
  hex pc ++ byte ' ' :: (loc.getD (utf8 "??") ++ [byte '\n'])

section

variable (symbolize : List U64 → List Answered) (detect : List U64 → U64) (kernelSrc : List U8)

/-- The sample for `detect_offset`: the first PCs, sorted, each once. -/
def sample (pcs : List U64) : List U64 := ((pcs.take 256).mergeSort fun a b => a ≤ b).eraseReps

/-- The answers for the fresh PCs of a block, and padding where the resolver was short. -/
def resolveFresh (off : U64) (fresh : List U64) (s : Streaming) : Streaming :=
  if fresh = [] then s
  else
    let answers := symbolize (fresh.map (· - off))
    let missing := s.uniq.length - (s.pairs.length + answers.length)
    { s with
      pairs := s.pairs ++ answers ++ List.replicate missing unresolved
      locs := s.locs ++ answers.map (locationString kernelSrc) ++ List.replicate missing none }

/-- One block of PCs. -/
def streamPcs (s : Streaming) (pcs : List U64) : Streaming :=
  if pcs = [] then s
  else
    let off := s.offset.getD (detect (sample pcs))
    let (s, fresh) := pcs.foldl meet ({ s with offset := some off }, [])
    let s := resolveFresh symbolize kernelSrc off fresh s
    { s with out := s.out ++ pcs.flatMap (srccovLine s) }

/-- The loop over the blocks, each parsed to its PCs. -/
def accumulate (blocks : List (List U64)) : Streaming := blocks.foldl (streamPcs symbolize detect kernelSrc) .init

end

/-- Whether a location is one of assembly: `file.ends_with(".S") || file.ends_with(".s")`. -/
def isAsm (a : Answered) : Bool :=
  let file := (splitLine a.2).elim a.2 Prod.fst
  (utf8 ".S").isSuffixOf file || (utf8 ".s").isSuffixOf file

/-- The answers in ascending order of their PCs. -/
def Streaming.ordered (s : Streaming) : List Answered :=
  let order := (List.range s.uniq.length).mergeSort fun i j => s.uniq[i]?.getD 0#64 ≤ s.uniq[j]?.getD 0#64
  order.filterMap fun i => s.pairs[i]?

/-- The covered lines of the source part and of the assembly part. -/
def covered (kernelSrc : List U8) (answers : List Answered) : Coverage × Coverage :=
  (aggregate kernelSrc (answers.filter (!isAsm ·)), aggregate kernelSrc (answers.filter isAsm))

/-- `run_streaming`, up to the coverage. -/
def runStreaming (symbolize : List U64 → List Answered) (detect : List U64 → U64) (kernelSrc : List U8)
    (blocks : List (List U8)) : Coverage × Coverage :=
  covered kernelSrc (accumulate symbolize detect kernelSrc (blocks.map parsePcs)).ordered

end Vock.Report
