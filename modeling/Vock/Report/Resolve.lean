import Vock.Fuzz.ProgText

/-!
# Names and paths of the report

The functions of `vock/src/report/resolve.rs` between a symbolizer and the report: the external tool and what it
prints, the names of functions, the paths of files, and the lines of the report.

What a process of the tool prints is data (`none` where it does not start or cannot be waited for), in UTF-8. Its
arguments and the messages on stderr are left out.
-/

namespace Vock.Report

open Fuzz (lines fromStrRadix splitWhitespace)

/-- What a symbolizer tells about an address: the function, and `file:line`. -/
abbrev Answered := List U8 × List U8

/-- `str::find`: where a text stands in another one for the first time. -/
def indexOf (pat s : List U8) : Option Nat := (List.range (s.length + 1)).find? fun i => pat.isPrefixOf (s.drop i)

/-! ## Names -/

/-- `CLONE_SUFFIXES`. -/
def cloneSuffixes : List (List U8) :=
  [utf8 ".constprop", utf8 ".isra", utf8 ".part", utf8 ".cold", utf8 ".lto_priv", utf8 ".llvm", utf8 ".sra"]

/-- `canonical_function`: a name up to the first suffix of a clone. -/
def canonicalFunction (func : List U8) : List U8 :=
  func.take (cloneSuffixes.foldl (fun stop s => (indexOf s func).elim stop (min stop)) func.length)

/-! ## The external tool -/

/-- `Resolver`, without its path. -/
inductive Resolver where
  | llvmAddr2line
  | llvmSymbolizer
  | gnu
  deriving DecidableEq, Repr

def Resolver.isGnu (sym : Resolver) : Bool := sym = .gnu

/-- `GNU_ADDR2LINE_CHUNK`. -/
def gnuAddr2lineChunk : Nat := 2048

/-- What is told of an address the tool says nothing about. -/
def unresolved : Answered := (utf8 "??", utf8 "??:0")

/-- `pad_batch`. -/
def padBatch (v : List Answered) (want : Nat) : List Answered :=
  (v ++ List.replicate (want - v.length) unresolved).take want

/-- The loop of `symbolize_batch` over the lines. -/
def pairLines : List (List U8) → List Answered
  | func :: loc :: rest => (canonicalFunction func, loc) :: pairLines rest
  | _ => []

/-- What a process gets on stdin. -/
def batchInput (addrs : List (List U8)) : List U8 := [byte '\n'].intercalate addrs ++ [byte '\n']

/-- `symbolize_batch`, by what the process prints for its input. -/
def symbolizeBatch (process : List U8 → Option (List U8)) (addrs : List (List U8)) : List Answered :=
  match process (batchInput addrs) with
  | none => padBatch [] addrs.length
  | some stdout => padBatch (pairLines (lines stdout)) addrs.length

/-- `slice::chunks`. -/
def chunks {α : Type} (size : Nat) (l : List α) : List (List α) :=
  (List.range ((l.length + size - 1) / size)).map fun k => (l.drop (size * k)).take size

/-- `symbolize_external`, by what its processes print, in the order they are started. -/
def symbolizeExternal (sym : Resolver) (process : Nat → List U8 → Option (List U8)) (addrs : List (List U8)) :
    List Answered :=
  if sym.isGnu then ((chunks gnuAddr2lineChunk addrs).mapIdx fun k chunk => symbolizeBatch (process k) chunk).flatten
  else symbolizeBatch (process 0) addrs

/-- `probe_locations`, with a resolver that answers each address. -/
def probeLocations (resolve : U64 → Answered) (pcs : List U64) : List (List U8) := pcs.map fun pc => (resolve pc).2

/-! ## Paths -/

/-- `KERNEL_DIRS`. -/
def kernelDirs : List (List U8) :=
  [utf8 "arch/", utf8 "fs/", utf8 "net/", utf8 "drivers/", utf8 "kernel/", utf8 "mm/", utf8 "block/",
    utf8 "security/", utf8 "crypto/", utf8 "lib/", utf8 "ipc/", utf8 "init/", utf8 "include/", utf8 "sound/",
    utf8 "virt/", utf8 "io_uring/"]

/-- `Path::components`, each as its text: the root is `/`, and `.` is kept only in front. -/
def components (path : List U8) : List (List U8) :=
  let parts := path.splitOnP (· == byte '/')
  let named := fun part : List U8 => part ≠ [] ∧ part ≠ utf8 "."
  if path.head? = some (byte '/') then utf8 "/" :: parts.filter named
  else if parts.head? = some (utf8 ".") then utf8 "." :: parts.tail.filter named
  else parts.filter named

/-- How many components two paths share in front. -/
def common : List (List U8) → List (List U8) → Nat
  | f :: fs, s :: ss => if f = s then common fs ss + 1 else 0
  | _, _ => 0

/-- `relpath`. -/
def relpath (file start : List U8) : List U8 :=
  let fc := components file
  let sc := components start
  let i := common fc sc
  let parts := List.replicate (sc.length - i) (utf8 "..") ++ fc.drop i
  if parts = [] then utf8 "." else [byte '/'].intercalate parts

/-- `str::rsplit_once`, the part behind; the whole text if the character is not in it. -/
def afterLast (c : Char) (s : List U8) : List U8 := (s.reverse.takeWhile (· ≠ byte c)).reverse

/-- Where a directory of the kernel stands in a path. -/
def dirIndex (file kd : List U8) : Option Nat := indexOf (byte '/' :: kd) file

/-- `rel_kernel_path`. -/
def relKernelPath (file kernelSrc : List U8) : List U8 :=
  let rel := relpath file kernelSrc
  if (utf8 "..").isPrefixOf rel then
    match kernelDirs.findSome? (dirIndex file) with
    | some idx => file.drop (idx + 1)
    | none => afterLast '/' file
  else rel

/-! ## Lines -/

/-- `rfind(':')`: a location cut at its last colon. -/
def splitLine (loc : List U8) : Option (List U8 × List U8) :=
  if byte ':' ∈ loc then
    let rest := afterLast ':' loc
    some (loc.take (loc.length - rest.length - 1), rest)
  else none

/-- `location_string`. -/
def locationString (kernelSrc : List U8) (a : Answered) : Option (List U8) :=
  if a.2 = [] ∨ (utf8 "??").isPrefixOf a.2 then none
  else
    let l := match splitLine a.2 with
      | some (file, rest) => relKernelPath file kernelSrc ++ byte ':' :: rest
      | none => a.2
    some (if a.1 = [] ∨ a.1 = utf8 "??" then l else a.1 ++ byte ' ' :: l)

/-- The lines covered in each file, and the functions of lines. A file without an entry has no lines. -/
structure Coverage where
  cov : List U8 → Finset U64
  funcs : List U8 → U64 → Option (List U8)

def Coverage.empty : Coverage := ⟨fun _ => ∅, fun _ _ => none⟩

/-- A line more, and its function where there is one. -/
def Coverage.insert (c : Coverage) (file : List U8) (line : U64) (func : List U8) : Coverage where
  cov := Function.update c.cov file (Insert.insert line (c.cov file))
  funcs :=
    if func ≠ utf8 "??" ∧ func ≠ [] then
      Function.update c.funcs file (Function.update (c.funcs file) line (some func))
    else c.funcs

/-- One round of the loop in `aggregate`. -/
def aggregateLine (kernelSrc : List U8) (c : Coverage) (a : Answered) : Coverage :=
  match splitLine a.2 with
  | none => c
  | some (file, rest) =>
    match (splitWhitespace rest).head?.bind (fromStrRadix 10) with
    | none => c
    | some line =>
      if file = utf8 "??" ∨ line = 0#64 then c else c.insert (relKernelPath file kernelSrc) line a.1

/-- `aggregate`. -/
def aggregate (kernelSrc : List U8) (answers : List Answered) : Coverage :=
  answers.foldl (aggregateLine kernelSrc) .empty

end Vock.Report
