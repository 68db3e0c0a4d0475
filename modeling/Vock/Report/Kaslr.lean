import Vock.Report.Resolve

/-!
# The offset of the kernel

`vock/src/report/kaslr.rs`: how far the running kernel is moved from its image. The resolver, the symbols of the
image and the text of `/proc/kallsyms` are parameters.
-/

namespace Vock.Report

open Fuzz (lines fromStrRadix splitWhitespace)

/-- `eq_ignore_ascii_case("t")`. -/
def isTextType (t : List U8) : Bool := t = utf8 "t" || t = utf8 "T"

/-- The address field of a line of `/proc/kallsyms` that is about `_stext`. -/
def stextLine (line : List U8) : Option (List U8) :=
  match splitWhitespace line with
  | addr :: t :: name :: _ => if name = utf8 "_stext" ∧ isTextType t then some addr else none
  | _ => none

/-- `kallsyms_stext`. -/
def kallsymsStext (kallsyms : Option (List U8)) : Option U64 := do
  let text ← kallsyms
  let addr ← (lines text).findSome? stextLine
  (fromStrRadix 16 addr).filter (· ≠ 0#64)

/-- Whether a location is one. -/
def isLocation (loc : List U8) : Bool := loc ≠ [] ∧ indexOf (utf8 "??") loc = none

/-- `resolves`. -/
def resolves (locs : List (List U8)) : Bool := locs.any isLocation

section

variable (resolve : U64 → Answered) (symbolAddress : List U8 → Option U64) (kallsyms : Option (List U8))

/-- The exact method: an offset of 2 MiB steps between the two addresses of `_stext`. -/
def exactOffset : Option U64 := do
  let run ← kallsymsStext kallsyms
  let vml ← symbolAddress (utf8 "_stext")
  let off := run - vml
  if off &&& 0x1fffff#64 = 0#64 ∧ off >>> 21 < 1#64 <<< 20 then some off else none

/-- The addresses of code behind the start of the text, in order. -/
def codeAddrs (textAddr : U64) (pcs : List U64) : List U64 :=
  (pcs.filter fun v => textAddr < v).mergeSort fun a b => a ≤ b

/-- The heuristic: the distance of the median from the start of the text, in steps of 2 MiB or 16 MiB. -/
def heuristicOffset (pcs : List U64) : U64 :=
  match (symbolAddress (utf8 "_text")).or (symbolAddress (utf8 "_stext")) with
  | none => 0#64
  | some textAddr =>
    let addrs := codeAddrs textAddr pcs
    match addrs[addrs.length / 2]? with
    | none => 0#64
    | some median =>
      let diff := median - textAddr
      let guess := [21, 24].findSome? fun shift =>
        let offset := (diff >>> shift) <<< shift
        if 0#64 < offset ∧ resolves (probeLocations resolve [median - offset]) then some offset else none
      guess.getD ((diff >>> 24) <<< 24)

/-- `detect_offset`. -/
def detectOffset (pcs : List U64) : U64 :=
  if pcs = [] then 0#64
  else if resolves (probeLocations resolve (pcs.take 10)) then 0#64
  else (exactOffset symbolAddress kallsyms).getD (heuristicOffset resolve symbolAddress pcs)

end

end Vock.Report
