import Vock.Fuzz.ProgText

/-!
# Names by kallsyms

`resolve_pcs` of `vock/src/report/btf.rs`: the symbol table of the running kernel, the offset between it and the PCs of
a log, and the name of each PC. A file that cannot be read is `none`; `x86` says that the program is built for x86_64.
Offsets are `i64`s modulo `2 ^ 64`. The messages on stderr are left out.
-/

namespace Vock.Report.Btf

open Library
open Fuzz (lines fromStrRadix splitWhitespace)

/-- The symbol of a line of kallsyms. -/
def kallsym (line : List U8) : Option (U64 × List U8) :=
  match splitWhitespace line with
  | addr :: _ :: name :: _ => (fromStrRadix 16 addr).bind fun a => if a = 0#64 then none else some (a, name)
  | _ => none

/-- `load_kallsyms`. -/
def loadKallsyms (data : Option (List U8)) : List (U64 × List U8) :=
  ((data.elim [] lines).filterMap kallsym).mergeSort fun s t => s.1 ≤ t.1

/-- `parse_pc`. -/
def parsePc (pc : List U8) : Option U64 := fromStrRadix 16 (trimStart [utf8 "0X"] (trimStart [utf8 "0x"] pc))

/-- The address of the first symbol that is `_text` or `_stext`. -/
def textAddr (syms : List (U64 × List U8)) : Option U64 :=
  (syms.find? fun s => s.2 = utf8 "_text" ∨ s.2 = utf8 "_stext").map Prod.fst

/-- `int_pcs.iter().copied().min()`. -/
def minPc : List U64 → Option U64
  | [] => none
  | pc :: pcs => some (pcs.foldl (fun a b => if b < a then b else a) pc)

/-- `kaslr_offset`. -/
def kaslrOffset (x86 : Bool) (intPcs : List U64) (syms : List (U64 × List U8)) : U64 :=
  match minPc intPcs, syms.getLast?, textAddr syms with
  | some minPc, some (last, _), some text =>
    let inText := (intPcs.filter fun pc => text ≤ pc ∧ pc ≤ last).length
    if intPcs.length ≤ inText * 2 then 0#64
    else if minPc < text then if x86 then text - 0xffffffff81000000#64 else 0#64
    else if last < minPc then -(minPc - text)
    else 0#64
  | _, _, _ => 0#64

/-- The name of the symbol at or before an address. -/
def nameAt (syms : List (U64 × List U8)) (adj : U64) : Option (List U8) :=
  match (syms.takeWhile (·.1 ≤ adj)).length with
  | 0 => none
  | idx + 1 => syms[idx]?.map Prod.snd

/-- `resolve_pcs`. -/
def resolvePcs (x86 : Bool) (pcs : List (List U8)) (kallsyms : Option (List U8)) : List (List U8 × Option (List U8)) :=
  let syms := loadKallsyms kallsyms
  if syms = [] then pcs.map fun p => (p, none)
  else
    let offset := kaslrOffset x86 (pcs.filterMap parsePc) syms
    pcs.map fun p => (p, (parsePc p).bind fun pc => nameAt syms (pc + offset))

end Vock.Report.Btf
