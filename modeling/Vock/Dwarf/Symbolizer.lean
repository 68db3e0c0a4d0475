import Vock.Dwarf.Funcs
import Vock.Dwarf.Line
import Vock.Format
import Vock.Library.Cached
import Vock.Report.Resolve

/-!
# The symbolizer

`Symbolizer` of `vock/src/dwarf/mod.rs`, with `SymTab` of `elf.rs`: the index of the units, the tables that are
parsed when a PC needs them first, and the name and the location of a PC.

What `open` reads stays (`Opened`); the tables that are kept are a state (`Caches`). The line table and the
function table of a unit are kept in the unit; here they are kept under its offset. A sort that may move
equal elements is a stable one here.
-/

namespace Vock.Dwarf

open Library

/-! ## The index -/

/-- `Range`. -/
structure Range where
  start : U64
  stop : U64
  unit : Nat
  deriving Repr, DecidableEq

def Range.le (a b : Range) : Bool := a.start ≤ b.start

/-- The tuples of a set of `.debug_aranges`, up to the one that ends it. -/
def arangesTuples (addrSize unit stop : Nat) : Nat → Cur → List Range
  | 0, _ => []
  | fuel + 1, c =>
    if c.pos + 2 * addrSize ≤ min stop c.data.length then
      match addrPair addrSize c with
      | none => []
      | some ((a, l), c) =>
        if a = 0#64 ∧ l = 0#64 then []
        else (if l = 0#64 then [] else [⟨a, a + l, unit⟩]) ++ arangesTuples addrSize unit stop fuel c
    else []

/-- The header of a set, up to its tuples: its end, its unit and the size of an address. -/
def readArangesHeader : Read (Nat × Nat × Nat) := do
  let initial ← initialLength
  let start ← Reader.pos
  if 2 ^ 64 ≤ start + initial.1 then failure
  else
    let version ← le 2
    if version ≠ 2#64 then failure
    else
      let unit ← off initial.2
      let addrSize ← le 1
      let _ ← le 1
      if addrSize = 0#64 then failure
      else
        let tuple := 2 * addrSize.toNat
        let pos ← Reader.pos
        Reader.skip ((tuple - pos % tuple) % tuple)
        pure (start + initial.1, unit, addrSize.toNat)

/-- The sets of `.debug_aranges`, each with its unit. -/
def arangesSets (sec : List U8) : Nat → Nat → List (Nat × List Range)
  | 0, _ => []
  | fuel + 1, pos =>
    if pos < sec.length then
      match readArangesHeader ⟨sec, pos⟩ with
      | none => []
      | some ((stop, unit, addrSize), c) =>
        (unit, arangesTuples addrSize unit stop (sec.length + 1) c) :: arangesSets sec fuel stop
    else []

/-- `parse_aranges`. Each set takes a byte at least. -/
def parseAranges (sec : List U8) : List Range × List Nat :=
  let sets := arangesSets sec (sec.length + 1) 0
  ((sets.flatMap Prod.snd).mergeSort Range.le, ((sets.map Prod.fst).mergeSort fun a b => a ≤ b).eraseReps)

/-- `find_range`. -/
def findRange (ranges : List Range) (pc : U64) : Option Nat :=
  let i := (ranges.takeWhile (·.start ≤ pc)).length
  (((ranges.take i).drop (i - 3)).reverse.find? fun r => r.start ≤ pc ∧ pc < r.stop).map Range.unit

/-! ## The symbols -/

/-- A symbol, with what decides between symbols of one address. -/
structure Symbol where
  value : U64
  func : Bool
  sized : Bool
  name : List U8

/-- An entry of the symbol table that names code. -/
def symbolOf (strtab ent : List U8) : Option Symbol :=
  let field (pos n : Nat) := leValue ((ent.drop pos).take n)
  let typ := field 4 1 &&& 0xf#64
  if field 6 2 = 0#64 ∨ field 8 8 = 0#64 ∨ (typ ≠ 2#64 ∧ typ ≠ 0#64) then none
  else
    (cstrAt strtab (field 0 4).toNat).bind fun n =>
      if n = [] ∨ (utf8 ".L").isPrefixOf n ∨ (utf8 "$").isPrefixOf n then none
      else some ⟨field 8 8, typ = 2#64, field 16 8 ≠ 0#64, n⟩

/-- The order of the symbols: by address, functions first, then symbols with a size. -/
def Symbol.le (a b : Symbol) : Bool :=
  a.value < b.value || (a.value = b.value && ((a.func && !b.func) || (a.func == b.func && (a.sized || !b.sized))))

/-- `SymTab::parse`. -/
def parseSymTab (symtab strtab : List U8) : List (U64 × List U8) :=
  let entries := (List.range (symtab.length / 24)).map fun i => (symtab.drop (24 * i)).take 24
  ((entries.filterMap (symbolOf strtab)).mergeSort Symbol.le).map fun s => (s.value, s.name)

/-- `SymTab::before`: the first symbol at the greatest address up to the PC. -/
def symbolBefore (syms : List (U64 × List U8)) (pc : U64) : Option (List U8) :=
  match (syms.takeWhile (·.1 ≤ pc)).length with
  | 0 => none
  | j + 1 =>
    syms[j]?.bind fun s => syms[((syms.take j).reverse.dropWhile (·.1 = s.1)).length]?.map Prod.snd

/-! ## The state -/

/-- What `Symbolizer::open` has read. `fullOnly` says that `VOCK_DWARF_FULL_INDEX` is set. -/
structure Opened where
  sec : Sections
  symtabRaw : List U8 × List U8
  aranges : List Range
  unitOffsets : List Nat
  fullOnly : Bool

/-- `Symbolizer::open`, from the sections on. -/
def openSections (sec : Sections) (aranges : List U8) (symtabRaw : List U8 × List U8) (fullOnly : Bool) : Opened :=
  ⟨sec, symtabRaw, (parseAranges aranges).1, (parseAranges aranges).2, fullOnly⟩

/-- The tables that are kept. -/
structure Caches where
  symtab : Option (List (U64 × List U8))
  full : Option (List Range)
  abbrevs : List (Nat × Abbrevs)
  units : List (Nat × Unit)
  lines : List (Nat × Option LineTable)
  funcs : List (Nat × FuncTable)

def Caches.empty : Caches := ⟨none, none, [], [], [], []⟩

/-- The unit of a header, by its root entry. -/
def Unit.ofHeader (sec : Sections) (lossy : List U8 → List U8) (h : Header) (abbrevs : Abbrevs) : Option Unit := do
  let code ← uleb ⟨sec.info, h.dieOff⟩
  let ab ← abbrevs.get code.1
  if ab.tag ≠ dwTagCompileUnit ∧ ab.tag ≠ dwTagPartialUnit then none
  else
    let vals ← readAttrs h.shape ab.attrs code.2
    some (Unit.ofRoot sec lossy h abbrevs vals.1)

/-- The line table of a unit. -/
def Unit.lineTable (sec : Sections) (lossy : List U8 → List U8) (u : Unit) : Option LineTable :=
  u.stmtList.bind (LineTable.parse sec lossy u)

/-- The own name of an entry of a unit, and the entry that it refers to. -/
def Unit.entryAt (sec : Sections) (u : Unit) (off : Nat) : Option (Option (List U8) × Option Nat) := do
  let code ← uleb ⟨sec.info, off⟩
  let ab ← u.abbrevs.get code.1
  let vals ← readAttrs u.shape ab.attrs code.2
  let refs := vals.1.filterMap fun p =>
    match p with
    | (attr, .ref o) => if attr = dwAtAbstractOrigin ∨ attr = dwAtSpecification then some o else none
    | _ => none
  some ((lastAttr dwAtName vals.1).bind (u.string sec), refs.getLast?)

/-! ## Resolving -/

section

variable (o : Opened) (lossy : List U8 → List U8)

/-- `Symbolizer::symtab`. -/
def symtab : StateM Caches (Option (List (U64 × List U8))) :=
  cached Caches.symtab (fun t s => { s with symtab := some t }) (pure (some (parseSymTab o.symtabRaw.1 o.symtabRaw.2)))

/-- `Symbolizer::abbrevs`. -/
def abbrevsAt (off : Nat) : StateM Caches (Option Abbrevs) :=
  cached (·.abbrevs.lookup off) (fun a s => { s with abbrevs := (off, a) :: s.abbrevs })
    (pure (Abbrevs.parse o.sec.abbrevs off))

/-- `Unit::parse`, with the abbreviations that are kept. -/
def parseUnit (off : Nat) : StateM Caches (Option Unit) :=
  match parseHeader o.sec.info off with
  | none => pure none
  | some h =>
    if h.unitType ≠ 0x01 ∧ h.unitType ≠ 0x03 ∧ h.unitType ≠ 0x04 ∧ h.unitType ≠ 0x05 then pure none
    else (·.bind (Unit.ofHeader o.sec lossy h)) <$> abbrevsAt o h.abbrevOff

/-- `Symbolizer::unit`. -/
def unitAt (off : Nat) : StateM Caches (Option Unit) :=
  cached (·.units.lookup off) (fun u s => { s with units := (off, u) :: s.units }) (parseUnit o lossy off)

/-- The last unit of `.debug_aranges` at or before an offset. -/
def listedBefore (unitOffsets : List Nat) (off : Nat) : Option Nat :=
  match (unitOffsets.takeWhile (· ≤ off)).length with
  | 0 => none
  | i + 1 => unitOffsets[i]?

/-- `Symbolizer::unit_containing`. -/
def unitContaining (off : Nat) : StateM Caches (Option Unit) :=
  match listedBefore o.unitOffsets off with
  | none => pure none
  | some uoff => (·.filter fun u => off < u.endOff) <$> unitAt o lossy uoff

/-- `Unit::lines`. -/
def linesOf (u : Unit) : StateM Caches (Option (Option LineTable)) :=
  cached (·.lines.lookup u.shape.off) (fun t s => { s with lines := (u.shape.off, t) :: s.lines })
    (pure (some (u.lineTable o.sec lossy)))

/-- `Unit::funcs`. -/
def funcsOf (u : Unit) : StateM Caches (Option FuncTable) :=
  cached (·.funcs.lookup u.shape.off) (fun t s => { s with funcs := (u.shape.off, t) :: s.funcs })
    (pure (some (u.walk o.sec lossy)))

/-- `Unit::address_ranges`, as ranges of the index. -/
def Unit.indexRanges (sec : Sections) (off : Nat) (u : Unit) : List Range :=
  (u.addressRanges sec).map fun r => ⟨r.1, r.2, off⟩

/-- The loop of `full_index`. -/
def fullIndexLoop : Nat → Nat → StateM Caches (List Range)
  | 0, _ => pure []
  | fuel + 1, off =>
    if off < o.sec.info.length then
      match parseHeader o.sec.info off with
      | none => pure []
      | some h => do
        let u ← unitAt o lossy off
        (u.elim [] (Unit.indexRanges o.sec off) ++ ·) <$> fullIndexLoop fuel h.endOff
    else pure []

/-- `Symbolizer::full_index`. Each header takes a byte at least. -/
def fullIndex : StateM Caches (Option (List Range)) :=
  cached Caches.full (fun v s => { s with full := some v })
    ((fun v => some (v.mergeSort Range.le)) <$> fullIndexLoop o lossy (o.sec.info.length + 1) 0)

/-- `Symbolizer::unit_offset_for_pc`. -/
def unitOffsetForPc (pc : U64) : StateM Caches (Option Nat) :=
  match if o.fullOnly then none else findRange o.aranges pc with
  | some unit => pure (some unit)
  | none => (·.bind (findRange · pc)) <$> fullIndex o lossy

/-- `Unit::die_name`, with `Symbolizer::die_name` for the entries it refers to. A function table is asked only
where it is there already. -/
def dieName : Nat → Unit → Nat → Nat → StateM Caches (Option (List U8))
  | 0, _, _, _ => pure none
  | fuel + 1, u, off, hops => fun s =>
    match (s.funcs.lookup u.shape.off).bind (·.names.lookup off) with
    | some n => (some n, s)
    | none =>
      if 4 < hops ∨ off < u.dieOff ∨ u.endOff ≤ off then (none, s)
      else
        match u.entryAt o.sec off with
        | some (some name, _) => (some (lossy name), s)
        | some (none, some next) =>
          (unitContaining o lossy next >>= fun v => v.elim (pure none) fun v => dieName fuel v next (hops + 1)) s
        | _ => (none, s)

/-- `Symbolizer::name_string`. The hops end behind the fourth. -/
def nameString (u : Unit) : Name → StateM Caches (Option (List U8))
  | .none => pure none
  | .direct s => pure (some s)
  | .die off =>
    if u.dieOff ≤ off ∧ off < u.endOff then dieName o lossy 6 u off 0
    else unitContaining o lossy off >>= fun v => v.elim (pure none) fun v => dieName o lossy 6 v off 0

/-- The location and the function that the unit of a PC gives. -/
def unitAnswer (pc : U64) (u : Unit) : StateM Caches (Option (List U8) × Option (List U8)) := do
  let lines ← linesOf o lossy u
  let loc := (lines.bind fun t => t.bind (·.find pc)).map fun r => r.1 ++ byte ':' :: dec r.2.toNat
  let funcs ← funcsOf o lossy u
  let func ← ((funcs.bind (·.find pc)).elim (pure none) (nameString o lossy u))
  pure (func, loc)

/-- The name of the symbol before a PC. -/
def symbolName (pc : U64) : StateM Caches (Option (List U8)) :=
  (fun t => (t.bind (symbolBefore · pc)).map fun s => Report.canonicalFunction (lossy s)) <$> symtab o

/-- `Symbolizer::resolve`. -/
def resolve (pc : U64) : StateM Caches (List U8 × List U8) := do
  let unit ← unitOffsetForPc o lossy pc
  let unit ← unit.elim (pure none) (unitAt o lossy)
  let answer ← unit.elim (pure (none, none)) (unitAnswer o lossy pc)
  let func ← answer.1.elim (symbolName o lossy pc) (pure ∘ some)
  pure (func.getD (utf8 "??"), answer.2.getD (utf8 "??:0"))

end

end Vock.Dwarf
