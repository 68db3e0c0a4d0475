import Vock.Dwarf.Unit

/-!
# Line tables

The line-number programs of `.debug_line`, from `vock/src/dwarf/line.rs`: the header with its directories
and files, the loop over the program, and the search in the sorted rows. The register `is_stmt` is left out,
since nothing reads it.
-/

namespace Vock.Dwarf

open Library

/-- `u32`. -/
abbrev U32 := BitVec 32

/-- A row of a line table, over the numbers its file and line are kept in. -/
structure LineRow (F L : Type) where
  addr : U64
  file : F
  line : L
  stop : Bool
  deriving Repr, DecidableEq

/-- `Row`; `stop` is `end`. -/
abbrev Row := LineRow U32 U32

/-- `LineTable`. -/
structure LineTable where
  rows : List Row
  files : List (List U8)
  v5 : Bool

/-- `join`. -/
def join (compDir dir name : List U8) : List U8 :=
  if name.head? = some (byte '/') then name
  else
    let dirFull :=
      if dir.head? = some (byte '/') then dir
      else if dir = [] then compDir
      else if compDir = [] then dir
      else compDir ++ byte '/' :: dir
    if dirFull = [] then name else dirFull ++ byte '/' :: name

/-! ## The header -/

/-- What a field of a content type does to an entry: the path is type 1, the directory type 2. -/
def entryField (sec : Sections) (lossy : List U8 → List U8) (u : Unit) (ct : U64) (v : Val) (entry : List U8 × U64) :
    List U8 × U64 :=
  if ct = 1#64 then (((u.string sec v).map lossy).getD entry.1, entry.2)
  else if ct = 2#64 then (entry.1, v.asU64.getD 0#64)
  else entry

/-- An entry of a list of version 5, by the content types and forms of the list. -/
def readEntryV5 (sec : Sections) (lossy : List U8 → List U8) (u : Unit) (shape : UnitShape) :
    List (U64 × Nat) → List U8 × U64 → Read (List U8 × U64)
  | [], entry => pure entry
  | (ct, form) :: fmts, entry => do
    let v ← readForm form shape 0#64
    readEntryV5 sec lossy u shape fmts (entryField sec lossy u ct v entry)

/-- `read_entries_v5`. -/
def readEntriesV5 (sec : Sections) (lossy : List U8 → List U8) (u : Unit) (shape : UnitShape) :
    Read (List (List U8 × U64)) := do
  let nfmt ← le 1
  let fmts ← Reader.times (do
    let ct ← uleb
    (ct, ·) <$> uleb16) nfmt.toNat
  let n ← uleb
  Reader.times (readEntryV5 sec lossy u shape fmts ([], 0#64)) n.toNat

/-- The directories before version 5, up to the empty string. -/
def readDirs (lossy : List U8 → List U8) : Nat → Read (List (List U8))
  | 0 => failure
  | fuel + 1 => do
    let s ← cstr
    if s = [] then pure [] else (lossy s :: ·) <$> readDirs lossy fuel

/-- The files before version 5, up to the empty string. -/
def readFiles (lossy : List U8 → List U8) : Nat → Read (List (List U8 × U64))
  | 0 => failure
  | fuel + 1 => do
    let s ← cstr
    if s = [] then pure []
    else
      let dir ← uleb
      let _ ← uleb
      let _ ← uleb
      ((lossy s, dir) :: ·) <$> readFiles lossy fuel

/-- What the header of a line program says. -/
structure LineHeader where
  progStart : Nat
  endOff : Nat
  version : Nat
  minInst : U64
  lineBase : Int
  lineRange : Nat
  opcodeBase : Nat
  stdLens : List U8
  dirs : List (List U8)
  files : List (List U8 × U64)

/-- The directories and files. Each string takes a byte at least. -/
def readTables (sec : Sections) (lossy : List U8 → List U8) (u : Unit) (shape : UnitShape) :
    Read (List (List U8) × List (List U8 × U64)) :=
  if 5 ≤ shape.version then do
    let dirs ← readEntriesV5 sec lossy u shape
    (dirs.map Prod.fst, ·) <$> readEntriesV5 sec lossy u shape
  else do
    let dirs ← readDirs lossy (sec.line.length + 1)
    (dirs, ·) <$> readFiles lossy (sec.line.length + 1)

/-- The size of an address and, from version 5 on, of a segment selector. -/
def readAddrSize (u : Unit) (version : Nat) : Read Nat :=
  if 5 ≤ version then do
    let size ← le 1
    (fun _ => size.toNat) <$> le 1
  else pure u.shape.addrSize

/-- The number of operations of an instruction, from version 4 on; it is passed over. -/
def readMaxOps (version : Nat) : Read U64 := if 4 ≤ version then le 1 else pure 1#64

/-- The fields behind the length of the header. -/
def readLineParams (sec : Sections) (lossy : List U8 → List U8) (u : Unit) (shape : UnitShape)
    (progStart endOff : Nat) : Read LineHeader := do
  let minInst ← le 1
  let _ ← readMaxOps shape.version
  let _ ← le 1
  let lineBase ← Reader.item
  let lineRange ← le 1
  if lineRange = 0#64 then failure
  else
    let opcodeBase ← le 1
    let lens ← Reader.items (opcodeBase.toNat - 1)
    let tables ← readTables sec lossy u shape
    pure {
      progStart := progStart
      endOff := endOff
      version := shape.version
      minInst := minInst
      lineBase := lineBase.toInt
      lineRange := lineRange.toNat
      opcodeBase := opcodeBase.toNat
      stdLens := 0#8 :: lens
      dirs := tables.1
      files := tables.2 }

/-- The part of `LineTable::parse` up to the program. -/
def readLineHeader (sec : Sections) (lossy : List U8 → List U8) (u : Unit) : Read LineHeader := do
  let initial ← initialLength
  let start ← Reader.pos
  if 2 ^ 64 ≤ start + initial.1 then failure
  else
    let version ← le 2
    if version.toNat < 2 ∨ 5 < version.toNat then failure
    else
      let addrSize ← readAddrSize u version.toNat
      let headerLength ← off initial.2
      let fields ← Reader.pos
      if 2 ^ 64 ≤ fields + headerLength then failure
      else
        readLineParams sec lossy u ⟨u.shape.off, version.toNat, initial.2, addrSize⟩ (fields + headerLength)
          (min (start + initial.1) sec.line.length)

/-- `dir_of`. -/
def LineHeader.dirOf (h : LineHeader) (i : U64) : List U8 :=
  if 5 ≤ h.version then h.dirs[i.toNat]?.getD []
  else if i = 0#64 then []
  else h.dirs[i.toNat - 1]?.getD []

/-- The paths of the files. -/
def LineHeader.paths (h : LineHeader) (u : Unit) : List (List U8) :=
  h.files.map fun f => join (u.compDir.getD []) (h.dirOf f.2) f.1

/-! ## The program -/

/-- The registers of the line-number machine. -/
structure LineRegs (F L : Type) where
  addr : U64
  file : F
  line : L
  deriving Repr, DecidableEq

/-- The row of the registers. -/
def LineRegs.row {F L : Type} (r : LineRegs F L) (stop : Bool) : LineRow F L := ⟨r.addr, r.file, r.line, stop⟩

/-- `.max(0) as u32`. -/
def lineOfInt (n : Int) : U32 := BitVec.ofInt 32 (max n 0)

def startRegs : LineRegs U32 U32 := ⟨0#64, 1#32, 1#32⟩

/-- What an extended operation does, by its opcode and the length of its operands. -/
def extendedEffect (r : LineRegs U32 U32) (sub : U64) (len : Nat) : Read (LineRegs U32 U32 × List Row) :=
  if sub = 1#64 then pure (startRegs, [r.row true])
  else if sub = 2#64 then (fun a => ({ r with addr := a }, [])) <$> addr (len % 2 ^ 8)
  else pure (r, [])

/-- An extended operation. Wherever the operands end, the program goes on behind the length. -/
def extendedOp (r : LineRegs U32 U32) : Read (LineRegs U32 U32 × List Row) := do
  let len ← uleb
  let start ← Reader.pos
  let sub ← le 1
  let next ← extendedEffect r sub (len.toNat - 1)
  if 2 ^ 64 ≤ start + len.toNat then failure
  else
    Reader.seek (start + len.toNat)
    pure next

/-- A standard operation, by its opcode. -/
def standardOp (h : LineHeader) (r : LineRegs U32 U32) (op : Nat) : Read (LineRegs U32 U32 × List Row) :=
  match op with
  | 0 => extendedOp r
  | 1 => pure (r, [r.row false])
  | 2 => (fun n => ({ r with addr := r.addr + n * h.minInst }, [])) <$> uleb
  | 3 => (fun n => ({ r with line := lineOfInt (r.line.setWidth 64 + n).toInt }, [])) <$> sleb
  | 4 => (fun n => ({ r with file := n.setWidth 32 }, [])) <$> uleb
  | 5 => (fun _ => (r, [])) <$> uleb
  | 6 => pure (r, [])
  | 7 => pure (r, [])
  | 8 => pure ({ r with addr := r.addr + BitVec.ofNat 64 ((255 - h.opcodeBase) / h.lineRange) * h.minInst }, [])
  | 9 => (fun n => ({ r with addr := r.addr + n }, [])) <$> le 2
  | 10 => pure (r, [])
  | 11 => pure (r, [])
  | 12 => (fun _ => (r, [])) <$> uleb
  | op => (fun _ => (r, [])) <$> Reader.times uleb (h.stdLens[op]?.getD 0#8).toNat

/-- One round of the loop over the program. -/
def lineOp (h : LineHeader) (r : LineRegs U32 U32) : Read (LineRegs U32 U32 × List Row) := do
  let op ← le 1
  if h.opcodeBase ≤ op.toNat then
    let adj := op.toNat - h.opcodeBase
    let r : LineRegs U32 U32 :=
      { r with
        addr := r.addr + BitVec.ofNat 64 (adj / h.lineRange) * h.minInst
        line := lineOfInt (r.line.toNat + h.lineBase + (adj % h.lineRange : Nat)) }
    pure (r, [r.row false])
  else standardOp h r op.toNat

/-- The loop over the program. -/
def lineLoop (h : LineHeader) : Nat → LineRegs U32 U32 → Cur → Option (List Row)
  | 0, _, _ => none
  | fuel + 1, r, c =>
    if c.pos < h.endOff then
      match lineOp h r c with
      | none => none
      | some ((r, rows), c) => (lineLoop h fuel r c).map (rows ++ ·)
    else some []

/-- The key of the sort: the ends in front of the rows at their address. -/
def Row.le (x y : Row) : Bool := x.addr < y.addr || (x.addr = y.addr && (x.stop || !y.stop))

/-- `LineTable::parse`. Each round takes a byte at least. -/
def LineTable.parse (sec : Sections) (lossy : List U8 → List U8) (u : Unit) (off : Nat) : Option LineTable :=
  match readLineHeader sec lossy u ⟨sec.line, off⟩ with
  | none => none
  | some (h, _) =>
    (lineLoop h (sec.line.length + 1) startRegs ⟨sec.line, h.progStart⟩).map fun rows =>
      ⟨rows.mergeSort Row.le, h.paths u, 5 ≤ h.version⟩

/-- The path of a row in the table of the files. -/
def LineTable.file (t : LineTable) (file : U32) : Option (List U8) :=
  if t.v5 then t.files[file.toNat]?
  else if file = 0#32 then none
  else t.files[file.toNat - 1]?

/-- `LineTable::find`. -/
def LineTable.find (t : LineTable) (pc : U64) : Option (List U8 × U32) :=
  match (t.rows.takeWhile (·.addr ≤ pc)).length with
  | 0 => none
  | i + 1 =>
    t.rows[i]?.bind fun r =>
      if r.stop then none else (t.file r.file).map (·, r.line)

end Vock.Dwarf
