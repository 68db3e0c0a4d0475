import Vock.Library.RowTable
import Vock.Laws.Dwarf.LineProgram
import Vock.Laws.Dwarf.Ranges

/-!
# Line lookup

The bytes of a line-number unit with its header and tables, and what `LineTable::find` says of a program whose
rows form sequences. Every row is kept with the numbers of `LineTable::parse` beside those of DWARF. The
table says what DWARF says of it at every address exactly if it does so at its rows, and at the ends of the
sequences (`find_iff`): a row at the end address of its own sequence sorts behind the end, and is found at
addresses that are in no sequence.

Not established: anything of programs whose sequences overlap or descend, which `WellSequenced` leaves out.
-/

namespace Vock.Dwarf

open Library List

variable {bs : List U8} {bss : List (List U8)} {tables : List (List U8) × List (List U8 × U64)} {sec : Sections}
  {lossy : List U8 → List U8} {u : Unit}

/-! ## The tables of the header -/

/-- The bytes of a directory before version 5. -/
def DirBytes (dir bs : List U8) : Prop := bs = dir ++ [0#8] ∧ dir ≠ [] ∧ 0#8 ∉ dir

/-- The bytes of a file before version 5: its name, directory, time and size. -/
def FileBytes (f : List U8 × Nat) (bs : List U8) : Prop :=
  ∃ ds times sizes time size, bs = f.1 ++ [0#8] ++ (ds ++ (times ++ sizes)) ∧ f.1 ≠ [] ∧ 0#8 ∉ f.1 ∧
    Spelled f.2 ds ∧ Spelled time times ∧ Spelled size sizes

/-- The bytes of a content type and its form. -/
def FormatBytes (f : U64 × Nat) (bs : List U8) : Prop :=
  ∃ cs fs, bs = cs ++ fs ∧ Spelled f.1.toNat cs ∧ Spelled f.2 fs ∧ f.2 < 2 ^ 16

/-- The bytes of the fields of an entry of version 5. -/
inductive EntryBytes (shape : UnitShape) : List (U64 × Nat) → List Val → List U8 → Prop
  | nil : EntryBytes shape [] [] []
  | cons {ct : U64} {form : Nat} {v : Val} {bs rest : List U8} {fmts : List (U64 × Nat)} {vals : List Val}
      (hv : FormBytes shape 0#64 form v bs) (hrest : EntryBytes shape fmts vals rest) :
      EntryBytes shape ((ct, form) :: fmts) (v :: vals) (bs ++ rest)

section

variable (sec lossy u) (shape : UnitShape)

/-- The entry of the fields. -/
def entryOf : List (U64 × Nat) → List Val → List U8 × U64 → List U8 × U64
  | fmt :: fmts, v :: vals, entry => entryOf fmts vals (entryField sec lossy u fmt.1 v entry)
  | _, _, entry => entry

/-- The bytes of a list of version 5: the formats and the entries, with their numbers. -/
def EntriesBytes (entries : List (List U8 × U64)) (bs : List U8) : Prop :=
  ∃ fmts fbss valss ebss ns, fmts.length < 2 ^ 8 ∧ List.Forall₂ FormatBytes fmts fbss ∧
    Spelled valss.length ns ∧ valss.length < 2 ^ 64 ∧ List.Forall₂ (EntryBytes shape fmts) valss ebss ∧
    entries = valss.map (fun vals => entryOf sec lossy u fmts vals ([], 0#64)) ∧
    bs = leBytes 1 (BitVec.ofNat 64 fmts.length) ++ (fbss.flatten ++ (ns ++ ebss.flatten))

/-- The bytes of the directories and files. -/
inductive TableBytes : List (List U8) × List (List U8 × U64) → List U8 → Prop
  | old {dirs : List (List U8)} {files : List (List U8 × Nat)} {dbss fbss : List (List U8)} (version : shape.version < 5)
      (hdirs : List.Forall₂ DirBytes dirs dbss) (hfiles : List.Forall₂ FileBytes files fbss) :
      TableBytes (dirs.map lossy, files.map fun f => (lossy f.1, BitVec.ofNat 64 f.2))
        (dbss.flatten ++ [0#8] ++ (fbss.flatten ++ [0#8]))
  | five {dirs files : List (List U8 × U64)} {dbs fbs : List U8} (version : 5 ≤ shape.version)
      (hdirs : EntriesBytes sec lossy u shape dirs dbs) (hfiles : EntriesBytes sec lossy u shape files fbs) :
      TableBytes (dirs.map Prod.fst, files) (dbs ++ fbs)

end

section

variable {shape : UnitShape}

theorem reads_stop : Reads cstr [0#8] [] := reads_cstr (s := []) not_mem_nil

theorem reads_readDirs {dirs : List (List U8)} (h : List.Forall₂ DirBytes dirs bss) (fuel : Nat)
    (hfuel : bss.flatten.length < fuel) : Reads (readDirs lossy fuel) (bss.flatten ++ [0#8]) (dirs.map lossy) := by
  induction h generalizing fuel with
  | nil =>
    obtain ⟨fuel, rfl⟩ : ∃ k, fuel = k + 1 := ⟨fuel - 1, by omega⟩
    exact reads_stop.bind_nil (reads_pure [])
  | @cons dir bs dirs bss hdir _ ih =>
    obtain ⟨rfl, hne, hnul⟩ := hdir
    obtain ⟨fuel, rfl⟩ : ∃ k, fuel = k + 1 := ⟨fuel - 1, by omega⟩
    rw [flatten_cons, length_append, length_append, length_singleton] at hfuel
    rw [flatten_cons, append_assoc]
    refine (reads_cstr hnul).bind ?_
    rw [if_neg hne]
    exact (ih fuel (by omega)).map _

theorem reads_readFiles {files : List (List U8 × Nat)} (h : List.Forall₂ FileBytes files bss)
    (fuel : Nat) (hfuel : bss.flatten.length < fuel) :
    Reads (readFiles lossy fuel) (bss.flatten ++ [0#8]) (files.map fun f => (lossy f.1, BitVec.ofNat 64 f.2)) := by
  induction h generalizing fuel with
  | nil =>
    obtain ⟨fuel, rfl⟩ : ∃ k, fuel = k + 1 := ⟨fuel - 1, by omega⟩
    exact reads_stop.bind_nil (reads_pure [])
  | @cons f bs files bss hfile _ ih =>
    obtain ⟨ds, times, sizes, time, size, rfl, hne, hnul, hdir, htime, hsize⟩ := hfile
    obtain ⟨fuel, rfl⟩ : ∃ k, fuel = k + 1 := ⟨fuel - 1, by omega⟩
    simp only [flatten_cons, length_append, length_singleton] at hfuel
    simp only [flatten_cons, append_assoc]
    rw [← append_assoc f.1]
    refine (reads_cstr hnul).bind ?_
    rw [if_neg hne]
    refine (reads_uleb hdir.1 hdir.2).bind ((reads_uleb htime.1 htime.2).bind ((reads_uleb hsize.1 hsize.2).bind ?_))
    exact (ih fuel (by omega)).map _

theorem reads_readEntryV5 {fmts : List (U64 × Nat)} {vals : List Val}
    (h : EntryBytes shape fmts vals bs) (entry : List U8 × U64) :
    Reads (readEntryV5 sec lossy u shape fmts entry) bs (entryOf sec lossy u fmts vals entry) := by
  induction h generalizing entry with
  | nil => exact reads_pure entry
  | cons hv _ ih => exact (reads_readForm hv).bind (ih _)

theorem reads_format {f : U64 × Nat} (h : FormatBytes f bs) : Reads (do let ct ← uleb; (ct, ·) <$> uleb16) bs f := by
  obtain ⟨cs, fs, rfl, hct, hform, hlt⟩ := h
  have hct' := reads_uleb hct.1 hct.2
  rw [BitVec.ofNat_toNat] at hct'
  exact hct'.bind ((reads_uleb16 hform hlt).map (f.1, ·))

theorem reads_readEntriesV5 {entries : List (List U8 × U64)}
    (h : EntriesBytes sec lossy u shape entries bs) : Reads (readEntriesV5 sec lossy u shape) bs entries := by
  obtain ⟨fmts, fbss, valss, ebss, ns, hnfmt, hfmts, hcount, hn, hentries, rfl, rfl⟩ := h
  have hnfmt' : (BitVec.ofNat 64 fmts.length).toNat = fmts.length := by
    rw [BitVec.toNat_ofNat]
    omega
  refine (reads_le (by rw [hnfmt']; exact hnfmt)).bind ?_
  rw [hnfmt']
  refine (Reads.times (hfmts.imp fun f s hf => reads_format hf)).bind ?_
  refine (reads_uleb hcount.1 hcount.2).bind ?_
  have heach : Forall₂ (fun b s => Reads (readEntryV5 sec lossy u shape fmts ([], 0#64)) s b)
      (valss.map fun vals => entryOf sec lossy u fmts vals ([], 0#64)) ebss := by
    rw [forall₂_map_left_iff]
    exact hentries.imp fun vals s hvals => reads_readEntryV5 hvals _
  have hread := Reads.times heach
  rwa [length_map, ← Nat.mod_eq_of_lt hn] at hread

theorem reads_readTables
    (h : TableBytes sec lossy u shape tables bs) (hfit : bs.length ≤ sec.line.length) :
    Reads (readTables sec lossy u shape) bs tables := by
  cases h with
  | old version hdirs hfiles =>
    simp only [length_append] at hfit
    rw [readTables, if_neg (by omega)]
    exact (reads_readDirs hdirs _ (by omega)).bind ((reads_readFiles hfiles _ (by omega)).map _)
  | five version hdirs hfiles =>
    rw [readTables, if_pos version]
    exact (reads_readEntriesV5 hdirs).bind ((reads_readEntriesV5 hfiles).map _)

end

/-! ## The header -/

/-- What is written into a line-number unit, but for the lengths. `rest` is what the length of the header
covers behind the tables. -/
structure LineUnit where
  format64 : Bool
  version : Nat
  addrSize : U8
  segmentSize : U8
  minInst : U8
  maxOps : U8
  isStmt : U8
  lineBase : U8
  lineRange : U8
  stdLens : List U8
  tables : List U8
  rest : List U8
  program : List U8

namespace LineUnit

variable (p : LineUnit)

/-- The fields behind the length of the header. -/
def params : List U8 :=
  [p.minInst] ++ ((if 4 ≤ p.version then [p.maxOps] else []) ++ ([p.isStmt] ++ ([p.lineBase] ++ ([p.lineRange] ++
    (leBytes 1 (BitVec.ofNat 64 (p.stdLens.length + 1)) ++ (p.stdLens ++ p.tables))))))

/-- The version and the sizes in front of the length of the header. -/
def front : List U8 := leBytes 2 (BitVec.ofNat 64 p.version) ++ (if 5 ≤ p.version then [p.addrSize, p.segmentSize] else [])

/-- What the length of the unit covers. -/
def body : List U8 :=
  p.front ++ (leBytes (offSize p.format64) (BitVec.ofNat 64 (p.params.length + p.rest.length)) ++
    (p.params ++ (p.rest ++ p.program)))

/-- The length of the unit. -/
def lengthBytes : List U8 :=
  if p.format64 then leBytes 4 0xffffffff#64 ++ leBytes 8 (BitVec.ofNat 64 p.body.length)
  else leBytes 4 (BitVec.ofNat 64 p.body.length)

def bytes : List U8 := p.lengthBytes ++ p.body

/-- The shape that the forms of the tables are read with. -/
def shape (u : Unit) : UnitShape :=
  ⟨u.shape.off, p.version, p.format64, if 5 ≤ p.version then p.addrSize.toNat else u.shape.addrSize⟩

/-- A unit of a version that is known, whose numbers fit into their fields. -/
structure WellFormed : Prop where
  version : 2 ≤ p.version ∧ p.version ≤ 5
  lineRange : p.lineRange ≠ 0#8
  stdLens : p.stdLens.length + 1 < 2 ^ 8
  length : p.body.length < if p.format64 then 2 ^ 64 else 0xfffffff0

/-- The header of the unit at an offset, with what its tables say. -/
def header (off : Nat) (tables : List (List U8) × List (List U8 × U64)) : LineHeader where
  progStart := off + p.lengthBytes.length + p.front.length + offSize p.format64 + (p.params.length + p.rest.length)
  endOff := off + p.lengthBytes.length + p.body.length
  version := p.version
  minInst := p.minInst.setWidth 64
  lineBase := p.lineBase.toInt
  lineRange := p.lineRange.toNat
  opcodeBase := p.stdLens.length + 1
  stdLens := 0#8 :: p.stdLens
  dirs := tables.1
  files := tables.2

end LineUnit

section

variable {p : LineUnit} {off : Nat} {tables : List (List U8) × List (List U8 × U64)}

theorem reads_initialLength (hwf : p.WellFormed) : Reads initialLength p.lengthBytes (p.body.length, p.format64) :=
  reads_lengthBytes hwf.length

theorem reads_maxOps (version : Nat) (b : U8) :
    ∃ v, Reads (readMaxOps version) (if 4 ≤ version then [b] else []) v := by
  unfold readMaxOps
  split
  next => exact ⟨_, reads_byte b⟩
  next => exact ⟨_, reads_pure _⟩

/-- The fields of the header are read off their bytes. -/
theorem reads_readLineParams (hwf : p.WellFormed) (htables : TableBytes sec lossy u (p.shape u) tables p.tables)
    (hfit : p.tables.length ≤ sec.line.length) (off : Nat) :
    Reads (readLineParams sec lossy u (p.shape u) (p.header off tables).progStart (p.header off tables).endOff) p.params
      (p.header off tables) := by
  obtain ⟨maxOps, hmaxOps⟩ := reads_maxOps p.version p.maxOps
  have hstd := hwf.stdLens
  have hbase : (BitVec.ofNat 64 (p.stdLens.length + 1)).toNat = p.stdLens.length + 1 := by
    rw [BitVec.toNat_ofNat, Nat.mod_eq_of_lt (by omega)]
  have hrange : ¬ p.lineRange.setWidth 64 = 0#64 := by
    intro heq
    have := congrArg BitVec.toNat heq
    rw [toNat_byte] at this
    exact hwf.lineRange (BitVec.eq_of_toNat_eq this)
  refine (reads_byte p.minInst).bind (hmaxOps.bind ((reads_byte p.isStmt).bind ((reads_item p.lineBase).bind
    ((reads_byte p.lineRange).bind ?_))))
  rw [if_neg hrange]
  refine (reads_le (by rw [hbase]; exact hstd)).bind ?_
  rw [hbase]
  refine (reads_items p.stdLens).bind ?_
  refine (reads_readTables htables hfit).bind_nil ?_
  exact reads_pure _

theorem reads_addrSize (u : Unit) (p : LineUnit) :
    Reads (readAddrSize u p.version) (if 5 ≤ p.version then [p.addrSize, p.segmentSize] else []) (p.shape u).addrSize := by
  unfold readAddrSize LineUnit.shape
  split
  next =>
    refine (reads_byte p.addrSize).bind ?_
    exact (reads_byte p.segmentSize).map _
  next => exact reads_pure _

/-- The header of a unit is read at its offset. -/
theorem runs_readLineHeader (hwf : p.WellFormed) (htables : TableBytes sec lossy u (p.shape u) tables p.tables)
    (hlen : sec.line.length < 2 ^ 64) (hfound : Found p.bytes sec.line off) :
    Runs (readLineHeader sec lossy u) sec.line off (p.header off tables)
      (off + p.lengthBytes.length + p.front.length + offSize p.format64 + p.params.length) := by
  have hin := hfound.le_length
  obtain ⟨hlo, hhi⟩ := hwf.version
  have hbytes : p.bytes.length = p.lengthBytes.length + p.body.length := length_append
  have hbody : p.body.length = p.front.length + (offSize p.format64 + (p.params.length + (p.rest.length + p.program.length))) := by
    simp [LineUnit.body]
  have hparams : p.tables.length ≤ p.params.length := by
    simp only [LineUnit.params, length_append]
    omega
  have hversion : (BitVec.ofNat 64 p.version).toNat = p.version := by
    rw [BitVec.toNat_ofNat, Nat.mod_eq_of_lt (by omega)]
  have hhead : p.params.length + p.rest.length < 2 ^ (8 * offSize p.format64) := by
    have hlength := hwf.length
    cases hformat : p.format64 with
    | true => rw [hformat] at hlength; show _ < 2 ^ 64; omega
    | false => rw [hformat, if_neg (by decide)] at hlength; show _ < 2 ^ 32; omega
  have hbodyAt : Found (p.front ++ _) sec.line (off + p.lengthBytes.length) := hfound.right
  have hfields := hbodyAt.right.right.left
  rw [length_leBytes] at hfields
  refine ((reads_initialLength hwf).runs hfound.left).bind ((runs_pos _ _).bind ?_)
  rw [if_neg (by dsimp only; omega)]
  refine ((reads_le (by rw [hversion]; omega)).runs hbodyAt.left.left).bind ?_
  rw [hversion, if_neg (by omega)]
  refine ((reads_addrSize u p).runs hbodyAt.left.right).bind ?_
  have hfront : off + p.lengthBytes.length + (leBytes 2 (BitVec.ofNat 64 p.version)).length +
      (if 5 ≤ p.version then [p.addrSize, p.segmentSize] else []).length = off + p.lengthBytes.length + p.front.length := by
    rw [LineUnit.front, length_append, ← Nat.add_assoc]
  rw [hfront]
  have hoff := (reads_off hhead).runs hbodyAt.right.left
  rw [length_leBytes] at hoff
  refine hoff.bind ?_
  refine (runs_pos _ _).bind ?_
  rw [if_neg (by omega), Nat.min_eq_left (by dsimp only; omega)]
  exact (reads_readLineParams hwf htables (by omega) off).runs hfields

/-- The program of the unit stands where its header says. -/
theorem found_program (tables : List (List U8) × List (List U8 × U64)) (hfound : Found p.bytes sec.line off) :
    Found p.program sec.line (p.header off tables).progStart := by
  have hbodyAt : Found (p.front ++ _) sec.line (off + p.lengthBytes.length) := hfound.right
  have hprogram := hbodyAt.right.right.right.right
  rwa [length_leBytes, Nat.add_assoc _ p.params.length] at hprogram

theorem header_endOff (p : LineUnit) (off : Nat) (tables : List (List U8) × List (List U8 × U64)) :
    (p.header off tables).endOff = (p.header off tables).progStart + p.program.length := by
  simp only [LineUnit.header, LineUnit.body, length_append, length_leBytes]
  omega

theorem header_bounds (p : LineUnit) (off : Nat) (tables : List (List U8) × List (List U8 × U64)) :
    (p.header off tables).Bounds where
  opcodeBase := Nat.succ_pos _
  lineRange := p.lineRange.isLt
  lineBase := ⟨BitVec.le_toInt p.lineBase, BitVec.toInt_lt⟩

end

/-! ## Finding a row -/

scoped instance : LinearOrder U64 where
  le_refl a := BitVec.le_refl a
  le_trans a b c := BitVec.le_trans
  le_antisymm a b := BitVec.le_antisymm
  le_total a b := BitVec.le_total a b
  lt_iff_le_not_ge a b := by
    rw [BitVec.not_le]
    exact ⟨fun h => ⟨BitVec.le_of_lt h, h⟩, fun h => h.2⟩
  toDecidableLE := inferInstance
  toDecidableLT := inferInstance
  toDecidableEq := inferInstance

/-- The file that a number stands for. -/
def fileAt (v5 : Bool) (paths : List (List U8)) (n : Nat) : Option (List U8) :=
  if v5 then paths[n]? else if n = 0 then none else paths[n - 1]?

theorem file_eq_fileAt (t : LineTable) (file : U32) : t.file file = fileAt t.v5 t.files file.toNat := by
  have hzero : file = 0#32 ↔ file.toNat = 0 := BitVec.toNat_inj.symm
  rw [LineTable.file, fileAt]
  simp [hzero]

/-- `find` searches the rows in the order of the program. -/
theorem find_eq_search (rows : List Row) (files : List (List U8)) (v5 : Bool) (pc : U64) :
    LineTable.find ⟨rows.mergeSort Row.le, files, v5⟩ pc =
      (search LineRow.addr LineRow.stop rows pc).bind fun r => (fileAt v5 files r.file.toNat).map (·, r.line) := by
  have hle : Row.le = rowLe LineRow.addr LineRow.stop := rfl
  rw [LineTable.find, search, hle, getLast?_takeWhile]
  simp only [file_eq_fileAt]
  cases hlen : ((rows.mergeSort (rowLe LineRow.addr LineRow.stop)).takeWhile fun e => e.addr ≤ pc).length with
  | zero => rfl
  | succ i =>
    rw [Nat.add_sub_cancel]
    dsimp only
    cases (rows.mergeSort (rowLe LineRow.addr LineRow.stop))[i]? with
    | none => rfl
    | some r => cases hstop : r.stop <;> simp [Option.filter_some, hstop]

/-- The rows of a unit are those of its program over the words. -/
theorem parse_eq {sec : Sections} {lossy : List U8 → List U8} {u : Unit} {p : LineUnit} {off : Nat} {is : List Insn} (hwf : p.WellFormed)
    (htables : TableBytes sec lossy u (p.shape u) tables p.tables) (hlen : sec.line.length < 2 ^ 64)
    (hfound : Found p.bytes sec.line off) (hprogram : p.program = bss.flatten)
    (hbytes : List.Forall₂ (Insn.Bytes (p.header off tables)) is bss) :
    LineTable.parse sec lossy u off = some ⟨(runInsns words (p.header off tables) startRegs is).mergeSort Row.le,
      (p.header off tables).paths u, 5 ≤ p.version⟩ := by
  have hheader : readLineHeader sec lossy u ⟨sec.line, off⟩ = _ := runs_readLineHeader hwf htables hlen hfound
  have hprog := found_program tables hfound
  have hend := header_endOff p off tables
  rw [hprogram] at hprog hend
  have hcount : is.length ≤ bss.flatten.length := by
    clear hprog hend hprogram
    induction hbytes with
    | nil => exact Nat.le_refl 0
    | cons hi _ ih =>
      have hpos := hi.length_pos
      rw [flatten_cons, length_append, length_cons]
      omega
  have hin := hprog.le_length
  rw [LineTable.parse, hheader]
  dsimp only
  rw [lineLoop_run (header_bounds p off tables) hlen hbytes startRegs _ (by omega) hprog hend]
  rfl

/-! ## Lookup -/

/-- A row with the numbers of `LineTable::parse` beside those of DWARF. -/
abbrev BothRow := LineRow (U32 × Nat) (U32 × Int)

section

variable (lossy u) (h : LineHeader)

/-- The files that a program adds to those of the header. -/
def definedFiles (is : List Insn) : List (List U8) :=
  is.filterMap fun i =>
    match i with
    | .defineFile name dir => some (join (u.compDir.getD []) (h.dirOf (BitVec.ofNat 64 dir)) (lossy name))
    | _ => none

/-- The file and line of a row, as `LineTable` has it. -/
def told (r : BothRow) : Option (List U8 × Int) :=
  (fileAt (5 ≤ h.version) (h.paths u) r.file.1.toNat).map (·, (r.line.1.toNat : Int))

/-- The file and line of a row of a program, as DWARF has it. -/
def truth (is : List Insn) (r : BothRow) : Option (List U8 × Int) :=
  (fileAt (5 ≤ h.version) (h.paths u ++ definedFiles lossy u h is) r.file.2).map (·, r.line.2)

end

/-- The table that is parsed says of every address what DWARF says, exactly if it does so of every row that
stands at no end of a sequence, and at every end the last row there says what DWARF says of that address. -/
theorem find_iff {sec : Sections} {lossy : List U8 → List U8} {u : Unit} {p : LineUnit} {off : Nat}
    {tables : List (List U8) × List (List U8 × U64)} {is : List Insn} {bss : List (List U8)}
    {seqs : List (Sequence BothRow)} (hwf : p.WellFormed)
    (htables : TableBytes sec lossy u (p.shape u) tables p.tables) (hlen : sec.line.length < 2 ^ 64)
    (hfound : Found p.bytes sec.line off) (hprogram : p.program = bss.flatten)
    (hbytes : List.Forall₂ (Insn.Bytes (p.header off tables)) is bss)
    (hrun : runInsns (words.and exact) (p.header off tables) (words.and exact).start is = seqs.flatMap Sequence.entries)
    (hseqs : WellSequenced LineRow.addr LineRow.stop seqs) :
    ∃ t, LineTable.parse sec lossy u off = some t ∧
      ((∀ pc, (t.find pc).map (fun x => (x.1, (x.2.toNat : Int))) =
          (lookup LineRow.addr seqs pc).bind (truth lossy u (p.header off tables) is)) ↔
        (∀ s ∈ seqs, ∀ r ∈ s.rows, (∀ t ∈ seqs, r.addr ≠ t.last.addr) →
          (s.rowAt LineRow.addr r.addr).bind (told u (p.header off tables)) =
            (s.rowAt LineRow.addr r.addr).bind (truth lossy u (p.header off tables) is)) ∧
        ∀ s ∈ seqs, (lastRow LineRow.addr LineRow.stop (seqs.flatMap Sequence.entries) s.last.addr).bind
            (told u (p.header off tables)) =
          (lookup LineRow.addr seqs s.last.addr).bind (truth lossy u (p.header off tables) is)) := by
  refine ⟨_, parse_eq hwf htables hlen hfound hprogram hbytes, ?_⟩
  have hwords : runInsns words (p.header off tables) startRegs is =
      (seqs.flatMap Sequence.entries).map (LineRow.map Prod.fst Prod.fst) := by
    rw [← hrun]
    exact (runInsns_map Prod.fst Prod.fst (fun _ => rfl) (fun _ => rfl)
      (fun _ _ => rfl) _ (words.and exact).start _).symm
  have hfind : ∀ pc, (LineTable.find ⟨(runInsns words (p.header off tables) startRegs is).mergeSort Row.le,
      (p.header off tables).paths u, 5 ≤ p.version⟩ pc).map (fun x => (x.1, (x.2.toNat : Int))) =
      (search LineRow.addr LineRow.stop (seqs.flatMap Sequence.entries) pc).bind (told u (p.header off tables)) := by
    intro pc
    rw [find_eq_search, hwords, search_map]
    show (Option.bind (Option.map _ (search LineRow.addr LineRow.stop (seqs.flatMap Sequence.entries) pc)) _).map _ = _
    cases search LineRow.addr LineRow.stop (seqs.flatMap Sequence.entries) pc with
    | none => rfl
    | some r =>
      rw [Option.map_some, Option.bind_some, Option.map_map]
      rfl
  simp only [hfind]
  exact search_lookup_iff hseqs _ _

/-! ## A unit of some sequences -/

/-- The rows of a sequence, each an address and by how much the line grows, and the address it ends at. -/
abbrev RowList := List (U64 × Fin 4) × U64

def rowInsns (seq : RowList) : List Insn :=
  seq.1.flatMap (fun r => [.setAddress r.1, .special r.2.val]) ++ [.setAddress seq.2, .endSequence]

/-- The bytes of the instructions, where the special opcodes begin at 1. -/
def rowBytes (seq : RowList) : List (List U8) :=
  seq.1.flatMap (fun r => [extendedBytes [9#8] 2#8 (leBytes 8 r.1), [BitVec.ofNat 8 (r.2.val + 1)]]) ++
    [extendedBytes [9#8] 2#8 (leBytes 8 seq.2), extendedBytes [1#8] 1#8 []]

/-- A unit of version 4 with the file `a`. -/
def rowUnit (seqs : List RowList) : LineUnit where
  format64 := false
  version := 4
  addrSize := 8#8
  segmentSize := 0#8
  minInst := 1#8
  maxOps := 1#8
  isStmt := 1#8
  lineBase := 0#8
  lineRange := 4#8
  stdLens := []
  tables := [0#8] ++ ([0x61#8, 0#8, 0#8, 0#8, 0#8] ++ [0#8])
  rest := []
  program := (seqs.flatMap rowBytes).flatten

def rowSections (seqs : List RowList) : Sections := { pairSections with line := (rowUnit seqs).bytes }

def rowTables : List (List U8) × List (List U8 × U64) := ([], [([0x61#8], 0#64)])

theorem forall₂_rowBytes (h : LineHeader) (hbase : h.opcodeBase = 1) (seq : RowList) :
    List.Forall₂ (Insn.Bytes h) (rowInsns seq) (rowBytes seq) := by
  have hspelled : ∀ b : U8, b.toNat < 128 → Spelled b.toNat [b] := fun b hb => ⟨.last hb, Nat.le_add_left 1 10⟩
  have haddr : ∀ a : U64, Insn.Bytes h (.setAddress a) (extendedBytes [9#8] 2#8 (leBytes 8 a)) := fun a =>
    .setAddress (.inl rfl) a.isLt ⟨by rw [length_leBytes]; exact hspelled 9#8 (by decide), by rw [length_leBytes]; decide⟩
  have hspecial : ∀ k : Fin 4, Insn.Bytes h (.special k.val) [BitVec.ofNat 8 (k.val + 1)] := fun k => by
    have hk : (BitVec.ofNat 8 (k.val + 1)).toNat = k.val + 1 := by
      revert k
      decide
    have hrow := @Insn.Bytes.special h (BitVec.ofNat 8 (k.val + 1)) (by rw [hbase, hk]; exact Nat.le_add_left 1 _)
    rwa [hbase, hk] at hrow
  have hend : Insn.Bytes h .endSequence (extendedBytes [1#8] 1#8 []) :=
    .endSequence ⟨hspelled 1#8 (by decide), by decide⟩
  obtain ⟨rows, stop⟩ := seq
  induction rows with
  | nil => exact .cons (haddr stop) (.cons hend .nil)
  | cons r rows ih => exact .cons (haddr r.1) (.cons (hspecial r.2) ih)

theorem forall₂_unitBytes (h : LineHeader) (hbase : h.opcodeBase = 1) (seqs : List RowList) :
    List.Forall₂ (Insn.Bytes h) (seqs.flatMap rowInsns) (seqs.flatMap rowBytes) := by
  induction seqs with
  | nil => exact .nil
  | cons seq seqs ih => exact rel_append (forall₂_rowBytes h hbase seq) ih

theorem tableBytes_row (seqs : List RowList) (u : Unit) :
    TableBytes (rowSections seqs) id u ((rowUnit seqs).shape u) rowTables (rowUnit seqs).tables := by
  have hspelled : Spelled 0 [0#8] := ⟨Uleb.last (b := 0#8) (by decide), by decide⟩
  have hfile : FileBytes ([0x61#8], 0) [0x61#8, 0#8, 0#8, 0#8, 0#8] :=
    ⟨[0#8], [0#8], [0#8], 0, 0, rfl, by decide, by decide, hspelled, hspelled, hspelled⟩
  show TableBytes _ id u _ (map id [], map (fun f => (id f.1, BitVec.ofNat 64 f.2)) [([0x61#8], 0)])
    (([] : List (List U8)).flatten ++ [0#8] ++ ([[0x61#8, 0#8, 0#8, 0#8, 0#8]].flatten ++ [0#8]))
  exact .old (show 4 < 5 by decide) .nil (.cons hfile .nil)

theorem found_rowUnit (seqs : List RowList) : Found (rowUnit seqs).bytes (rowSections seqs).line 0 :=
  ⟨[], [], (append_nil _).symm, rfl⟩

theorem wellFormed_rowUnit (seqs : List RowList) (hlen : (rowUnit seqs).body.length < 0xfffffff0) :
    (rowUnit seqs).WellFormed where
  version := show 2 ≤ 4 ∧ 4 ≤ 5 by decide
  lineRange := show 4#8 ≠ 0#8 by decide
  stdLens := show 0 + 1 < 2 ^ 8 by decide
  length := hlen

/-- A row of the file with the number 1. -/
def rowOf (a : U64) (line : U32) (stop : Bool) : BothRow := ⟨a, (1#32, 1), (line, (line.toNat : Int)), stop⟩

/-- Two sequences, the later one in front. -/
def twoLists : List RowList := [([(0x40#64, 1)], 0x48#64), ([(0x10#64, 0), (0x18#64, 2)], 0x20#64)]

def twoSeqs : List (Sequence BothRow) :=
  [⟨[rowOf 0x40#64 2#32 false], rowOf 0x48#64 2#32 true⟩,
    ⟨[rowOf 0x10#64 1#32 false, rowOf 0x18#64 3#32 false], rowOf 0x20#64 3#32 true⟩]

theorem wellSequenced_two : WellSequenced LineRow.addr LineRow.stop twoSeqs where
  rows := by decide
  last := by decide
  ascending := by decide
  disjoint := by
    refine pairwise_pair.mpr fun a ⟨hfirst, hsecond⟩ => ?_
    have hlow : 0x40#64 ≤ a := of_decide_eq_true (Bool.and_eq_true_iff.mp hfirst).1
    have hhigh : a < 0x20#64 := of_decide_eq_true (Bool.and_eq_true_iff.mp hsecond).2
    exact absurd (lt_of_le_of_lt hlow hhigh) (by decide)

theorem find_iff_two :
    ∃ t, LineTable.parse (rowSections twoLists) id (plainUnit 4) 0 = some t ∧
      ∀ pc, (t.find pc).map (fun x => (x.1, (x.2.toNat : Int))) = (lookup LineRow.addr twoSeqs pc).bind
        (truth id (plainUnit 4) ((rowUnit twoLists).header 0 rowTables) (twoLists.flatMap rowInsns)) := by
  have hrun : runInsns (words.and exact) ((rowUnit twoLists).header 0 rowTables) (words.and exact).start
      (twoLists.flatMap rowInsns) = twoSeqs.flatMap Sequence.entries := by decide
  obtain ⟨t, hparsed, hsays⟩ := find_iff (wellFormed_rowUnit twoLists (by decide)) (tableBytes_row _ (plainUnit 4))
    (by decide) (found_rowUnit _) rfl (forall₂_unitBytes _ rfl _) hrun wellSequenced_two
  exact ⟨t, hparsed, hsays.mpr ⟨by decide, by decide⟩⟩

/-- Rows at 0x10 and at 0x20, where the sequence ends. -/
def tailList : List RowList := [([(0x10#64, 0), (0x20#64, 0)], 0x20#64)]

def tailSeq : Sequence BothRow :=
  ⟨[rowOf 0x10#64 1#32 false, rowOf 0x20#64 1#32 false], rowOf 0x20#64 1#32 true⟩

theorem wellSequenced_tail : WellSequenced LineRow.addr LineRow.stop [tailSeq] where
  rows := by decide
  last := by decide
  ascending := by decide
  disjoint := pairwise_singleton _ _

/-- At the end of the one sequence, which no sequence covers, the row that stands there is found. -/
theorem row_behind_end :
    WellSequenced LineRow.addr LineRow.stop [tailSeq] ∧
      runInsns (words.and exact) ((rowUnit tailList).header 0 rowTables) (words.and exact).start
        (tailList.flatMap rowInsns) = [tailSeq].flatMap Sequence.entries ∧
      lookup LineRow.addr [tailSeq] 0x20#64 = none ∧
      ∃ t, LineTable.parse (rowSections tailList) id (plainUnit 4) 0 = some t ∧
        t.find 0x20#64 = some ([0x61#8], 1#32) := by
  refine ⟨wellSequenced_tail, rfl, rfl, _,
    parse_eq (wellFormed_rowUnit tailList (by decide)) (tableBytes_row _ _) (by decide) (found_rowUnit _) rfl
      (forall₂_unitBytes _ rfl _), ?_⟩
  rw [find_eq_search, search_eq_lastRow (b := 0x20#64) ⟨⟨0x20#64, 1#32, 1#32, true⟩, by decide, rfl⟩ (le_refl _) fun _ _ h => h]
  rfl

end Vock.Dwarf
