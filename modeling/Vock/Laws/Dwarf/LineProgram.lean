import Mathlib.Data.List.Forall2
import Vock.Dwarf.Line
import Vock.Laws.Dwarf.Reader

/-!
# Line-number programs

The instructions of a line-number program with their bytes, and the machine that runs them, over any numbers
for the registers `file` and `line`: those of DWARF, which have no bounds, or the 32-bit words of
`LineTable::parse`. The loop of `LineTable::parse` runs the machine over the words (`lineLoop_run`).
-/

namespace Vock.Dwarf

open Library List

variable {bs : List U8} {out : LineRegs U32 U32 × List Row}

/-! ## The machine -/

/-- An instruction; `other` is one that is of no consequence to addresses, files and lines. -/
inductive Insn where
  | special (adj : Nat)
  | copy
  | advancePc (n : Nat)
  | advanceLine (d : Int)
  | setFile (n : Nat)
  | constAddPc
  | fixedAdvancePc (n : Nat)
  | endSequence
  | setAddress (a : U64)
  | defineFile (name : List U8) (dir : Nat)
  | other

/-- The numbers of the registers `file` and `line`. -/
structure Numbers (F L : Type) where
  file : Nat → F
  line : Int → L
  advance : L → Int → L

/-- The numbers of DWARF. -/
def exact : Numbers Nat Int := ⟨id, id, (· + ·)⟩

/-- The numbers of `LineTable::parse`. -/
def words : Numbers U32 U32 :=
  ⟨BitVec.ofNat 32, BitVec.ofInt 32, fun l d => lineOfInt (l.setWidth 64 + BitVec.ofInt 64 d).toInt⟩

/-- Two kinds of numbers side by side. -/
def Numbers.and {F L F' L' : Type} (n : Numbers F L) (m : Numbers F' L') : Numbers (F × F') (L × L') :=
  ⟨fun v => (n.file v, m.file v), fun v => (n.line v, m.line v), fun l d => (n.advance l.1 d, m.advance l.2 d)⟩

section

variable {F L : Type} (n : Numbers F L) (h : LineHeader)

def Numbers.start : LineRegs F L := ⟨0#64, n.file 1, n.line 1⟩

/-- The address behind an operation advance. -/
def LineHeader.advance (h : LineHeader) (a : U64) (adj : Nat) : U64 := a + BitVec.ofNat 64 adj * h.minInst

/-- What an instruction makes of the registers, and the rows it appends. -/
def Insn.step (r : LineRegs F L) : Insn → LineRegs F L × List (LineRow F L)
  | .special adj =>
    let r : LineRegs F L :=
      ⟨h.advance r.addr (adj / h.lineRange), r.file, n.advance r.line (h.lineBase + (adj % h.lineRange : Nat))⟩
    (r, [r.row false])
  | .copy => (r, [r.row false])
  | .advancePc m => ({ r with addr := h.advance r.addr m }, [])
  | .advanceLine d => ({ r with line := n.advance r.line d }, [])
  | .setFile m => ({ r with file := n.file m }, [])
  | .constAddPc => ({ r with addr := h.advance r.addr ((255 - h.opcodeBase) / h.lineRange) }, [])
  | .fixedAdvancePc m => ({ r with addr := r.addr + BitVec.ofNat 64 m }, [])
  | .endSequence => (n.start, [r.row true])
  | .setAddress a => ({ r with addr := a }, [])
  | .defineFile _ _ => (r, [])
  | .other => (r, [])

/-- The rows of a program. -/
def runInsns : LineRegs F L → List Insn → List (LineRow F L)
  | _, [] => []
  | r, i :: is => (i.step n h r).2 ++ runInsns (i.step n h r).1 is

end

section

variable {F L F' L' : Type} {n : Numbers F L} {m : Numbers F' L'} (f : F → F') (g : L → L')

def LineRegs.map (r : LineRegs F L) : LineRegs F' L' := ⟨r.addr, f r.file, g r.line⟩

def LineRow.map (r : LineRow F L) : LineRow F' L' := ⟨r.addr, f r.file, g r.line, r.stop⟩

/-- Numbers that are the image of others make the rows that are the image of the rows of those. -/
theorem runInsns_map (hfile : ∀ v, f (n.file v) = m.file v) (hline : ∀ v, g (n.line v) = m.line v)
    (hadvance : ∀ l d, g (n.advance l d) = m.advance (g l) d) (h : LineHeader) (r : LineRegs F L) (is : List Insn) :
    (runInsns n h r is).map (LineRow.map f g) = runInsns m h (r.map f g) is := by
  have hstep : ∀ r i, ((Insn.step n h r i).1.map f g, (Insn.step n h r i).2.map (LineRow.map f g)) =
      Insn.step m h (r.map f g) i := by
    intro r i
    cases i <;>
      simp [Insn.step, Numbers.start, LineRegs.map, LineRegs.row, LineRow.map, hfile, hline, hadvance]
  induction is generalizing r with
  | nil => rfl
  | cons i is ih => rw [runInsns, runInsns, map_append, ih, ← hstep]

end

/-! ## The bytes -/

/-- A number in the code of seven bits a byte, short enough to be read. -/
def Spelled (v : Nat) (bs : List U8) : Prop := Uleb v bs ∧ bs.length ≤ 11

theorem reads_uleb16 {v : Nat} (h : Spelled v bs) (hlt : v < 2 ^ 16) : Reads uleb16 bs v := by
  have hread := (reads_uleb h.1 h.2).map fun v => v.toNat % 2 ^ 16
  rwa [toNat_word (by omega), Nat.mod_eq_of_lt hlt] at hread

/-- The bytes of an extended instruction: the length, the opcode and the operands. -/
def extendedBytes (ls : List U8) (sub : U8) (operands : List U8) : List U8 := 0#8 :: (ls ++ sub :: operands)

/-- The length of an extended instruction, spelled. -/
def LengthSpelled (ls operands : List U8) : Prop := Spelled (operands.length + 1) ls ∧ operands.length + 1 < 2 ^ 64

/-- The bytes of an instruction. A standard opcode is below the first special one. -/
inductive Insn.Bytes (h : LineHeader) : Insn → List U8 → Prop
  | special {op : U8} (special : h.opcodeBase ≤ op.toNat) : Bytes h (.special (op.toNat - h.opcodeBase)) [op]
  | copy (std : 1 < h.opcodeBase) : Bytes h .copy [1#8]
  | advancePc {v : Nat} {bs : List U8} (std : 2 < h.opcodeBase) (hv : Spelled v bs) : Bytes h (.advancePc v) (2#8 :: bs)
  | advanceLine {d : Int} {bs : List U8} (std : 3 < h.opcodeBase) (hd : Sleb d bs) (len : bs.length ≤ 11) :
      Bytes h (.advanceLine d) (3#8 :: bs)
  | setFile {v : Nat} {bs : List U8} (std : 4 < h.opcodeBase) (hv : Spelled v bs) : Bytes h (.setFile v) (4#8 :: bs)
  | setColumn {v : Nat} {bs : List U8} (std : 5 < h.opcodeBase) (hv : Spelled v bs) : Bytes h .other (5#8 :: bs)
  | negateStmt (std : 6 < h.opcodeBase) : Bytes h .other [6#8]
  | setBasicBlock (std : 7 < h.opcodeBase) : Bytes h .other [7#8]
  | constAddPc (std : 8 < h.opcodeBase) : Bytes h .constAddPc [8#8]
  | fixedAdvancePc {v : Nat} (std : 9 < h.opcodeBase) (hv : v < 2 ^ 16) :
      Bytes h (.fixedAdvancePc v) (9#8 :: leBytes 2 (BitVec.ofNat 64 v))
  | setPrologueEnd (std : 10 < h.opcodeBase) : Bytes h .other [10#8]
  | setEpilogueBegin (std : 11 < h.opcodeBase) : Bytes h .other [11#8]
  | setIsa {v : Nat} {bs : List U8} (std : 12 < h.opcodeBase) (hv : Spelled v bs) : Bytes h .other (12#8 :: bs)
  | standard {op : U8} {vs : List Nat} {bss : List (List U8)} (unknown : 13 ≤ op.toNat) (std : op.toNat < h.opcodeBase)
      (args : List.Forall₂ Spelled vs bss) (count : vs.length = (h.stdLens[op.toNat]?.getD 0#8).toNat) :
      Bytes h .other (op :: bss.flatten)
  | endSequence {ls : List U8} (len : LengthSpelled ls []) : Bytes h .endSequence (extendedBytes ls 1#8 [])
  | setAddress {ls : List U8} {size : Nat} {a : U64} (known : AddrSize size) (fits : a.toNat < 2 ^ (8 * size))
      (len : LengthSpelled ls (leBytes size a)) : Bytes h (.setAddress a) (extendedBytes ls 2#8 (leBytes size a))
  | defineFile {ls name ds times sizes : List U8} {dir time size : Nat} (old : h.version ≤ 4) (hname : 0#8 ∉ name)
      (hdir : Spelled dir ds) (htime : Spelled time times) (hsize : Spelled size sizes)
      (len : LengthSpelled ls (name ++ 0#8 :: (ds ++ times ++ sizes))) :
      Bytes h (.defineFile name dir) (extendedBytes ls 3#8 (name ++ 0#8 :: (ds ++ times ++ sizes)))
  | extended {ls operands : List U8} {sub : U8} (known : sub ≠ 1#8 ∧ sub ≠ 2#8 ∧ (h.version ≤ 4 → sub ≠ 3#8))
      (len : LengthSpelled ls operands) : Bytes h .other (extendedBytes ls sub operands)

theorem Insn.Bytes.length_pos {h : LineHeader} {i : Insn} (hbytes : i.Bytes h bs) : 0 < bs.length := by
  cases hbytes <;> exact Nat.succ_pos _

/-! ## Reading an instruction -/

theorem reads_byte (b : U8) : Reads (le 1) [b] (b.setWidth 64) := by
  have hle : leBytes 1 (b.setWidth 64) = [b] := by
    revert b
    decide +kernel
  rw [← hle]
  refine reads_le ?_
  exact b.isLt

theorem toNat_byte (b : U8) : (b.setWidth 64 : U64).toNat = b.toNat := by
  rw [BitVec.toNat_setWidth, Nat.mod_eq_of_lt (Nat.lt_of_lt_of_le b.isLt (by decide))]

section

variable {h : LineHeader} {data : List U8} {pos : Nat}

theorem runs_standard (r : LineRegs U32 U32) (op : U8)
    (hstd : op.toNat < h.opcodeBase) (hfound : Found (op :: bs) data pos)
    (hrun : Runs (standardOp h r op.toNat) data (pos + 1) out (pos + (op :: bs).length)) :
    Runs (lineOp h r) data pos out (pos + (op :: bs).length) := by
  refine ((reads_byte op).runs (Found.left hfound)).bind ?_
  rw [toNat_byte, if_neg (by omega)]
  exact hrun

/-- A standard instruction is read off its operands. -/
theorem runs_standard_of_reads (r : LineRegs U32 U32) {op : U8}
    (hstd : op.toNat < h.opcodeBase) (hread : Reads (standardOp h r op.toNat) bs out)
    (hfound : Found (op :: bs) data pos) : Runs (lineOp h r) data pos out (pos + (op :: bs).length) := by
  refine runs_standard r op hstd hfound ?_
  have hrest : Found bs data (pos + 1) := Found.right (s := [op]) hfound
  have hrun := hread.runs hrest
  rwa [Nat.add_assoc, Nat.add_comm 1] at hrun

/-- An extended instruction leads behind its length. -/
theorem runs_extended (r : LineRegs U32 U32) {ls operands : List U8} {sub : U8}
    (hbase : 0 < h.opcodeBase) (hlen : LengthSpelled ls operands) (hdata : data.length < 2 ^ 64)
    (hfound : Found (extendedBytes ls sub operands) data pos)
    (hnext : ∃ mid, Runs (extendedEffect r (sub.setWidth 64) operands.length) data (pos + 1 + ls.length + 1) out mid) :
    Runs (lineOp h r) data pos out (pos + (extendedBytes ls sub operands).length) := by
  refine runs_standard r 0#8 hbase hfound ?_
  have hls : Found (ls ++ ([sub] ++ operands)) data (pos + 1) := Found.right (s := [0#8]) hfound
  have hin := hls.le_length
  simp only [length_append, length_singleton] at hin
  have hvalue : (BitVec.ofNat 64 (operands.length + 1)).toNat = operands.length + 1 := by
    rw [BitVec.toNat_ofNat, Nat.mod_eq_of_lt hlen.2]
  refine ((reads_uleb hlen.1.1 hlen.1.2).runs hls.left).bind ((runs_pos _ _).bind ?_)
  refine ((reads_byte sub).runs hls.right.left).bind ?_
  obtain ⟨mid, hnext⟩ := hnext
  rw [hvalue]
  refine hnext.bind ?_
  rw [if_neg (by omega)]
  have hend : pos + 1 + ls.length + (operands.length + 1) = pos + (extendedBytes ls sub operands).length := by
    simp only [extendedBytes, length_cons, length_append]
    omega
  rw [hend]
  exact (runs_seek _ _ _).bind (runs_pure _ _ _)

/-- The line of a special instruction is the sum, which is no `i64` overflow. -/
theorem lineOfInt_special (l : U32) {d : Int} (hlo : -(2 ^ 32) ≤ d) (hhi : d < 2 ^ 32) :
    lineOfInt (l.toNat + d) = words.advance l d := by
  have htoInt : (l.setWidth 64 + BitVec.ofInt 64 d).toInt = l.toNat + d := by
    rw [BitVec.toInt_add, BitVec.toInt_ofInt, BitVec.toInt_setWidth]
    simp only [Int.bmod_def]
    omega
  show _ = lineOfInt (l.setWidth 64 + BitVec.ofInt 64 d).toInt
  rw [htoInt]

theorem standardOp_unknown (h : LineHeader) (r : LineRegs U32 U32) {op : Nat} (hop : 13 ≤ op) :
    standardOp h r op = (fun _ => (r, [])) <$> Reader.times uleb (h.stdLens[op]?.getD 0#8).toNat := by
  obtain ⟨k, rfl⟩ : ∃ k, op = k + 13 := ⟨op - 13, by omega⟩
  rfl

/-- The bounds of the numbers of a header, which are bytes. -/
structure LineHeader.Bounds (h : LineHeader) : Prop where
  opcodeBase : 0 < h.opcodeBase
  lineRange : h.lineRange < 2 ^ 8
  lineBase : -(2 ^ 7) ≤ h.lineBase ∧ h.lineBase < 2 ^ 7

/-- An instruction is read off its bytes for its step over the words. -/
theorem runs_lineOp (hbounds : h.Bounds) (r : LineRegs U32 U32) {i : Insn} (hbytes : i.Bytes h bs)
    (hdata : data.length < 2 ^ 64) (hfound : Found bs data pos) :
    Runs (lineOp h r) data pos (i.step words h r) (pos + bs.length) := by
  cases hbytes with
  | @special op hspecial =>
    refine ((reads_byte op).runs hfound).bind ?_
    rw [toNat_byte, if_pos hspecial]
    have hmod : (op.toNat - h.opcodeBase) % h.lineRange ≤ op.toNat := Nat.le_trans (Nat.mod_le _ _) (Nat.sub_le _ _)
    obtain ⟨hlo, hhi⟩ := hbounds.lineBase
    have hline := lineOfInt_special r.line (d := h.lineBase + ((op.toNat - h.opcodeBase) % h.lineRange : Nat))
      (by omega) (by omega)
    rw [← Int.add_assoc] at hline
    dsimp only
    rw [hline]
    rfl
  | copy std | negateStmt std | setBasicBlock std | constAddPc std | setPrologueEnd std | setEpilogueBegin std =>
    exact runs_standard_of_reads r std (reads_pure _) hfound
  | advancePc std hv | setColumn std hv | setIsa std hv =>
    exact runs_standard_of_reads r std ((reads_uleb hv.1 hv.2).map _) hfound
  | advanceLine std hd len => exact runs_standard_of_reads r std ((reads_sleb hd len).map _) hfound
  | @setFile v bs std hv =>
    have hread := (reads_uleb hv.1 hv.2).map fun n => ({ r with file := n.setWidth 32 }, ([] : List Row))
    rw [BitVec.setWidth_ofNat_of_le (by decide)] at hread
    exact runs_standard_of_reads r std hread hfound
  | @fixedAdvancePc v std hv =>
    have hread := reads_le (n := 2) (v := BitVec.ofNat 64 v) (by rw [BitVec.toNat_ofNat]; omega)
    exact runs_standard_of_reads r std (hread.map _) hfound
  | @standard op vs bss unknown std args count =>
    refine runs_standard_of_reads r std ?_ hfound
    have hargs : Forall₂ (fun b s => Reads uleb s b) (vs.map (BitVec.ofNat 64)) bss := by
      rw [forall₂_map_left_iff]
      exact args.imp fun v s hv => reads_uleb hv.1 hv.2
    have hread := (Reads.times hargs).map fun _ => (r, ([] : List Row))
    rwa [length_map, count, ← standardOp_unknown h r unknown] at hread
  | endSequence len => exact runs_extended r hbounds.opcodeBase len hdata hfound ⟨_, runs_pure _ _ _⟩
  | @setAddress ls size a known fits len =>
    refine runs_extended r hbounds.opcodeBase len hdata hfound ⟨pos + 1 + ls.length + 1 + size, ?_⟩
    have hoperands : Found (leBytes size a) data (pos + 1 + ls.length + 1) := by
      have hfound' : Found ([0#8] ++ (ls ++ ([2#8] ++ leBytes size a))) data pos := hfound
      exact hfound'.right.right.right
    have hsize : size % 2 ^ 8 = size := by
      rcases known with rfl | rfl | rfl | rfl <;> rfl
    have hrun := ((reads_addr known fits).map fun a => ({ r with addr := a }, ([] : List Row))).runs hoperands
    rw [length_leBytes] at hrun
    rw [length_leBytes, extendedEffect, if_neg (by decide), hsize]
    exact hrun
  | defineFile old hname hdir htime hsize len =>
    exact runs_extended r hbounds.opcodeBase len hdata hfound ⟨_, runs_pure _ _ _⟩
  | @extended ls operands sub known len =>
    refine runs_extended r hbounds.opcodeBase len hdata hfound ⟨pos + 1 + ls.length + 1, ?_⟩
    have hne : ∀ b : U8, sub ≠ b → sub.setWidth 64 ≠ (b.setWidth 64 : U64) := by
      intro b hb heq
      have := congrArg BitVec.toNat heq
      exact hb (BitVec.eq_of_toNat_eq this)
    have hone : ¬ sub.setWidth 64 = 1#64 := hne 1#8 known.1
    have htwo : ¬ sub.setWidth 64 = 2#64 := hne 2#8 known.2.1
    rw [extendedEffect, if_neg hone, if_neg htwo]
    exact runs_pure _ _ _

/-- The loop runs the machine over a program. -/
theorem lineLoop_run (hbounds : h.Bounds) (hdata : data.length < 2 ^ 64) {is : List Insn} {bss : List (List U8)}
    (hbytes : List.Forall₂ (Insn.Bytes h) is bss) (r : LineRegs U32 U32) (fuel : Nat) (hfuel : is.length < fuel)
    (hfound : Found bss.flatten data pos) (hend : h.endOff = pos + bss.flatten.length) :
    lineLoop h fuel r ⟨data, pos⟩ = some (runInsns words h r is) := by
  induction hbytes generalizing r fuel pos with
  | nil =>
    obtain ⟨fuel, rfl⟩ : ∃ k, fuel = k + 1 := ⟨fuel - 1, by omega⟩
    rw [lineLoop, if_neg (by rw [hend]; exact Nat.lt_irrefl _)]
    rfl
  | @cons i bs is bss hi _ ih =>
    obtain ⟨fuel, rfl⟩ : ∃ k, fuel = k + 1 := ⟨fuel - 1, by omega⟩
    rw [length_cons] at hfuel
    rw [flatten_cons] at hfound hend
    rw [length_append] at hend
    have hpos := hi.length_pos
    have hop : lineOp h r ⟨data, pos⟩ = _ := runs_lineOp hbounds r hi hdata hfound.left
    rw [lineLoop, if_pos (by dsimp only; omega), hop]
    dsimp only
    rw [ih _ fuel (by omega) hfound.right (by omega)]
    rfl

end

end Vock.Dwarf
