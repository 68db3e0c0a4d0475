import Vock.Dwarf.Reader

/-!
# Units

The headers and root attributes of compilation units, from `vock/src/dwarf/unit.rs`, with the
abbreviation tables of `vock/src/dwarf/abbrev.rs` and what `vock/src/dwarf/mod.rs` makes of attribute
values: strings, addresses and ranges. What is cached is left to the module on the symbolizer.
-/

namespace Vock.Dwarf

open Library

/-- `Sections`. -/
structure Sections where
  info : List U8
  abbrevs : List U8
  str : List U8
  line : List U8
  lineStr : List U8
  ranges : List U8
  rnglists : List U8
  addr : List U8
  strOffsets : List U8

/-! ## Abbreviations -/

/-- An attribute of an abbreviation: its name, its form and its implicit constant. -/
abbrev AttrSpec := Nat × Nat × U64

/-- `Abbrev`. -/
structure Abbrev where
  tag : Nat
  children : Bool
  attrs : List AttrSpec
  deriving Repr, DecidableEq

/-- `Abbrevs`: the abbreviations by code, the latest in front. -/
structure Abbrevs where
  entries : List (Nat × Abbrev)
  deriving Repr, DecidableEq

/-- `c.uleb()? as u16`. -/
def uleb16 : Read Nat := (fun v => v.toNat % 2 ^ 16) <$> uleb

/-- The implicit constant of an attribute, where its form is `DW_FORM_implicit_const`. -/
def readImplicit (form : Nat) : Read U64 := if form = 0x21 then sleb else pure 0#64

/-- The attributes of one abbreviation, up to the pair of zeros. -/
def readAttrSpecs : Nat → Read (List AttrSpec)
  | 0 => failure
  | fuel + 1 => do
    let attr ← uleb16
    let form ← uleb16
    let implicit ← readImplicit form
    if attr = 0 ∧ form = 0 then pure []
    else ((attr, form, implicit) :: ·) <$> readAttrSpecs fuel

/-- The rounds of `Abbrevs::parse`. -/
def readAbbrevs : Nat → Abbrevs → Read Abbrevs
  | 0, _ => failure
  | fuel + 1, known => do
    let code ← uleb
    if code = 0#64 then pure known
    else
      let tag ← uleb16
      let children ← le 1
      let attrs ← readAttrSpecs fuel
      if 1 <<< 20 < code.toNat then failure
      else readAbbrevs fuel ⟨(code.toNat, ⟨tag, children ≠ 0#64, attrs⟩) :: known.entries⟩

/-- `Abbrevs::parse`. Each round takes a byte at least. -/
def Abbrevs.parse (sec : List U8) (off : Nat) : Option Abbrevs :=
  (readAbbrevs (sec.length + 1) ⟨[]⟩ ⟨sec, off⟩).map Prod.fst

/-- `Abbrevs::get`. -/
def Abbrevs.get (a : Abbrevs) (code : U64) : Option Abbrev := a.entries.lookup code.toNat

/-! ## Headers -/

/-- `Header`. -/
structure Header where
  shape : UnitShape
  endOff : Nat
  dieOff : Nat
  abbrevOff : Nat
  unitType : Nat
  deriving Repr, DecidableEq

/-- What a unit of version 5 and its type has behind the offset of its abbreviations. -/
def skipTypeFields (format64 : Bool) (unitType : Nat) : Read PUnit :=
  if unitType = 0x02 ∨ unitType = 0x06 then do
    let _ ← le 8
    let _ ← off format64
    pure ⟨⟩
  else if unitType = 0x04 ∨ unitType = 0x05 then do
    let _ ← le 8
    pure ⟨⟩
  else pure ⟨⟩

/-- The unit type, the size of an address and the offset of the abbreviations. -/
def readHeaderFields (version : Nat) (format64 : Bool) : Read (Nat × Nat × Nat) :=
  if 5 ≤ version then do
    let unitType ← le 1
    let addrSize ← le 1
    let abbrevOff ← off format64
    skipTypeFields format64 unitType.toNat
    pure (unitType.toNat, addrSize.toNat, abbrevOff)
  else do
    let abbrevOff ← off format64
    let addrSize ← le 1
    pure (0x01, addrSize.toNat, abbrevOff)

def readHeader (length unitOff : Nat) : Read Header := do
  let initial ← initialLength
  let start ← Reader.pos
  if length < start + initial.1 then failure
  else
    let version ← le 2
    if version.toNat < 2 ∨ 5 < version.toNat then failure
    else
      let fields ← readHeaderFields version.toNat initial.2
      let dieOff ← Reader.pos
      pure ⟨⟨unitOff, version.toNat, initial.2, fields.2.1⟩, start + initial.1, dieOff, fields.2.2, fields.1⟩

/-- `parse_header`. -/
def parseHeader (info : List U8) (unitOff : Nat) : Option Header :=
  (readHeader info.length unitOff ⟨info, unitOff⟩).map Prod.fst

/-! ## Attributes -/

/-- The values of the attributes of an abbreviation. -/
def readAttrs (u : UnitShape) : List AttrSpec → Read (List (Nat × Val))
  | [] => pure []
  | (attr, form, implicit) :: specs => do
    let v ← readForm form u implicit
    ((attr, v) :: ·) <$> readAttrs u specs

/-- The value of an attribute; the last one counts. -/
def lastAttr (attr : Nat) (vals : List (Nat × Val)) : Option Val := (vals.filter (·.1 = attr)).getLast?.map Prod.snd

def dwAtName : Nat := 0x03
def dwAtStmtList : Nat := 0x10
def dwAtLowPc : Nat := 0x11
def dwAtHighPc : Nat := 0x12
def dwAtLanguage : Nat := 0x13
def dwAtCompDir : Nat := 0x1b
def dwAtAbstractOrigin : Nat := 0x31
def dwAtSpecification : Nat := 0x47
def dwAtRanges : Nat := 0x55
def dwAtStrOffsetsBase : Nat := 0x72
def dwAtAddrBase : Nat := 0x73
def dwAtRnglistsBase : Nat := 0x74

def dwTagClassType : Nat := 0x02
def dwTagEnumerationType : Nat := 0x04
def dwTagCompileUnit : Nat := 0x11
def dwTagStructureType : Nat := 0x13
def dwTagUnionType : Nat := 0x17
def dwTagInlinedSubroutine : Nat := 0x1d
def dwTagSubprogram : Nat := 0x2e
def dwTagNamespace : Nat := 0x39
def dwTagPartialUnit : Nat := 0x3c

/-- `Unit`, without its line table and function table. -/
structure Unit where
  shape : UnitShape
  endOff : Nat
  dieOff : Nat
  abbrevs : Abbrevs
  lang : Nat
  compDir : Option (List U8)
  stmtList : Option Nat
  lowPc : Option Val
  highPc : Option Val
  ranges : Option Val
  strOffsetsBase : Nat
  addrBase : Nat
  rnglistsBase : Nat
  deriving Repr, DecidableEq

/-- A string-class value. -/
def stringOf (sec : Sections) (format64 : Bool) (strOffsetsBase : Nat) : Val → Option (List U8)
  | .str s => some s
  | .strp o => cstrAt sec.str o
  | .lineStrp o => cstrAt sec.lineStr o
  | .strx i =>
    match off format64 ⟨sec.strOffsets, strOffsetsBase + i.toNat * offSize format64⟩ with
    | none => none
    | some (o, _) => cstrAt sec.str o
  | _ => none

/-- `Symbolizer::string`. -/
def Unit.string (sec : Sections) (u : Unit) (v : Val) : Option (List U8) :=
  stringOf sec u.shape.format64 u.strOffsetsBase v

/-- The root attributes of a unit. `lossy` is `String::from_utf8_lossy`. -/
def Unit.ofRoot (sec : Sections) (lossy : List U8 → List U8) (h : Header) (abbrevs : Abbrevs)
    (vals : List (Nat × Val)) : Unit :=
  let number (attr default : Nat) := ((lastAttr attr vals).map fun v => (v.asU64.map BitVec.toNat).getD default).getD default
  { shape := h.shape
    endOff := h.endOff
    dieOff := h.dieOff
    abbrevs := abbrevs
    lang := number dwAtLanguage 0 % 2 ^ 16
    compDir := (lastAttr dwAtCompDir vals).bind fun v =>
      (stringOf sec h.shape.format64 (number dwAtStrOffsetsBase 8) v).map lossy
    stmtList := (lastAttr dwAtStmtList vals).bind fun v => v.asU64.map BitVec.toNat
    lowPc := lastAttr dwAtLowPc vals
    highPc := lastAttr dwAtHighPc vals
    ranges := lastAttr dwAtRanges vals
    strOffsetsBase := number dwAtStrOffsetsBase 8
    addrBase := number dwAtAddrBase 8
    rnglistsBase := number dwAtRnglistsBase 0 }

/-- `Unit::parse`. -/
def Unit.parse (sec : Sections) (lossy : List U8 → List U8) (unitOff : Nat) : Option Unit := do
  let h ← parseHeader sec.info unitOff
  if h.unitType ≠ 0x01 ∧ h.unitType ≠ 0x03 ∧ h.unitType ≠ 0x04 ∧ h.unitType ≠ 0x05 then none
  else
    let abbrevs ← Abbrevs.parse sec.abbrevs h.abbrevOff
    let code ← uleb ⟨sec.info, h.dieOff⟩
    let ab ← abbrevs.get code.1
    if ab.tag ≠ dwTagCompileUnit ∧ ab.tag ≠ dwTagPartialUnit then none
    else
      let vals ← readAttrs h.shape ab.attrs code.2
      some (Unit.ofRoot sec lossy h abbrevs vals.1)

/-! ## Ranges -/

/-- `Symbolizer::address`: an address, or an index into the address table. -/
def Unit.address (sec : Sections) (u : Unit) : Val → Option U64
  | .addr a => some a
  | .addrx i => (addr u.shape.addrSize ⟨sec.addr, u.addrBase + i.toNat * u.shape.addrSize⟩).map Prod.fst
  | _ => none

/-- A pair of addresses, or of offsets. -/
def addrPair (size : Nat) : Read (U64 × U64) := do
  let b ← addr size
  (b, ·) <$> addr size

/-- The loop of `range_list` before version 5. -/
def rangesLoop (addrSize : Nat) : Nat → Cur → U64 → List (U64 × U64)
  | 0, _, _ => []
  | fuel + 1, c, base =>
    match addrPair addrSize c with
    | none => []
    | some ((b, e), c) =>
      if b = 0#64 ∧ e = 0#64 then []
      else if b = BitVec.ofNat 64 (2 ^ (8 * addrSize) - 1) then rangesLoop addrSize fuel c e
      else (if b < e then [(base + b, base + e)] else []) ++ rangesLoop addrSize fuel c base

/-- What an entry of a range list does from version 5 on. -/
inductive RngEntry where
  | stop
  | base (b : U64)
  | pair (s e : Option U64)

/-- An entry of a range list, by its kind. -/
def readRngEntry (sec : Sections) (u : Unit) (base kind : U64) : Read RngEntry :=
  let addrx (i : U64) := u.address sec (.addrx i)
  match kind.toNat with
  | 0 => pure .stop
  | 1 => (fun i => .base ((addrx i).getD 0#64)) <$> uleb
  | 2 => do
    let s ← uleb
    (fun e => .pair (addrx s) (addrx e)) <$> uleb
  | 3 => do
    let s ← uleb
    (fun l => .pair (addrx s) ((addrx s).map (· + l))) <$> uleb
  | 4 => do
    let s ← uleb
    (fun e => .pair (some (base + s)) (some (base + e))) <$> uleb
  | 5 => .base <$> addr u.shape.addrSize
  | 6 => do
    let s ← addr u.shape.addrSize
    (fun e => .pair (some s) (some e)) <$> addr u.shape.addrSize
  | 7 => do
    let s ← addr u.shape.addrSize
    (fun l => .pair (some s) (some (s + l))) <$> uleb
  | _ => pure .stop

/-- The range of a pair, where it is not empty. -/
def pairRange : Option U64 → Option U64 → List (U64 × U64)
  | some s, some e => if s < e then [(s, e)] else []
  | _, _ => []

/-- The loop of `range_list` from version 5 on. -/
def rnglistsLoop (sec : Sections) (u : Unit) : Nat → Cur → U64 → List (U64 × U64)
  | 0, _, _ => []
  | fuel + 1, c, base =>
    match (le 1 >>= readRngEntry sec u base) c with
    | none => []
    | some (.stop, _) => []
    | some (.base b, c) => rnglistsLoop sec u fuel c b
    | some (.pair s e, c) => pairRange s e ++ rnglistsLoop sec u fuel c base

/-- Where a range list of version 5 begins. -/
def rnglistOff (sec : Sections) (u : Unit) : Val → Option Nat
  | .secOff o => some o
  | .rnglistx i =>
    match off u.shape.format64 ⟨sec.rnglists, u.rnglistsBase + i.toNat * offSize u.shape.format64 % 2 ^ 64⟩ with
    | none => none
    | some (rel, _) => some ((u.rnglistsBase + rel) % 2 ^ 64)
  | _ => none

/-- `range_list`. -/
def Unit.rangeList (sec : Sections) (u : Unit) (v : Val) (base : U64) : List (U64 × U64) :=
  if u.shape.version < 5 then
    match v with
    | .secOff o => rangesLoop u.shape.addrSize (sec.ranges.length + 1) ⟨sec.ranges, o⟩ base
    | _ => []
  else
    match rnglistOff sec u v with
    | none => []
    | some o => rnglistsLoop sec u (sec.rnglists.length + 1) ⟨sec.rnglists, o⟩ base

/-- The base address of a unit. -/
def Unit.base (sec : Sections) (u : Unit) : U64 := (u.lowPc.bind (u.address sec)).getD 0#64

/-- The upper end that `DW_AT_high_pc` gives. -/
def Unit.highPcFrom (sec : Sections) (u : Unit) (lo : U64) : Val → Option U64
  | .addr a => u.address sec (.addr a)
  | .addrx i => u.address sec (.addrx i)
  | .udata n => some (lo + n)
  | .sdata n => some (lo + n)
  | _ => none

/-- `die_ranges`. -/
def Unit.dieRanges (sec : Sections) (u : Unit) (lo hi ranges : Option Val) : List (U64 × U64) :=
  match ranges with
  | some r => u.rangeList sec r (u.base sec)
  | none =>
    match lo.bind (u.address sec) with
    | none => []
    | some lo => pairRange (some lo) (hi.bind (u.highPcFrom sec lo))

/-- `address_ranges`. -/
def Unit.addressRanges (sec : Sections) (u : Unit) : List (U64 × U64) := u.dieRanges sec u.lowPc u.highPc u.ranges

end Vock.Dwarf
