import Vock.Dwarf.Unit

/-!
# Function tables

The subprograms and inlined subroutines of a unit, from `vock/src/dwarf/unit.rs`: the one pass over the
entries of the unit that keeps the stacks of the scopes and of the inlined subroutines, and the search for the
innermost function at an address.
-/

namespace Vock.Dwarf

open Library

/-- `qualifies`: the languages whose functions live in namespaces. -/
def qualifies (lang : Nat) : Bool := [0x04, 0x19, 0x1a, 0x1c, 0x21, 0x2b].contains lang

/-- `Name`. -/
inductive Name where
  | none
  | direct (s : List U8)
  | die (off : Nat)
  deriving Repr, DecidableEq

/-- `Inl`. -/
structure Inl where
  start : U64
  stop : U64
  depth : Nat
  name : Name
  deriving Repr, DecidableEq

/-- `Sub`. -/
structure Sub where
  name : Name
  inlines : List Inl
  deriving Repr, DecidableEq

/-- `FuncTable`. The index of a range is an `u32`. -/
structure FuncTable where
  ranges : List (U64 × U64 × Nat)
  subs : List Sub
  names : List (Nat × List U8)

/-! ## Finding a function -/

/-- The inlined subroutine at an address with the greatest depth, the first of them. -/
def innermost (pc : U64) (inlines : List Inl) : Option Inl :=
  inlines.foldl (fun inner i =>
    if i.start ≤ pc ∧ pc < i.stop ∧ inner.all (·.depth < i.depth) then some i else inner) none

/-- `FuncTable::find`. -/
def FuncTable.find (ft : FuncTable) (pc : U64) : Option Name :=
  let i := (ft.ranges.takeWhile (·.1 ≤ pc)).length
  let best := (((ft.ranges.take i).drop (i - 4)).reverse.find? fun r => r.1 ≤ pc ∧ pc < r.2.1).bind fun r =>
    ft.subs[r.2.2]?
  best.map fun sub => ((innermost pc sub.inlines).map Inl.name).getD sub.name

/-! ## The walk -/

/-- What the walk has collected, and its stacks with the last element in front. -/
structure WalkState where
  ranges : List (U64 × U64 × Nat)
  subs : List Sub
  names : List (Nat × List U8)
  depth : Int
  scopes : List (Int × List U8)
  curSub : Option (Nat × Int)
  inlStack : List Int
  deriving Repr, DecidableEq

/-- The names of the scopes, the outermost in front. -/
def WalkState.path (st : WalkState) : List (List U8) := (st.scopes.map Prod.snd).reverse

/-- A null entry: the entries of the level before go on, or the walk is over. -/
def WalkState.close (st : WalkState) : Option WalkState :=
  let depth := st.depth - 1
  if depth ≤ 0 then none
  else
    some { st with
      depth := depth
      scopes := st.scopes.dropWhile fun s => depth ≤ s.1
      inlStack := st.inlStack.dropWhile fun d => depth ≤ d
      curSub := st.curSub.filter fun s => s.2 < depth }

/-- A name behind the names of its scopes, the outermost in front. -/
def qualified (scopes : List (List U8)) (s : List U8) : List U8 := scopes.flatMap (· ++ utf8 "::") ++ s

section

variable (sec : Sections) (lossy : List U8 → List U8) (u : Unit)

/-- The own name of an entry. -/
def plainName (vals : List (Nat × Val)) : Option (List U8) := ((lastAttr dwAtName vals).bind (u.string sec)).map lossy

/-- The name of an entry among its scopes. -/
def directName (scopes : List (List U8)) (vals : List (Nat × Val)) : Option (List U8) :=
  (plainName sec lossy u vals).map fun s => if qualifies u.lang ∧ scopes ≠ [] then qualified scopes s else s

/-- The name of an entry, or the entry that has it. -/
def resolvedName (direct : Option (List U8)) (origin spec : Option Val) : Name :=
  match direct, origin, spec with
  | some d, _, _ => .direct d
  | none, some (.ref o), _ => .die o
  | none, none, some (.ref o) => .die o
  | _, _, _ => .none

/-- The name of an entry by its attributes. -/
def entryName (scopes : List (List U8)) (vals : List (Nat × Val)) : Name :=
  resolvedName (directName sec lossy u scopes vals) (lastAttr dwAtAbstractOrigin vals) (lastAttr dwAtSpecification vals)

/-- The ranges of an entry by its attributes. -/
def entryRanges (vals : List (Nat × Val)) : List (U64 × U64) :=
  u.dieRanges sec (lastAttr dwAtLowPc vals) (lastAttr dwAtHighPc vals) (lastAttr dwAtRanges vals)

/-- The tags whose names qualify those of their members. -/
def scopeTags : List Nat :=
  [dwTagNamespace, dwTagStructureType, dwTagClassType, dwTagUnionType, dwTagEnumerationType]

/-- A subprogram: its name is recorded, and its ranges if it has code. -/
def WalkState.subprogram (st : WalkState) (dieOff : Nat) (children : Bool) (vals : List (Nat × Val)) : WalkState :=
  let names := (directName sec lossy u st.path vals).elim st.names fun d => (dieOff, d) :: st.names
  let rs := entryRanges sec u vals
  if rs = [] then { st with names := names }
  else
    { st with
      names := names
      subs := st.subs ++ [⟨entryName sec lossy u st.path vals, []⟩]
      ranges := st.ranges ++ rs.map fun r => (r.1, r.2, st.subs.length % 2 ^ 32)
      curSub := if children then some (st.subs.length, st.depth) else st.curSub }

/-- An inlined subroutine: its ranges go to the subprogram it is in. -/
def WalkState.inlined (st : WalkState) (children : Bool) (vals : List (Nat × Val)) : WalkState :=
  let depth := (st.inlStack.length % 2 ^ 16 + 1) % 2 ^ 16
  let inls := (entryRanges sec u vals).map fun r => Inl.mk r.1 r.2 depth (entryName sec lossy u st.path vals)
  { st with
    subs := st.curSub.elim st.subs fun cur =>
      st.subs.modify cur.1 fun sub => { sub with inlines := sub.inlines ++ inls }
    inlStack := if children then st.depth :: st.inlStack else st.inlStack }

/-- A namespace or a type: it is a scope of its members. -/
def WalkState.scope (st : WalkState) (children : Bool) (vals : List (Nat × Val)) : WalkState :=
  if qualifies u.lang ∧ children then
    { st with scopes := (st.depth, (plainName sec lossy u vals).getD (utf8 "\x7banon\x7d")) :: st.scopes }
  else st

/-- An entry of the unit. -/
def WalkState.entry (st : WalkState) (dieOff : Nat) (ab : Abbrev) (vals : List (Nat × Val)) : WalkState :=
  let st :=
    if ab.tag = dwTagSubprogram then st.subprogram sec lossy u dieOff ab.children vals
    else if ab.tag = dwTagInlinedSubroutine then st.inlined sec lossy u ab.children vals
    else if ab.tag ∈ scopeTags then st.scope sec lossy u ab.children vals
    else st
  if ab.children then { st with depth := st.depth + 1 } else st

/-- The loop of `walk`. -/
def walkLoop : Nat → WalkState → Cur → WalkState
  | 0, st, _ => st
  | fuel + 1, st, c =>
    if c.pos < u.endOff then
      match uleb c with
      | none => st
      | some (code, attrs) =>
        if code = 0#64 then
          match st.close with
          | none => st
          | some st => walkLoop fuel st attrs
        else
          match u.abbrevs.get code with
          | none => st
          | some ab =>
            match readAttrs u.shape ab.attrs attrs with
            | none => st
            | some (vals, next) => walkLoop fuel (st.entry sec lossy u c.pos ab vals) next
    else st

def WalkState.start : WalkState := ⟨[], [], [], 0, [], none, []⟩

/-- `walk`. Each entry takes a byte at least. -/
def Unit.walk : FuncTable :=
  let st := walkLoop sec lossy u (sec.info.length + 1) WalkState.start ⟨sec.info, u.dieOff⟩
  ⟨st.ranges.mergeSort fun a b => a.1 ≤ b.1, st.subs, st.names⟩

end

end Vock.Dwarf
