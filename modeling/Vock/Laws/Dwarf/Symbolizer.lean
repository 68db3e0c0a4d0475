import Vock.Dwarf.Symbolizer

/-!
# What the symbolizer answers

The tables that are kept do not change what they hold (`Valid`), so that each step of `resolve` gives what it
would give with nothing kept, but for one: `die_name` asks the function tables that are there already. An
answer depends on what was asked before through those (`gives_resolve`), and does not depend on it where the
names they have are the plain ones and the chains of references are short (`resolve_asked`).
-/

namespace Vock.Dwarf

open Library

variable {u v : Unit} {F F' : List (Nat × FuncTable)} {off : Nat} {o : Opened} {lossy : List U8 → List U8}

section

variable (o lossy)

/-- The index of all units from an offset on. -/
def indexFrom : Nat → Nat → List Range
  | 0, _ => []
  | fuel + 1, off =>
    if off < o.sec.info.length then
      (parseHeader o.sec.info off).elim [] fun h =>
        (Unit.parse o.sec lossy off).elim [] (Unit.indexRanges o.sec off) ++ indexFrom fuel h.endOff
    else []

/-- The index of all units. -/
def index : List Range := (indexFrom o lossy (o.sec.info.length + 1) 0).mergeSort Range.le

/-- The unit that covers a PC. -/
def unitOf (pc : U64) : Option Unit :=
  ((if o.fullOnly then none else findRange o.aranges pc).or (findRange (index o lossy) pc)).bind (Unit.parse o.sec lossy)

/-- The listed unit that an entry is in. -/
def containing (off : Nat) : Option Unit :=
  (listedBefore o.unitOffsets off).bind fun uoff => (Unit.parse o.sec lossy uoff).filter fun u => off < u.endOff

/-- The name of an entry, along its references, where some names are recorded. -/
def nameFrom (recorded : Unit → Nat → Option (List U8)) (containing : Nat → Option Unit) :
    Nat → Unit → Nat → Nat → Option (List U8)
  | 0, _, _, _ => none
  | fuel + 1, u, off, hops =>
    (recorded u off).or
      (if 4 < hops ∨ off < u.dieOff ∨ u.endOff ≤ off then none
      else
        (u.entryAt o.sec off).bind fun e =>
          (e.1.map lossy).or (e.2.bind fun next =>
            (containing next).bind fun v => nameFrom recorded containing fuel v next (hops + 1)))

/-- The unit in which the entry is looked up that a name of a unit refers to. -/
def startOf (containing : Nat → Option Unit) (u : Unit) (off : Nat) : Option Unit :=
  if u.dieOff ≤ off ∧ off < u.endOff then some u else containing off

/-- The name of a function of a unit. -/
def nameOf (recorded : Unit → Nat → Option (List U8)) (containing : Nat → Option Unit) (u : Unit) : Name → Option (List U8)
  | .none => none
  | .direct s => some s
  | .die off => (startOf containing u off).bind fun v => nameFrom o lossy recorded containing 6 v off 0

/-- The names that function tables have recorded. -/
def recordedIn (F : List (Nat × FuncTable)) (u : Unit) (off : Nat) : Option (List U8) :=
  (F.lookup u.shape.off).bind (·.names.lookup off)

/-- The function tables with that of a unit. -/
def withTable (F : List (Nat × FuncTable)) (u : Unit) : List (Nat × FuncTable) :=
  if (F.lookup u.shape.off).isSome then F else (u.shape.off, u.walk o.sec lossy) :: F

/-- The function and the location of a PC by its unit, where some names are recorded. -/
def answerOf (recorded : Unit → Nat → Option (List U8)) (pc : U64) (u : Unit) : Option (List U8) × Option (List U8) :=
  (((u.walk o.sec lossy).find pc).bind (nameOf o lossy recorded (containing o lossy) u),
    ((u.lineTable o.sec lossy).bind (·.find pc)).map fun r => r.1 ++ byte ':' :: dec r.2.toNat)

/-- The name of the symbol before a PC. -/
def symbolOfPc (pc : U64) : Option (List U8) :=
  (symbolBefore (parseSymTab o.symtabRaw.1 o.symtabRaw.2) pc).map fun s => Report.canonicalFunction (lossy s)

/-- What is told of a PC: the symbol where there is no function, and what stands for nothing. -/
def reported (pc : U64) (answer : Option (List U8) × Option (List U8)) : List U8 × List U8 :=
  ((answer.1.or (symbolOfPc o lossy pc)).getD (utf8 "??"), answer.2.getD (utf8 "??:0"))

/-- The function tables behind a question. -/
def tablesAfter (F : List (Nat × FuncTable)) (pc : U64) : List (Nat × FuncTable) :=
  (unitOf o lossy pc).elim F (withTable o lossy F)

/-- The answer to a question, where function tables are there. -/
def answerWith (F : List (Nat × FuncTable)) (pc : U64) : List U8 × List U8 :=
  reported o lossy pc ((unitOf o lossy pc).elim (none, none) (answerOf o lossy (recordedIn (tablesAfter o lossy F pc)) pc))

end

/-! ## Kept tables -/

section

variable {F : List (Nat × FuncTable)} {β : Type} {sec : Sections}

variable (o lossy F) in
/-- What is kept is what would be parsed, and the function tables are those of `F`. -/
structure Valid (s : Caches) : Prop where
  symtab : ∀ t, s.symtab = some t → t = parseSymTab o.symtabRaw.1 o.symtabRaw.2
  full : ∀ v, s.full = some v → v = index o lossy
  abbrevs : ∀ off a, s.abbrevs.lookup off = some a → Abbrevs.parse o.sec.abbrevs off = some a
  units : ∀ off u, s.units.lookup off = some u → Unit.parse o.sec lossy off = some u
  lines : ∀ u, Unit.parse o.sec lossy u.shape.off = some u → ∀ t, s.lines.lookup u.shape.off = some t →
    t = u.lineTable o.sec lossy
  funcs : s.funcs = F

/-- The table with a value kept has what it had, and the value. -/
theorem lookup_cons_some {l : List (Nat × β)} {k : Nat} {a b : β} (h : ((k, a) :: l).lookup off = some b) :
    off = k ∧ b = a ∨ l.lookup off = some b := by
  rw [List.lookup_cons] at h
  split at h
  next heq => exact .inl ⟨beq_iff_eq.mp heq, (Option.some.inj h).symm⟩
  next => exact .inr h

theorem gives_symtab :
    Gives (Valid o lossy F) (symtab o) (some (parseSymTab o.symtabRaw.1 o.symtabRaw.2)) (Valid o lossy F) := by
  refine gives_cached (fun s hs t ht => by rw [hs.symtab t ht]) (gives_pure _) fun s hs t ht => ?_
  exact { hs with symtab := fun t' ht' => by rw [← Option.some.inj ht', Option.some.inj ht] }

theorem gives_abbrevsAt (off : Nat) :
    Gives (Valid o lossy F) (abbrevsAt o off) (Abbrevs.parse o.sec.abbrevs off) (Valid o lossy F) := by
  refine gives_cached (fun s hs => hs.abbrevs off) (gives_pure _) fun s hs a ha => ?_
  refine { hs with abbrevs := fun off' a' h => ?_ }
  rcases lookup_cons_some h with ⟨rfl, rfl⟩ | h
  · exact ha
  · exact hs.abbrevs off' a' h

theorem unitParse_eq (sec : Sections) (off : Nat) :
    Unit.parse sec lossy off = (parseHeader sec.info off).bind fun h =>
      if h.unitType ≠ 0x01 ∧ h.unitType ≠ 0x03 ∧ h.unitType ≠ 0x04 ∧ h.unitType ≠ 0x05 then none
      else (Abbrevs.parse sec.abbrevs h.abbrevOff).bind (Unit.ofHeader sec lossy h) := rfl

theorem gives_parseUnit (off : Nat) :
    Gives (Valid o lossy F) (parseUnit o lossy off) (Unit.parse o.sec lossy off) (Valid o lossy F) := by
  rw [unitParse_eq, parseUnit]
  cases parseHeader o.sec.info off with
  | none => exact gives_pure none
  | some h =>
    rw [Option.bind_some]
    dsimp only
    split
    next => exact gives_pure none
    next => exact (gives_abbrevsAt h.abbrevOff).map _

theorem gives_unitAt (off : Nat) :
    Gives (Valid o lossy F) (unitAt o lossy off) (Unit.parse o.sec lossy off) (Valid o lossy F) := by
  refine gives_cached (fun s hs => hs.units off) (gives_parseUnit off) fun s hs u hu => ?_
  refine { hs with units := fun off' u' h => ?_ }
  rcases lookup_cons_some h with ⟨rfl, rfl⟩ | h
  · exact hu
  · exact hs.units off' u' h

theorem gives_unitContaining (off : Nat) :
    Gives (Valid o lossy F) (unitContaining o lossy off) (containing o lossy off) (Valid o lossy F) := by
  rw [unitContaining, containing]
  cases listedBefore o.unitOffsets off with
  | none => exact gives_pure none
  | some uoff => exact (gives_unitAt uoff).map _

theorem gives_linesOf (hu : Unit.parse o.sec lossy u.shape.off = some u) :
    Gives (Valid o lossy F) (linesOf o lossy u) (some (u.lineTable o.sec lossy)) (Valid o lossy F) := by
  refine gives_cached (fun s hs t ht => by rw [hs.lines u hu t ht]) (gives_pure _) fun s hs t ht => ?_
  refine { hs with lines := fun v hv t' h => ?_ }
  rcases lookup_cons_some h with ⟨hoff, rfl⟩ | h
  · rw [hoff, hu] at hv
    rw [← Option.some.inj hv, Option.some.inj ht]
  · exact hs.lines v hv t' h

theorem gives_fullIndexLoop (fuel off : Nat) :
    Gives (Valid o lossy F) (fullIndexLoop o lossy fuel off) (indexFrom o lossy fuel off) (Valid o lossy F) := by
  induction fuel generalizing off with
  | zero => exact gives_pure []
  | succ fuel ih =>
    rw [fullIndexLoop, indexFrom]
    split
    next =>
      cases parseHeader o.sec.info off with
      | none => exact gives_pure []
      | some h => exact (gives_unitAt off).bind ((ih h.endOff).map _)
    next => exact gives_pure []

theorem gives_fullIndex : Gives (Valid o lossy F) (fullIndex o lossy) (some (index o lossy)) (Valid o lossy F) := by
  refine gives_cached (fun s hs v hv => by rw [hs.full v hv]) ((gives_fullIndexLoop _ 0).map _) fun s hs v hv => ?_
  exact { hs with full := fun v' hv' => by rw [← Option.some.inj hv', ← Option.some.inj hv] }

theorem gives_unitOffsetForPc (pc : U64) :
    Gives (Valid o lossy F) (unitOffsetForPc o lossy pc)
      ((if o.fullOnly then none else findRange o.aranges pc).or (findRange (index o lossy) pc)) (Valid o lossy F) := by
  rw [unitOffsetForPc]
  cases if o.fullOnly then none else findRange o.aranges pc with
  | some unit => exact gives_pure _
  | none => exact gives_fullIndex.map _

/-- What comes behind a value that may not be there. -/
theorem gives_elim {γ : Type} {P Q : Caches → Prop} {f : β → StateM Caches (Option γ)} {g : β → Option γ}
    {b : Option β} (hnone : b = none → Gives P (pure (none : Option γ)) none Q)
    (hsome : ∀ x, b = some x → Gives P (f x) (g x) Q) : Gives P (b.elim (pure none) f) (b.bind g) Q := by
  cases b with
  | none => exact hnone rfl
  | some x => exact hsome x rfl

theorem gives_dieName (fuel : Nat) (u : Unit) (off hops : Nat) :
    Gives (Valid o lossy F) (dieName o lossy fuel u off hops)
      (nameFrom o lossy (recordedIn F) (containing o lossy) fuel u off hops) (Valid o lossy F) := by
  induction fuel generalizing u off hops with
  | zero => exact gives_pure none
  | succ fuel ih =>
    intro s hs
    have hrecorded : ((s.funcs.lookup u.shape.off).bind fun t => t.names.lookup off) = recordedIn F u off := by
      rw [hs.funcs]
      rfl
    rw [dieName, nameFrom]
    dsimp only
    rw [hrecorded]
    cases recordedIn F u off with
    | some n => exact ⟨s, rfl, hs⟩
    | none =>
      dsimp only
      split
      next => exact ⟨s, rfl, hs⟩
      next =>
        cases u.entryAt o.sec off with
        | none => exact ⟨s, rfl, hs⟩
        | some e =>
          obtain ⟨name, next⟩ := e
          cases name with
          | some name => exact ⟨s, rfl, hs⟩
          | none =>
            cases next with
            | none => exact ⟨s, rfl, hs⟩
            | some next =>
              exact (gives_unitContaining next).bind (gives_elim (fun _ => gives_pure none) fun v _ => ih v next (hops + 1)) s hs

theorem gives_nameString (u : Unit) (n : Name) :
    Gives (Valid o lossy F) (nameString o lossy u n) (nameOf o lossy (recordedIn F) (containing o lossy) u n)
      (Valid o lossy F) := by
  cases n with
  | none => exact gives_pure none
  | direct s => exact gives_pure (some s)
  | die off =>
    rw [nameString, nameOf, startOf]
    split
    next => exact gives_dieName 6 u off 0
    next => exact (gives_unitContaining off).bind (gives_elim (fun _ => gives_pure none) fun v _ => gives_dieName 6 v off 0)

variable (o lossy F) in
/-- The function tables are those of units. -/
def TablesOk : Prop := ∀ off t, F.lookup off = some t → ∃ u, Unit.parse o.sec lossy off = some u ∧ t = u.walk o.sec lossy

theorem gives_funcsOf (hF : TablesOk o lossy F) (hu : Unit.parse o.sec lossy u.shape.off = some u) :
    Gives (Valid o lossy F) (funcsOf o lossy u) (some (u.walk o.sec lossy)) (Valid o lossy (withTable o lossy F u)) := by
  intro s hs
  rw [funcsOf, cached, hs.funcs, withTable]
  cases hlook : F.lookup u.shape.off with
  | some t =>
    obtain ⟨v, hv, rfl⟩ := hF _ _ hlook
    rw [hu] at hv
    rw [Option.some.inj hv]
    exact ⟨s, rfl, hs⟩
  | none =>
    refine ⟨_, rfl, { hs with funcs := ?_ }⟩
    exact congrArg _ hs.funcs

/-- A header is at its offset, and ends where its initial length says. -/
theorem parseHeader_inv {info : List U8} {h : Header} (hh : parseHeader info off = some h) :
    h.shape.off = off ∧ h.endOff ≤ info.length ∧
      ∃ initial c, initialLength ⟨info, off⟩ = some (initial, c) ∧ h.endOff = c.pos + initial.1 := by
  obtain ⟨⟨h', c'⟩, hread, rfl⟩ := Option.map_eq_some_iff.mp hh
  obtain ⟨⟨initial, c⟩, hinitial, hread⟩ := Option.bind_eq_some_iff.mp hread
  change (if info.length < c.pos + initial.1 then failure else _ : Read Header) c = _ at hread
  split at hread
  next => cases hread
  next hend =>
    rw [Reader.bind_apply] at hread
    obtain ⟨⟨version, c₂⟩, _, hread⟩ := Option.bind_eq_some_iff.mp hread
    split at hread
    next => cases hread
    next =>
      obtain ⟨⟨fields, c₃⟩, _, hread⟩ := Option.bind_eq_some_iff.mp hread
      cases hread
      exact ⟨rfl, Nat.le_of_not_lt hend, initial, c, hinitial, rfl⟩

/-- A unit is at its offset, and ends with its header. -/
theorem parse_header (hu : Unit.parse sec lossy off = some u) :
    ∃ h, parseHeader sec.info off = some h ∧ u.shape.off = off ∧ u.endOff = h.endOff := by
  obtain ⟨h, hh, hu⟩ := Option.bind_eq_some_iff.mp hu
  split at hu
  next => cases hu
  next =>
    obtain ⟨abbrevs, _, hu⟩ := Option.bind_eq_some_iff.mp hu
    obtain ⟨code, _, hu⟩ := Option.bind_eq_some_iff.mp hu
    obtain ⟨ab, _, hu⟩ := Option.bind_eq_some_iff.mp hu
    split at hu
    next => cases hu
    next =>
      obtain ⟨vals, _, hu⟩ := Option.bind_eq_some_iff.mp hu
      rw [← Option.some.inj hu]
      exact ⟨h, hh, (parseHeader_inv hh).1, rfl⟩

theorem parse_off (hu : Unit.parse sec lossy off = some u) : u.shape.off = off := by
  obtain ⟨_, _, hoff, _⟩ := parse_header hu
  exact hoff

theorem gives_unitAnswer (hF : TablesOk o lossy F) (hu : Unit.parse o.sec lossy u.shape.off = some u) (pc : U64) :
    Gives (Valid o lossy F) (unitAnswer o lossy pc u) (answerOf o lossy (recordedIn (withTable o lossy F u)) pc u)
      (Valid o lossy (withTable o lossy F u)) := by
  refine (gives_linesOf hu).bind ((gives_funcsOf hF hu).bind ?_)
  refine Gives.bind (gives_elim (fun _ => gives_pure none) fun n _ => gives_nameString u n) ?_
  exact gives_pure _

theorem gives_resolve (hF : TablesOk o lossy F) (pc : U64) :
    Gives (Valid o lossy F) (resolve o lossy pc) (answerWith o lossy F pc) (Valid o lossy (tablesAfter o lossy F pc)) := by
  have hunit : Gives (Valid o lossy F) (Option.elim
      ((if o.fullOnly then none else findRange o.aranges pc).or (findRange (index o lossy) pc)) (pure none) (unitAt o lossy))
      (unitOf o lossy pc) (Valid o lossy F) := gives_elim (fun _ => gives_pure none) fun off _ => gives_unitAt off
  have hanswer : Gives (Valid o lossy F) ((unitOf o lossy pc).elim (pure (none, none)) (unitAnswer o lossy pc))
      ((unitOf o lossy pc).elim (none, none) (answerOf o lossy (recordedIn (tablesAfter o lossy F pc)) pc))
      (Valid o lossy (tablesAfter o lossy F pc)) := by
    rw [tablesAfter]
    cases hpc : unitOf o lossy pc with
    | none => exact gives_pure _
    | some u =>
      obtain ⟨off, _, hparse⟩ := Option.bind_eq_some_iff.mp hpc
      refine gives_unitAnswer hF ?_ pc
      rwa [parse_off hparse]
  rw [answerWith]
  generalize (unitOf o lossy pc).elim (none, none) (answerOf o lossy (recordedIn (tablesAfter o lossy F pc)) pc) = answer at hanswer ⊢
  have hfunc : Gives (Valid o lossy (tablesAfter o lossy F pc)) (answer.1.elim (symbolName o lossy pc) (pure ∘ some))
      (answer.1.or (symbolOfPc o lossy pc)) (Valid o lossy (tablesAfter o lossy F pc)) := by
    cases answer.1 with
    | none => exact gives_symtab.map _
    | some func => exact gives_pure _
  refine (gives_unitOffsetForPc pc).bind (hunit.bind (Gives.bind hanswer ?_))
  exact hfunc.bind (gives_pure _)

theorem TablesOk.withTable (hF : TablesOk o lossy F) (hu : Unit.parse o.sec lossy u.shape.off = some u) :
    TablesOk o lossy (withTable o lossy F u) := by
  rw [Vock.Dwarf.withTable]
  split
  next => exact hF
  next =>
    intro off t h
    rcases lookup_cons_some h with ⟨rfl, rfl⟩ | h
    · exact ⟨u, hu, rfl⟩
    · exact hF off t h

theorem unitOf_parse {pc : U64} (h : unitOf o lossy pc = some u) : Unit.parse o.sec lossy u.shape.off = some u := by
  obtain ⟨off, _, hparse⟩ := Option.bind_eq_some_iff.mp h
  rwa [parse_off hparse]

theorem TablesOk.tablesAfter (hF : TablesOk o lossy F) (pc : U64) : TablesOk o lossy (tablesAfter o lossy F pc) := by
  rw [Vock.Dwarf.tablesAfter]
  cases hpc : unitOf o lossy pc with
  | none => exact hF
  | some u => exact hF.withTable (unitOf_parse hpc)

end

/-! ## Questions -/

section

variable (o lossy)

/-- The state behind questions. -/
def asked (pcs : List U64) (s : Caches) : Caches := pcs.foldl (fun s pc => (resolve o lossy pc s).2) s

variable {o lossy} {hops : Nat}

theorem valid_empty : Valid o lossy [] Caches.empty where
  symtab _ h := nomatch h
  full _ h := nomatch h
  abbrevs _ _ h := nomatch h
  units _ _ h := nomatch h
  lines _ _ _ h := nomatch h
  funcs := rfl

theorem tablesOk_nil : TablesOk o lossy [] := fun _ _ h => nomatch h

/-- After any questions what is kept is valid. -/
theorem valid_asked (pcs : List U64) (hF : TablesOk o lossy F) {s : Caches}
    (hs : Valid o lossy F s) : ∃ F', TablesOk o lossy F' ∧ Valid o lossy F' (asked o lossy pcs s) := by
  induction pcs generalizing F s with
  | nil => exact ⟨F, hF, hs⟩
  | cons pc pcs ih =>
    obtain ⟨t, ht, hvalid⟩ := gives_resolve hF pc s hs
    refine ih (hF.tablesAfter pc) ?_
    dsimp only
    rw [ht]
    exact hvalid

variable (o lossy) in
/-- The chain of references from an entry passes outside of a unit through entries without a recorded name, or
with their own one, and behind the last of `n` references only through the former. -/
def Steady (u : Unit) : Nat → Unit → Nat → Prop
  | 0, v, off => v.shape.off ≠ u.shape.off → (v.walk o.sec lossy).names.lookup off = none
  | n + 1, v, off =>
    (v.shape.off ≠ u.shape.off → ∀ name, (v.walk o.sec lossy).names.lookup off = some name →
      v.dieOff ≤ off ∧ off < v.endOff ∧ ∃ s next, v.entryAt o.sec off = some (some s, next) ∧ name = lossy s) ∧
    ∀ next w, v.entryAt o.sec off = some (none, some next) → containing o lossy next = some w → Steady u n w next

theorem recordedIn_inv (hF : TablesOk o lossy F)
    (hu : Unit.parse o.sec lossy u.shape.off = some u) {n : List U8} (h : recordedIn F u off = some n) :
    (u.walk o.sec lossy).names.lookup off = some n := by
  obtain ⟨t, ht, hn⟩ := Option.bind_eq_some_iff.mp h
  obtain ⟨v, hv, rfl⟩ := hF _ _ ht
  rw [hu] at hv
  rwa [Option.some.inj hv]

theorem containing_parse (h : containing o lossy off = some u) : Unit.parse o.sec lossy u.shape.off = some u := by
  obtain ⟨uoff, _, hfilter⟩ := Option.bind_eq_some_iff.mp h
  have hparse := (Option.filter_eq_some_iff.mp hfilter).1
  rwa [parse_off hparse]

theorem recordedIn_of_isSome (hF : TablesOk o lossy F)
    (hu : Unit.parse o.sec lossy u.shape.off = some u) (hmem : (F.lookup u.shape.off).isSome) (off : Nat) :
    recordedIn F u off = (u.walk o.sec lossy).names.lookup off := by
  obtain ⟨t, ht⟩ := Option.isSome_iff_exists.mp hmem
  obtain ⟨v, hv, rfl⟩ := hF _ _ ht
  rw [hu] at hv
  rw [recordedIn, ht, Option.some.inj hv]
  rfl

theorem recordedIn_eq_none (hF : TablesOk o lossy F)
    (hv : Unit.parse o.sec lossy v.shape.off = some v) (hlook : (v.walk o.sec lossy).names.lookup off = none) :
    recordedIn F v off = none := by
  rw [Option.eq_none_iff_forall_ne_some]
  intro name hrecorded
  rw [recordedIn_inv hF hv hrecorded] at hlook
  cases hlook

/-- An entry has its own name, where another one is not recorded. -/
theorem nameFrom_own (hF : TablesOk o lossy F)
    (hv : Unit.parse o.sec lossy v.shape.off = some v) (hhops : hops ≤ 4) (hlo : v.dieOff ≤ off)
    (hhi : off < v.endOff) {s : List U8} {next : Option Nat} (hentry : v.entryAt o.sec off = some (some s, next))
    (hlook : (v.walk o.sec lossy).names.lookup off = some (lossy s)) (fuel : Nat) :
    nameFrom o lossy (recordedIn F) (containing o lossy) (fuel + 1) v off hops = some (lossy s) := by
  rw [nameFrom]
  cases hrecorded : recordedIn F v off with
  | none =>
    rw [if_neg (by omega), hentry]
    rfl
  | some name =>
    rw [recordedIn_inv hF hv hrecorded] at hlook
    rw [Option.some.inj hlook]
    rfl

/-- Along steady chains the tables of other units make no difference. -/
theorem nameFrom_steady (hF : TablesOk o lossy F) (hF' : TablesOk o lossy F')
    (hmem : (F.lookup u.shape.off).isSome) (hmem' : (F'.lookup u.shape.off).isSome) (fuel : Nat)
    (hv : Unit.parse o.sec lossy v.shape.off = some v) {n : Nat} (hsteady : Steady o lossy u n v off)
    (hn : n + hops = 5) :
    nameFrom o lossy (recordedIn F) (containing o lossy) fuel v off hops =
      nameFrom o lossy (recordedIn F') (containing o lossy) fuel v off hops := by
  induction fuel generalizing v off hops n with
  | zero => rfl
  | succ fuel ih =>
    have hown : v.shape.off = u.shape.off → recordedIn F v off = recordedIn F' v off := by
      intro hoff
      rw [← hoff] at hmem hmem'
      rw [recordedIn_of_isSome hF hv hmem, recordedIn_of_isSome hF' hv hmem']
    have hnone : (v.walk o.sec lossy).names.lookup off = none → recordedIn F v off = recordedIn F' v off := by
      intro hlook
      rw [recordedIn_eq_none hF hv hlook, recordedIn_eq_none hF' hv hlook]
    cases n with
    | zero =>
      -- behind the last hop only what is recorded is told
      have hrecorded : recordedIn F v off = recordedIn F' v off := by
        by_cases hoff : v.shape.off = u.shape.off
        · exact hown hoff
        · exact hnone (hsteady hoff)
      rw [nameFrom, nameFrom, hrecorded, if_pos (by omega), if_pos (by omega)]
    | succ n =>
      have hsame : recordedIn F v off = recordedIn F' v off →
          nameFrom o lossy (recordedIn F) (containing o lossy) (fuel + 1) v off hops =
            nameFrom o lossy (recordedIn F') (containing o lossy) (fuel + 1) v off hops := by
        intro hrecorded
        rw [nameFrom]
        congr 1
        split
        next => rfl
        next =>
          refine Option.bind_congr fun e hentry => ?_
          obtain ⟨name, next⟩ := e
          cases name with
          | some name => rfl
          | none =>
            refine Option.bind_congr fun next hnext => Option.bind_congr fun w hw => ?_
            dsimp only at hnext
            rw [hnext] at hentry
            exact ih (containing_parse hw) (hsteady.2 next w hentry hw) (by omega)
      by_cases hoff : v.shape.off = u.shape.off
      · exact hsame (hown hoff)
      · cases hlook : (v.walk o.sec lossy).names.lookup off with
        | none => exact hsame (hnone hlook)
        | some name =>
          obtain ⟨hlo, hhi, s, next, hentry, rfl⟩ := hsteady.1 hoff name hlook
          rw [nameFrom_own hF hv (by omega) hlo hhi hentry hlook, nameFrom_own hF' hv (by omega) hlo hhi hentry hlook]

theorem nameOf_steady (hu : Unit.parse o.sec lossy u.shape.off = some u)
    (hF : TablesOk o lossy F) (hF' : TablesOk o lossy F') (hmem : (F.lookup u.shape.off).isSome)
    (hmem' : (F'.lookup u.shape.off).isSome) {n : Name}
    (hsteady : ∀ off v, n = .die off → startOf (containing o lossy) u off = some v → Steady o lossy u 5 v off) :
    nameOf o lossy (recordedIn F) (containing o lossy) u n = nameOf o lossy (recordedIn F') (containing o lossy) u n := by
  cases n with
  | none | direct s => rfl
  | die off =>
    refine Option.bind_congr fun v hv => ?_
    have hparse : Unit.parse o.sec lossy v.shape.off = some v := by
      rw [startOf] at hv
      split at hv
      next =>
        rw [← Option.some.inj hv]
        exact hu
      next => exact containing_parse hv
    exact nameFrom_steady hF hF' hmem hmem' 6 hparse (hsteady off v rfl hv) rfl

theorem isSome_withTable (F : List (Nat × FuncTable)) (u : Unit) : ((withTable o lossy F u).lookup u.shape.off).isSome := by
  rw [withTable]
  split
  next h => exact h
  next => rw [List.lookup_cons_self]; rfl

variable (o lossy) in
/-- Each chain that a function of a PC refers to is steady. -/
def ChainsSteady (pc : U64) : Prop :=
  ∀ u off v, unitOf o lossy pc = some u → (u.walk o.sec lossy).find pc = some (.die off) →
    startOf (containing o lossy) u off = some v → Steady o lossy u 5 v off

theorem answerWith_steady {pc : U64} (hsteady : ChainsSteady o lossy pc)
    (hF : TablesOk o lossy F) (hF' : TablesOk o lossy F') : answerWith o lossy F pc = answerWith o lossy F' pc := by
  have hG := hF.tablesAfter pc
  have hG' := hF'.tablesAfter pc
  rw [tablesAfter] at hG hG'
  rw [answerWith, answerWith, tablesAfter, tablesAfter]
  cases hunit : unitOf o lossy pc with
  | none => rw [Option.elim_none, Option.elim_none]
  | some u =>
    rw [hunit] at hG hG'
    have hname : ∀ n, (u.walk o.sec lossy).find pc = some n →
        nameOf o lossy (recordedIn (withTable o lossy F u)) (containing o lossy) u n =
          nameOf o lossy (recordedIn (withTable o lossy F' u)) (containing o lossy) u n := by
      intro n hn
      refine nameOf_steady (unitOf_parse hunit) hG hG' (isSome_withTable F u) (isSome_withTable F' u) fun off v hdie hv => ?_
      rw [hdie] at hn
      exact hsteady u off v hunit hn hv
    rw [Option.elim_some, Option.elim_some, Option.elim_some, Option.elim_some, answerOf, answerOf, Option.bind_congr hname]

/-- Where its chains are steady, an answer does not depend on what was asked before. -/
theorem resolve_asked {pc : U64} (hsteady : ChainsSteady o lossy pc) (pcs : List U64) :
    (resolve o lossy pc (asked o lossy pcs Caches.empty)).1 = (resolve o lossy pc Caches.empty).1 := by
  obtain ⟨F, hF, hvalid⟩ := valid_asked pcs tablesOk_nil (@valid_empty o lossy)
  obtain ⟨t, ht, _⟩ := gives_resolve hF pc _ hvalid
  obtain ⟨t', ht', _⟩ := gives_resolve tablesOk_nil pc _ (@valid_empty o lossy)
  rw [ht, ht', answerWith_steady hsteady hF tablesOk_nil]

end

/-! ## A reference into another unit -/

section

/-- A unit of version 4 with one range of 16 addresses. -/
def acrossUnit (lang lo : U8) (body : List U8) : List U8 :=
  leBytes 4 (BitVec.ofNat 64 (18 + body.length)) ++ [4#8, 0#8, 0#8, 0#8, 0#8, 0#8, 8#8] ++
    [1#8, lang, lo, 0#8, 0#8, 0#8, 0#8, 0#8, 0#8, 0#8, 0x10#8] ++ body

/-- The function `f` in the namespace `n`, in C++ or in C, and in a unit behind it a function that refers to `f`. -/
def acrossInfo (cpp : Bool) : List U8 :=
  acrossUnit (if cpp then 0x04#8 else 0x0c#8) 0x10#8
      ([2#8, 0x6e#8, 0#8] ++ [3#8, 0x66#8, 0#8, 0x10#8, 0#8, 0#8, 0#8, 0#8, 0#8, 0#8, 0#8, 0x10#8] ++ [0#8, 0#8]) ++
    acrossUnit 0x0c#8 0x20#8 ([4#8, 25#8, 0#8, 0#8, 0#8, 0x20#8, 0#8, 0#8, 0#8, 0#8, 0#8, 0#8, 0#8, 0x10#8] ++ [0#8])

def acrossAbbrevs : List U8 :=
  [1#8, 0x11#8, 1#8, 0x13#8, 0x0b#8, 0x11#8, 0x01#8, 0x12#8, 0x0b#8, 0#8, 0#8] ++
    [2#8, 0x39#8, 1#8, 0x03#8, 0x08#8, 0#8, 0#8] ++
    [3#8, 0x2e#8, 0#8, 0x03#8, 0x08#8, 0x11#8, 0x01#8, 0x12#8, 0x0b#8, 0#8, 0#8] ++
    [4#8, 0x2e#8, 0#8, 0x31#8, 0x10#8, 0x11#8, 0x01#8, 0x12#8, 0x0b#8, 0#8, 0#8] ++ [0#8]

def acrossSections (cpp : Bool) : Sections :=
  { info := acrossInfo cpp, abbrevs := acrossAbbrevs, str := [], line := [], lineStr := [], ranges := [], rnglists := [],
    addr := [], strOffsets := [] }

/-- A set of `.debug_aranges` with one tuple. -/
def acrossSet (unit lo : U8) : List U8 :=
  leBytes 4 44#64 ++ [2#8, 0#8, unit, 0#8, 0#8, 0#8, 8#8, 0#8, 0#8, 0#8, 0#8, 0#8] ++ leBytes 8 (lo.setWidth 64) ++
    leBytes 8 0x10#64 ++ leBytes 16 0#64

def acrossAranges : List U8 := acrossSet 0#8 0x10#8 ++ acrossSet 39#8 0x20#8

def across (cpp : Bool) : Opened := openSections (acrossSections cpp) acrossAranges ([], []) false

theorem across_sets : arangesSets acrossAranges (acrossAranges.length + 1) 0 =
    [(0, [⟨0x10#64, 0x20#64, 0⟩]), (39, [⟨0x20#64, 0x30#64, 39⟩])] := by decide +kernel

theorem across_aranges (cpp : Bool) : (across cpp).aranges = [⟨0x10#64, 0x20#64, 0⟩, ⟨0x20#64, 0x30#64, 39⟩] := by
  rw [across, openSections, parseAranges, across_sets]
  exact List.mergeSort_of_pairwise (by decide)

theorem across_unitOffsets (cpp : Bool) : (across cpp).unitOffsets = [0, 39] := by
  have hsorted : [0, 39].mergeSort (fun a b => decide (a ≤ b)) = [0, 39] := List.mergeSort_of_pairwise (by decide)
  rw [across, openSections, parseAranges, across_sets]
  exact congrArg List.eraseReps hsorted

theorem across_isSome :
    ∀ cpp, (Unit.parse (acrossSections cpp) id 0).isSome ∧ (Unit.parse (acrossSections cpp) id 39).isSome := by
  decide +kernel

/-- The unit of `f`, and the unit behind it. -/
def acrossFirst (cpp : Bool) : Unit := (Unit.parse (acrossSections cpp) id 0).get (across_isSome cpp).1

def acrossSecond (cpp : Bool) : Unit := (Unit.parse (acrossSections cpp) id 39).get (across_isSome cpp).2

theorem parse_acrossFirst (cpp : Bool) : Unit.parse (across cpp).sec id 0 = some (acrossFirst cpp) := (Option.some_get _).symm

theorem parse_acrossSecond (cpp : Bool) : Unit.parse (across cpp).sec id 39 = some (acrossSecond cpp) :=
  (Option.some_get _).symm

theorem unitOf_acrossFirst (cpp : Bool) : unitOf (across cpp) id 0x10#64 = some (acrossFirst cpp) := by
  have hfind : findRange (across cpp).aranges 0x10#64 = some 0 := by
    rw [across_aranges]
    decide
  have hfull : (across cpp).fullOnly = false := rfl
  rw [unitOf, hfull, if_neg Bool.false_ne_true, hfind, Option.some_or, Option.bind_some, parse_acrossFirst]

theorem unitOf_acrossSecond (cpp : Bool) : unitOf (across cpp) id 0x20#64 = some (acrossSecond cpp) := by
  have hfind : findRange (across cpp).aranges 0x20#64 = some 39 := by
    rw [across_aranges]
    decide
  have hfull : (across cpp).fullOnly = false := rfl
  rw [unitOf, hfull, if_neg Bool.false_ne_true, hfind, Option.some_or, Option.bind_some, parse_acrossSecond]

/-- What is read of the second unit and of the entry of `f`, and the name that the table of its unit has for it. -/
theorem across_read : ∀ cpp,
    let st := walkLoop (across cpp).sec id (acrossSecond cpp) ((across cpp).sec.info.length + 1) WalkState.start
      ⟨(across cpp).sec.info, (acrossSecond cpp).dieOff⟩
    (st.ranges = [(0x20#64, 0x30#64, 0)] ∧ st.subs = [⟨.die 25, []⟩] ∧ (acrossSecond cpp).stmtList = none) ∧
      (¬ ((acrossSecond cpp).dieOff ≤ 25 ∧ 25 < (acrossSecond cpp).endOff) ∧
        (acrossFirst cpp).dieOff ≤ 25 ∧ 25 < (acrossFirst cpp).endOff) ∧
      (acrossFirst cpp).entryAt (across cpp).sec 25 = some (some [0x66#8], none) ∧
      ((acrossFirst cpp).walk (across cpp).sec id).names.lookup 25 =
        some (if cpp then [0x6e#8, 0x3a#8, 0x3a#8, 0x66#8] else [0x66#8]) := by
  decide +kernel

/-- The function of the second unit refers to the entry at 25. -/
theorem find_acrossSecond (cpp : Bool) : ((acrossSecond cpp).walk (across cpp).sec id).find 0x20#64 = some (.die 25) := by
  obtain ⟨⟨hranges, hsubs, -⟩, -⟩ := across_read cpp
  rw [Unit.walk, hranges, hsubs, List.mergeSort_singleton]
  rfl

theorem startOf_across (cpp : Bool) :
    startOf (containing (across cpp) id) (acrossSecond cpp) 25 = some (acrossFirst cpp) := by
  obtain ⟨-, ⟨hout, -, hend⟩, -⟩ := across_read cpp
  have hlisted : listedBefore [0, 39] 25 = some 0 := by decide
  rw [startOf, if_neg hout, containing, across_unitOffsets, hlisted, Option.bind_some, parse_acrossFirst,
    Option.filter_some, if_pos (decide_eq_true hend)]

theorem chainsSteady_across : ChainsSteady (across false) id 0x20#64 := by
  intro u off v hunit hfind hstart
  rw [unitOf_acrossSecond] at hunit
  obtain rfl := Option.some.inj hunit
  rw [find_acrossSecond] at hfind
  obtain rfl : 25 = off := Name.die.inj (Option.some.inj hfind)
  rw [startOf_across] at hstart
  obtain rfl := Option.some.inj hstart
  obtain ⟨-, ⟨-, hlo, hhi⟩, hread, hnames⟩ := across_read false
  refine ⟨fun _ name hname => ?_, fun next w hentry _ => ?_⟩
  · refine ⟨hlo, hhi, _, _, hread, ?_⟩
    exact (Option.some.inj (hnames.symm.trans hname)).symm
  · rw [hread] at hentry
    cases hentry

theorem resolve_asked_across :
    ChainsSteady (across false) id 0x20#64 ∧
      (resolve (across false) id 0x20#64 (asked (across false) id [0x10#64] Caches.empty)).1 =
        (resolve (across false) id 0x20#64 Caches.empty).1 :=
  ⟨chainsSteady_across, resolve_asked chainsSteady_across [0x10#64]⟩

/-- What is told of the function of the second unit, by the name that is found. -/
theorem answer_across {cpp : Bool} {name : List U8}
    (h : nameFrom (across cpp) id (recordedIn (tablesAfter (across cpp) id F 0x20#64)) (containing (across cpp) id) 6
      (acrossFirst cpp) 25 0 = some name) : answerWith (across cpp) id F 0x20#64 = (name, utf8 "??:0") := by
  obtain ⟨⟨-, -, hlines⟩, -⟩ := across_read cpp
  rw [answerWith, unitOf_acrossSecond, Option.elim_some, answerOf, find_acrossSecond, Option.bind_some, nameOf,
    startOf_across, Option.bind_some, h, Unit.lineTable, hlines]
  rfl

/-- With the table of its unit the name of `f` is the qualified one. -/
theorem answer_across_asked :
    answerWith (across true) id (tablesAfter (across true) id [] 0x10#64) 0x20#64 = (utf8 "n::f", utf8 "??:0") := by
  have hfirst : (acrossFirst true).shape.off = 0 := parse_off (parse_acrossFirst true)
  have hsecond : (acrossSecond true).shape.off = 39 := parse_off (parse_acrossSecond true)
  have hafter : tablesAfter (across true) id [] 0x10#64 = [(0, (acrossFirst true).walk (across true).sec id)] := by
    rw [tablesAfter, unitOf_acrossFirst, Option.elim_some, withTable, hfirst]
    rfl
  have hafter' : tablesAfter (across true) id [(0, (acrossFirst true).walk (across true).sec id)] 0x20#64 =
      [(39, (acrossSecond true).walk (across true).sec id), (0, (acrossFirst true).walk (across true).sec id)] := by
    rw [tablesAfter, unitOf_acrossSecond, Option.elim_some, withTable, hsecond]
    rfl
  obtain ⟨-, -, -, hnames⟩ := across_read true
  refine answer_across ?_
  have hlook : List.lookup 0 [(39, (acrossSecond true).walk (across true).sec id),
      (0, (acrossFirst true).walk (across true).sec id)] = some ((acrossFirst true).walk (across true).sec id) := rfl
  rw [hafter, hafter', nameFrom, recordedIn, hfirst, hlook, Option.bind_some, hnames]
  decide

/-- Without it, it is the plain one. -/
theorem answer_across_fresh (cpp : Bool) : answerWith (across cpp) id [] 0x20#64 = (utf8 "f", utf8 "??:0") := by
  have hfirst : (acrossFirst cpp).shape.off = 0 := parse_off (parse_acrossFirst cpp)
  have hsecond : (acrossSecond cpp).shape.off = 39 := parse_off (parse_acrossSecond cpp)
  have hafter : tablesAfter (across cpp) id [] 0x20#64 = [(39, (acrossSecond cpp).walk (across cpp).sec id)] := by
    rw [tablesAfter, unitOf_acrossSecond, Option.elim_some, withTable, hsecond]
    rfl
  obtain ⟨-, ⟨-, hlo, hhi⟩, hread, -⟩ := across_read cpp
  refine answer_across ?_
  rw [hafter, nameFrom, recordedIn, hfirst, if_neg (by omega), hread]
  rfl

theorem name_after_question :
    (resolve (across true) id 0x20#64 (asked (across true) id [0x10#64] Caches.empty)).1 = (utf8 "n::f", utf8 "??:0") ∧
      (resolve (across true) id 0x20#64 Caches.empty).1 = (utf8 "f", utf8 "??:0") := by
  obtain ⟨s, hs, hvalid⟩ := gives_resolve tablesOk_nil 0x10#64 _ (@valid_empty (across true) id)
  obtain ⟨t, ht, _⟩ := gives_resolve (tablesOk_nil.tablesAfter 0x10#64) 0x20#64 s hvalid
  obtain ⟨t', ht', _⟩ := gives_resolve tablesOk_nil 0x20#64 _ (@valid_empty (across true) id)
  have hasked : asked (across true) id [0x10#64] Caches.empty = s := congrArg Prod.snd hs
  rw [hasked, ht, ht', answer_across_asked, answer_across_fresh true]
  exact ⟨rfl, rfl⟩

end

end Vock.Dwarf
