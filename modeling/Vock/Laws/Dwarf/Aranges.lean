import Vock.Laws.Dwarf.Index

/-!
# The listing of the units

`.debug_aranges` as sets that list ranges of units. Its bytes are read back (`parseAranges_listing`), and what is listed
is compared with what is read from the units themselves (`unitRanges`): a PC has a unit where a range that covers it is
listed, or is read from a unit (`offsetOf_iff`). The unit of an entry is found only where it is listed (`containing_iff`).

`resolve_listings_iff` compares a listing with one that lists all units. The answers agree where the PC is found at all
(`Located`), and the name of its function passes through listed units only; a name is looked up in another unit where it
refers to an entry there, or goes through two references. What is listed need not be what the code reads from a unit:
it reads no range from a unit of version 2 or 3 whose `DW_AT_ranges` has the form `data4`, so that a PC of such a unit
is located by its listing only.

The ranges are assumed to be those of a file in which no address is in two units (`Whole.apart`, `Lists.apart`,
`Lists.own`); what the search does among ranges that overlap is not said here. A set starts at a multiple of its tuple
size, as the code aligns tuples from the start of the section.
-/

namespace Vock.Dwarf

open Library Library.Interval List

/-! ## The bytes of a listing -/

/-- A set: its format, the unit it is for, and tuples of an address and a length. -/
structure ArangesSet where
  format64 : Bool
  addrSize : Nat
  segSize : Nat
  unit : Nat
  tuples : List (Nat × Nat)

variable {pos off : Nat} {bs data : List U8} {s : ArangesSet} {sets : List ArangesSet} {fuel size : Nat}

/-- The ranges that a set lists. -/
def ArangesSet.ranges (s : ArangesSet) : List Range :=
  s.tuples.map fun t => ⟨BitVec.ofNat 64 t.1, BitVec.ofNat 64 t.1 + BitVec.ofNat 64 t.2, s.unit⟩

/-- A tuple of words. -/
def tupleBytes (size : Nat) (t : Nat × Nat) : List U8 := addrBytes size t.1 ++ addrBytes size t.2

/-- The header of a set behind its initial length. -/
def ArangesSet.fields (s : ArangesSet) : List U8 :=
  leBytes 2 2#64 ++ (leBytes (offSize s.format64) (BitVec.ofNat 64 s.unit) ++
    (leBytes 1 (BitVec.ofNat 64 s.addrSize) ++ leBytes 1 (BitVec.ofNat 64 s.segSize)))

/-- The tuples of a set, and the one that ends it. -/
def ArangesSet.tail (s : ArangesSet) : List U8 := s.tuples.flatMap (tupleBytes s.addrSize) ++ tupleBytes s.addrSize (0, 0)

/-- The bytes of a set: the header is padded to the size of a tuple. The set starts at a multiple of that size, as
sets do where all addresses have one size. -/
structure SetBytes (pos : Nat) (s : ArangesSet) (bs : List U8) : Prop where
  addrSize : WordSize s.addrSize
  segSize : s.segSize < 256
  unit : s.unit < 2 ^ (8 * offSize s.format64)
  tuples : ∀ t ∈ s.tuples, t.1 < 2 ^ (8 * s.addrSize) ∧ 0 < t.2 ∧ t.2 < 2 ^ (8 * s.addrSize)
  aligned : pos % (2 * s.addrSize) = 0
  bytes : ∃ padding body, body = s.fields ++ (padding ++ s.tail) ∧ bs = lengthBytes s.format64 body.length ++ body ∧
    body.length < (if s.format64 then 2 ^ 64 else 0xfffffff0) ∧
    padding.length < 2 * s.addrSize ∧
    ((lengthBytes s.format64 body.length ++ s.fields).length + padding.length) % (2 * s.addrSize) = 0

/-- The bytes of sets from a position on. -/
inductive ListingBytes : Nat → List ArangesSet → List U8 → Prop
  | nil (pos : Nat) : ListingBytes pos [] []
  | cons {pos : Nat} {s : ArangesSet} {sets : List ArangesSet} {bs rest : List U8} (hset : SetBytes pos s bs)
      (hrest : ListingBytes (pos + bs.length) sets rest) : ListingBytes pos (s :: sets) (bs ++ rest)

theorem length_tupleBytes (size : Nat) (t : Nat × Nat) : (tupleBytes size t).length = 2 * size := by
  rw [tupleBytes, length_append, addrBytes, addrBytes, length_leBytes, length_leBytes]
  omega

/-- The tuples up to the one that ends them. -/
theorem arangesTuples_tuples {unit stop : Nat} (hsize : WordSize size) (hstop : stop ≤ data.length)
    {tuples : List (Nat × Nat)} (htuples : ∀ t ∈ tuples, t.1 < 2 ^ (8 * size) ∧ 0 < t.2 ∧ t.2 < 2 ^ (8 * size))
    (hfound : Found (tuples.flatMap (tupleBytes size) ++ tupleBytes size (0, 0)) data pos)
    (hend : pos + (tuples.flatMap (tupleBytes size) ++ tupleBytes size (0, 0)).length ≤ stop)
    (hfuel : tuples.length < fuel) :
    arangesTuples size unit stop fuel ⟨data, pos⟩ =
      tuples.map fun t => ⟨BitVec.ofNat 64 t.1, BitVec.ofNat 64 t.1 + BitVec.ofNat 64 t.2, unit⟩ := by
  have hpow := hsize.pow_le
  induction tuples generalizing pos fuel with
  | nil =>
    obtain ⟨fuel, rfl⟩ : ∃ n, fuel = n + 1 := ⟨fuel - 1, by omega⟩
    rw [flatMap_nil, nil_append] at hfound hend
    have hread := (reads_addrPair hsize (Nat.two_pow_pos _) (Nat.two_pow_pos _)).runs hfound
    rw [length_tupleBytes] at hend
    rw [arangesTuples, if_pos (by dsimp only; omega), hread]
    exact if_pos ⟨rfl, rfl⟩
  | cons t tuples ih =>
    obtain ⟨fuel, rfl⟩ : ∃ n, fuel = n + 1 := ⟨fuel - 1, by omega⟩
    obtain ⟨⟨haddr, hpos, hlength⟩, htuples⟩ := forall_mem_cons.mp htuples
    rw [flatMap_cons, append_assoc] at hfound hend
    rw [length_append, length_tupleBytes] at hend
    have hread := (reads_addrPair hsize haddr hlength).runs hfound.left
    have hrest := hfound.right
    have hlen := length_tupleBytes size t
    rw [tupleBytes] at hlen
    have hne : BitVec.ofNat 64 t.2 ≠ 0#64 := by
      intro h
      have := congrArg BitVec.toNat h
      simp only [BitVec.toNat_ofNat] at this
      omega
    rw [length_tupleBytes] at hrest
    rw [arangesTuples, if_pos (by dsimp only; omega), hread, hlen]
    dsimp only
    rw [if_neg (fun h => hne h.2), if_neg hne, ih htuples hrest (by omega) (Nat.lt_of_succ_lt_succ hfuel)]
    rfl

/-- What fills up to a multiple. -/
theorem padding_eq {pad : Nat} (hmod : (pos + pad) % size = 0) (hpad : pad < size) :
    (size - pos % size) % size = pad := by
  have hlt := Nat.mod_lt pos (show 0 < size by omega)
  rw [Nat.add_mod, Nat.mod_eq_of_lt hpad] at hmod
  rcases Nat.lt_or_ge (pos % size + pad) size with h | h
  · rw [Nat.mod_eq_of_lt h] at hmod
    rw [show pos % size = 0 by omega, Nat.sub_zero, Nat.mod_self]
    omega
  · rw [Nat.mod_eq_sub_mod h, Nat.mod_eq_of_lt (by omega)] at hmod
    rw [show size - pos % size = pad by omega, Nat.mod_eq_of_lt hpad]

theorem readArangesHeader_set (h : SetBytes pos s bs)
    (hfound : Found bs data pos) (hdata : data.length < 2 ^ 64) :
    ∃ next, Runs readArangesHeader data pos (pos + bs.length, s.unit, s.addrSize) next ∧
      Found s.tail data next ∧ next + s.tail.length = pos + bs.length := by
  obtain ⟨padding, body, hbody, rfl, hlen, hpad, hmod⟩ := h.bytes
  have hend := hfound.le_length
  have hsize : (BitVec.ofNat 64 s.addrSize).toNat = s.addrSize := by rcases h.addrSize with h | h <;> rw [h] <;> rfl
  have hsizeLt : (BitVec.ofNat 64 s.addrSize).toNat < 2 ^ (8 * 1) := by rcases h.addrSize with h | h <;> rw [h] <;> decide
  have hsizeNe : BitVec.ofNat 64 s.addrSize ≠ 0#64 := by rcases h.addrSize with h | h <;> rw [h] <;> decide
  have hseg : (BitVec.ofNat 64 s.segSize).toNat < 2 ^ (8 * 1) := by
    rw [BitVec.toNat_ofNat, Nat.mod_eq_of_lt (Nat.lt_trans h.segSize (by decide))]
    exact h.segSize
  -- the parts of the set, one behind the other
  have hlength := (reads_lengthBytes hlen).runs hfound.left
  have hfields := hfound.right
  rw [hbody] at hfields
  have hversion := (reads_le (by decide)).runs hfields.left.left
  have hunit := (reads_off h.unit).runs hfields.left.right.left
  have haddr := (reads_le hsizeLt).runs hfields.left.right.right.left
  have hsegment := (reads_le hseg).runs hfields.left.right.right.right
  have hskip := (reads_skip padding).runs hfields.right.left
  have htail := hfields.right.right
  have hfieldsLength : s.fields.length = 2 + (offSize s.format64 + (1 + 1)) := by
    simp [ArangesSet.fields]
  rw [← hbody] at hversion hunit haddr hsegment hskip htail
  simp only [length_leBytes] at hversion hunit haddr hsegment
  generalize hstart : pos + (lengthBytes s.format64 body.length).length = start at *
  have hafter : start + 2 + offSize s.format64 + 1 + 1 = start + s.fields.length := by omega
  have hpadding : (2 * s.addrSize - (start + s.fields.length) % (2 * s.addrSize)) % (2 * s.addrSize) = padding.length := by
    refine padding_eq ?_ hpad
    rw [← hstart, Nat.add_assoc, Nat.add_assoc, Nat.add_mod, h.aligned, Nat.zero_add, Nat.mod_mod]
    rwa [length_append, Nat.add_assoc] at hmod
  have hwhole : pos + (lengthBytes s.format64 body.length ++ body).length = start + body.length := by
    rw [length_append, ← hstart, Nat.add_assoc]
  rw [hwhole] at hend ⊢
  refine ⟨start + s.fields.length + padding.length, ?_, htail, ?_⟩
  · refine hlength.bind ((runs_pos data _).bind ?_)
    rw [if_neg (by omega)]
    refine hversion.bind ?_
    refine hunit.bind (haddr.bind (hsegment.bind ?_))
    rw [if_neg hsizeNe, hsize, hafter]
    refine (runs_pos data _).bind ?_
    rw [hpadding]
    exact hskip.bind (runs_pure _ data _)
  · rw [hbody, length_append, length_append]
    omega

theorem SetBytes.unitBytes (h : SetBytes pos s bs) : UnitBytes bs := by
  obtain ⟨_, body, _, hbs, hlen, _⟩ := h.bytes
  exact ⟨s.format64, body, hlen, hbs⟩

theorem ListingBytes.length_le (h : ListingBytes pos sets bs) : sets.length ≤ bs.length := by
  induction h with
  | nil => exact Nat.le_refl 0
  | cons hset _ ih =>
    have hpos := hset.unitBytes.length_pos
    rw [length_cons, length_append]
    omega

theorem length_tail_le (h : WordSize s.addrSize) : s.tuples.length ≤ s.tail.length := by
  have hsize : 1 ≤ 2 * s.addrSize := by rcases h with h | h <;> omega
  rw [ArangesSet.tail, length_append, length_flatMap_eq (length_tupleBytes s.addrSize)]
  exact Nat.le_add_right_of_le (Nat.le_mul_of_pos_right _ hsize)

/-- The sets are read one behind the other. -/
theorem arangesSets_listing (hdata : data.length < 2 ^ 64) (h : ListingBytes pos sets bs) (hfound : Found bs data pos)
    (hend : pos + bs.length = data.length) (hfuel : sets.length < fuel) :
    arangesSets data fuel pos = sets.map fun s => (s.unit, s.ranges) := by
  induction h generalizing fuel with
  | nil pos =>
    obtain ⟨fuel, rfl⟩ : ∃ n, fuel = n + 1 := ⟨fuel - 1, by omega⟩
    rw [length_nil] at hend
    rw [arangesSets, if_neg (by omega)]
    rfl
  | @cons pos s sets bs rest hset hrest ih =>
    obtain ⟨fuel, rfl⟩ : ∃ n, fuel = n + 1 := ⟨fuel - 1, by omega⟩
    rw [length_append] at hend
    obtain ⟨next, hheader, htail, hnext⟩ := readArangesHeader_set hset hfound.left hdata
    have htuples := length_tail_le hset.addrSize
    have hpos := hset.unitBytes.length_pos
    have hread : arangesTuples s.addrSize s.unit (pos + bs.length) (data.length + 1) ⟨data, next⟩ = s.ranges :=
      arangesTuples_tuples hset.addrSize (by omega) hset.tuples htail hnext.le (by omega)
    rw [arangesSets, if_pos (by omega), hheader]
    dsimp only
    rw [hread, ih hfound.right (by omega) (Nat.lt_of_succ_lt_succ hfuel)]
    rfl

/-- A listing is parsed into its ranges and its units. -/
theorem parseAranges_listing (hlen : bs.length < 2 ^ 64) (h : ListingBytes 0 sets bs) :
    parseAranges bs = ((sets.flatMap ArangesSet.ranges).mergeSort Range.le,
      ((sets.map ArangesSet.unit).mergeSort fun a b => a ≤ b).eraseReps) := by
  have hfound : Found bs bs 0 := ⟨[], [], by rw [append_nil, nil_append], rfl⟩
  rw [parseAranges, arangesSets_listing hlen h hfound (Nat.zero_add _) (Nat.lt_succ_of_le h.length_le)]
  rw [flatMap_map, map_map]
  rfl

/-! ## What is listed -/

/-- `.debug_info` is units one behind the other whose headers can be read, and no address is in two of their ranges. -/
structure Whole (sec : Sections) (lossy : List U8 → List U8) (units : List (List U8)) : Prop where
  bytes : ∀ bs ∈ units, UnitBytes bs
  info : sec.info = units.flatten
  headers : ∀ i < units.length, (parseHeader sec.info (offAt units i)).isSome
  proper : ∀ i < units.length, ∀ r ∈ unitRanges sec lossy (offAt units i), r.start < r.stop
  apart : ((List.range' 0 units.length).flatMap fun i => unitRanges sec lossy (offAt units i)).Pairwise
    (Apart Range.start Range.stop)

/-- `.debug_aranges` has sets for some of the units. No address is listed twice, and none that is listed for a unit is
read from another one. Nothing else is asked of the ranges: a unit may be listed with more than is read from it, or with
less. -/
structure Lists (sec : Sections) (lossy : List U8 → List U8) (units : List (List U8)) (sets : List ArangesSet)
    (aranges : List U8) : Prop where
  length : aranges.length < 2 ^ 64
  bytes : ListingBytes 0 sets aranges
  listed : ∀ s ∈ sets, ∃ i < units.length, s.unit = offAt units i
  proper : ∀ r ∈ sets.flatMap ArangesSet.ranges, r.start < r.stop
  apart : (sets.flatMap ArangesSet.ranges).Pairwise (Apart Range.start Range.stop)
  own : ∀ r ∈ sets.flatMap ArangesSet.ranges, ∀ i < units.length, ∀ r' ∈ unitRanges sec lossy (offAt units i),
    r.unit ≠ offAt units i → Apart Range.start Range.stop r r'

section

variable {o : Opened} {lossy : List U8 → List U8} {units : List (List U8)}

theorem index_whole (hwhole : Whole o.sec lossy units) : index o lossy =
    ((List.range' 0 units.length).flatMap fun i => unitRanges o.sec lossy (offAt units i)).mergeSort Range.le := by
  rw [index_units hwhole.bytes hwhole.info, takeWhile_eq_self_iff.mpr]
  intro i hi
  exact hwhole.headers i (by have := mem_range'_1.mp hi; omega)

theorem findRange_eq (l : List Range) (pc : U64) :
    findRange l pc = (lookBack Range.start Range.stop 3 l pc).map Range.unit := rfl

/-- The index has the unit whose range covers the PC. -/
theorem findRange_index_iff (hwhole : Whole o.sec lossy units) {pc : U64} :
    findRange (index o lossy) pc = some off ↔
      (∃ i < units.length, off = offAt units i) ∧ ∃ r ∈ unitRanges o.sec lossy off, Covers Range.start Range.stop r pc := by
  have hne : ∀ r ∈ (range' 0 units.length).flatMap fun i => unitRanges o.sec lossy (offAt units i), r.start < r.stop := by
    intro r hr
    obtain ⟨i, hi, hr⟩ := mem_flatMap.mp hr
    exact hwhole.proper i (by have := mem_range'_1.mp hi; omega) r hr
  rw [index_whole hwhole, findRange_eq, Option.map_eq_some_iff]
  constructor
  · rintro ⟨r, hr, rfl⟩
    obtain ⟨hmem, hcovers⟩ := (lookBack_mergeSort_iff (by decide) hwhole.apart hne).mp hr
    obtain ⟨i, hi, hr⟩ := mem_flatMap.mp hmem
    have hunit := unit_of_mem_unitRanges hr
    rw [hunit]
    exact ⟨⟨i, by have := mem_range'_1.mp hi; omega, rfl⟩, r, hr, hcovers⟩
  · rintro ⟨⟨i, hi, rfl⟩, r, hr, hcovers⟩
    refine ⟨r, (lookBack_mergeSort_iff (by decide) hwhole.apart hne).mpr ⟨?_, hcovers⟩, unit_of_mem_unitRanges hr⟩
    exact mem_flatMap.mpr ⟨i, mem_range'_1.mpr (by omega), hr⟩

theorem listedBefore_eq (l : List Nat) (off : Nat) : listedBefore l off = (l.takeWhile (· ≤ off)).getLast? := by
  have htake := prefix_iff_eq_take.mp (@List.takeWhile_prefix _ l (· ≤ off))
  rw [listedBefore, getLast?_eq_getElem?]
  cases hlen : (l.takeWhile (· ≤ off)).length with
  | zero => 
    rw [length_eq_zero_iff.mp hlen]
    rfl
  | succ i =>
    rw [hlen] at htake
    rw [htake, Nat.add_sub_cancel, getElem?_take_of_lt (Nat.lt_succ_self i)]

/-- The unit of an entry is found where it is listed. -/
theorem containing_iff (hbytes : ∀ bs ∈ units, UnitBytes bs) (hinfo : o.sec.info = units.flatten)
    (hsorted : o.unitOffsets.Pairwise (· ≤ ·))
    (hlisted : ∀ uoff ∈ o.unitOffsets, ∃ i < units.length, uoff = offAt units i) {u : Unit} :
    containing o lossy off = some u ↔
      ((∃ i < units.length, Unit.parse o.sec lossy (offAt units i) = some u ∧ offAt units i ≤ off) ∧ off < u.endOff) ∧
        u.shape.off ∈ o.unitOffsets := by
  rw [containing, Option.bind_eq_some_iff]
  constructor
  · rintro ⟨uoff, hbefore, hu⟩
    rw [listedBefore_eq, getLast?_takeWhile_le_iff hsorted] at hbefore
    obtain ⟨⟨hmem, hle⟩, _⟩ := hbefore
    obtain ⟨hparse, hend⟩ := Option.filter_eq_some_iff.mp hu
    obtain ⟨i, hi, rfl⟩ := hlisted uoff hmem
    refine ⟨⟨⟨i, hi, hparse, hle⟩, of_decide_eq_true hend⟩, ?_⟩
    rwa [parse_off hparse]
  · rintro ⟨⟨⟨i, hi, hparse, hle⟩, hend⟩, hmem⟩
    rw [parse_off hparse] at hmem
    refine ⟨offAt units i, ?_, Option.filter_eq_some_iff.mpr ⟨hparse, decide_eq_true hend⟩⟩
    rw [listedBefore_eq, getLast?_takeWhile_le_iff hsorted]
    refine ⟨⟨hmem, hle⟩, fun x hx hxle => ?_⟩
    -- a unit behind it starts at its end or behind that
    obtain ⟨j, hj, rfl⟩ := hlisted x hx
    obtain ⟨h, hh, _, hends⟩ := parse_header hparse
    rw [hends, header_end hbytes hinfo hi hh] at hend
    by_contra hlt
    have hij : i + 1 ≤ j := by
      by_contra hji
      rcases Nat.lt_or_eq_of_le (show j ≤ i by omega) with hji | rfl
      · exact hlt (offAt_lt hbytes hji hi.le).le
      · exact hlt (Nat.le_refl _)
    rcases Nat.lt_or_eq_of_le hij with hij | rfl
    · have := offAt_lt hbytes hij hj.le
      omega
    · omega

end

/-! ## Names through listed units -/

section

variable (o : Opened) (lossy : List U8 → List U8) (recorded : Unit → Nat → Option (List U8)) (find : Nat → Option Unit)

/-- The units in which the name of an entry is looked up along its references, behind the first one. -/
def passed : Nat → Unit → Nat → Nat → List Unit
  | 0, _, _, _ => []
  | fuel + 1, u, off, hops =>
    if (recorded u off).isSome ∨ 4 < hops ∨ off < u.dieOff ∨ u.endOff ≤ off then []
    else
      (u.entryAt o.sec off).elim [] fun e =>
        if e.1.isSome then []
        else e.2.elim [] fun next => (find next).elim [] fun v => v :: passed fuel v next (hops + 1)

/-- The units in which the name of a function of a unit is looked up, but for its own one. -/
def passedBy (u : Unit) : Name → List Unit
  | .none => []
  | .direct _ => []
  | .die off =>
    if u.dieOff ≤ off ∧ off < u.endOff then passed o recorded find 6 u off 0
    else (find off).elim [] fun v => v :: passed o recorded find 6 v off 0

variable (listed : Unit → Bool) {o' : Opened}

/-- A step to a unit, if it is listed. -/
theorem bind_filter {β : Type} {x : Option Unit} {f g : Unit → Option β} {way : Unit → List Unit}
    (h : ∀ v, f v = if (way v).all listed then g v else none) :
    (x.filter listed).bind f = if (x.elim [] fun v => v :: way v).all listed then x.bind g else none := by
  cases x with
  | none => rfl
  | some v =>
    rw [Option.filter_some, Option.elim_some, all_cons]
    cases listed v with
    | false => rfl
    | true => exact h v

/-- Where only listed units are found, the name is found if all units on its way are listed. -/
theorem nameFrom_filter (fuel : Nat) (u : Unit) (off hops : Nat) :
    nameFrom o lossy recorded (fun x => (find x).filter listed) fuel u off hops =
      if (passed o recorded find fuel u off hops).all listed then nameFrom o lossy recorded find fuel u off hops else none := by
  induction fuel generalizing u off hops with
  | zero => exact (ite_self _).symm
  | succ fuel ih =>
    rw [nameFrom, nameFrom, passed]
    cases recorded u off with
    | some n => rfl
    | none =>
      by_cases hout : 4 < hops ∨ off < u.dieOff ∨ u.endOff ≤ off
      · have hstop : (none : Option (List U8)).isSome = true ∨ 4 < hops ∨ off < u.dieOff ∨ u.endOff ≤ off := .inr hout
        rw [if_pos hout, if_pos hout, if_pos hstop]
        rfl
      · have hgo : ¬ ((none : Option (List U8)).isSome = true ∨ 4 < hops ∨ off < u.dieOff ∨ u.endOff ≤ off) :=
          fun h => h.elim Bool.false_ne_true hout
        rw [if_neg hout, if_neg hout, if_neg hgo]
        cases u.entryAt o.sec off with
        | none => rfl
        | some e =>
          obtain ⟨name, next⟩ := e
          cases name with
          | some name => rfl
          | none =>
            cases next with
            | none => rfl
            | some next => exact bind_filter listed fun v => ih v next (hops + 1)

theorem nameOf_filter (u : Unit) (name : Name) :
    nameOf o lossy recorded (fun x => (find x).filter listed) u name =
      if (passedBy o recorded find u name).all listed then nameOf o lossy recorded find u name else none := by
  cases name with
  | none | direct s => rfl
  | die off =>
    rw [nameOf, nameOf, passedBy, startOf, startOf]
    by_cases hin : u.dieOff ≤ off ∧ off < u.endOff
    · rw [if_pos hin, if_pos hin, if_pos hin, Option.bind_some, Option.bind_some, nameFrom_filter]
    · rw [if_neg hin, if_neg hin, if_neg hin]
      exact bind_filter listed fun v => nameFrom_filter o lossy recorded find listed 6 v off 0

/-- Of what is read only the sections matter to a name. -/
theorem nameFrom_sec {o : Opened} (hsec : o.sec = o'.sec) (fuel : Nat) (u : Unit) (off hops : Nat) :
    nameFrom o lossy recorded find fuel u off hops = nameFrom o' lossy recorded find fuel u off hops := by
  induction fuel generalizing u off hops with
  | zero => rfl
  | succ fuel ih =>
    rw [nameFrom, nameFrom, hsec]
    simp [ih]

theorem nameOf_sec {o : Opened} (hsec : o.sec = o'.sec) (u : Unit) (name : Name) :
    nameOf o lossy recorded find u name = nameOf o' lossy recorded find u name := by
  cases name with
  | none | direct s => rfl
  | die off => simp [nameOf, nameFrom_sec lossy recorded find hsec]

end

/-! ## Answers -/

section

/-- The units in which the name of the function of a PC is looked up, but for the unit of the PC. -/
def passes (o : Opened) (lossy : List U8 → List U8) (pc : U64) : List Unit :=
  (unitOf o lossy pc).elim [] fun u =>
    ((u.walk o.sec lossy).find pc).elim [] (passedBy o (recordedIn (tablesAfter o lossy [] pc)) (containing o lossy) u)

variable {sec : Sections} {symtabRaw : List U8 × List U8} {fullOnly : Bool} {lossy : List U8 → List U8}
  {units : List (List U8)} {sets : List ArangesSet} {aranges : List U8}

theorem mem_unitOffsets_iff (hlists : Lists sec lossy units sets aranges) :
    off ∈ (openSections sec aranges symtabRaw fullOnly).unitOffsets ↔ off ∈ sets.map ArangesSet.unit := by
  rw [openSections, parseAranges_listing hlists.length hlists.bytes, mem_eraseReps, mem_mergeSort]

theorem mem_aranges_iff (hlists : Lists sec lossy units sets aranges) {pc : U64} :
    findRange (openSections sec aranges symtabRaw fullOnly).aranges pc = some off ↔
      ∃ r ∈ sets.flatMap ArangesSet.ranges, Covers Range.start Range.stop r pc ∧ r.unit = off := by
  rw [openSections, parseAranges_listing hlists.length hlists.bytes, findRange_eq, Option.map_eq_some_iff]
  constructor
  · rintro ⟨r, hr, hunit⟩
    obtain ⟨hmem, hcovers⟩ := (lookBack_mergeSort_iff (by decide) hlists.apart hlists.proper).mp hr
    exact ⟨r, hmem, hcovers, hunit⟩
  · rintro ⟨r, hmem, hcovers, hunit⟩
    exact ⟨r, (lookBack_mergeSort_iff (by decide) hlists.apart hlists.proper).mpr ⟨hmem, hcovers⟩, hunit⟩

/-- The offset of the unit of a PC. -/
def offsetOf (o : Opened) (lossy : List U8 → List U8) (pc : U64) : Option Nat :=
  (if o.fullOnly then none else findRange o.aranges pc).or (findRange (index o lossy) pc)

/-- The unit of a PC is the one that a range which covers it is listed for, or is read from. -/
theorem offsetOf_iff (hwhole : Whole sec lossy units) (hlists : Lists sec lossy units sets aranges) {pc : U64} :
    offsetOf (openSections sec aranges symtabRaw fullOnly) lossy pc = some off ↔
      (fullOnly = false ∧ ∃ r ∈ sets.flatMap ArangesSet.ranges, Covers Range.start Range.stop r pc ∧ r.unit = off) ∨
        (∃ i < units.length, off = offAt units i) ∧
          ∃ r ∈ unitRanges sec lossy off, Covers Range.start Range.stop r pc := by
  have hindex := @findRange_index_iff off (openSections sec aranges symtabRaw fullOnly) lossy units hwhole pc
  have hlisted := @mem_aranges_iff off sec symtabRaw fullOnly lossy units sets aranges hlists pc
  rw [offsetOf]
  change (if fullOnly = true then none else findRange (openSections sec aranges symtabRaw fullOnly).aranges pc).or _ = _ ↔ _
  cases fullOnly with
  | true =>
    rw [if_pos rfl, Option.none_or, hindex]
    exact (or_iff_right fun h => Bool.noConfusion h.1).symm
  | false =>
    rw [if_neg Bool.false_ne_true, Option.or_eq_some_iff, hindex, hlisted]
    constructor
    · rintro (h | ⟨-, h⟩)
      · exact .inl ⟨rfl, h⟩
      · exact .inr h
    · rintro (⟨-, h⟩ | ⟨⟨i, hi, rfl⟩, r, hr, hcovers⟩)
      · exact .inl h
      -- what is listed for the address is the unit from which it is read
      · cases hfound : findRange (openSections sec aranges symtabRaw false).aranges pc with
        | none => exact .inr ⟨rfl, ⟨i, hi, rfl⟩, r, hr, hcovers⟩
        | some off =>
          obtain ⟨r', hr', hcovers', hunit⟩ := (mem_aranges_iff hlists).mp hfound
          refine .inl ⟨r', hr', hcovers', ?_⟩
          by_contra hne
          exact (hlists.own r' hr' i hi r hr hne).not_covers hcovers' hcovers

/-- A range that covers the PC is listed, and asked for, or is read from a unit. -/
def Located (sec : Sections) (lossy : List U8 → List U8) (units : List (List U8)) (fullOnly : Bool)
    (sets : List ArangesSet) (pc : U64) : Prop :=
  (fullOnly = false ∧ ∃ r ∈ sets.flatMap ArangesSet.ranges, Covers Range.start Range.stop r pc) ∨
    ∃ i < units.length, ∃ r ∈ unitRanges sec lossy (offAt units i), Covers Range.start Range.stop r pc

variable (symtabRaw) in
theorem located_iff (hwhole : Whole sec lossy units) (hlists : Lists sec lossy units sets aranges) {pc : U64} :
    Located sec lossy units fullOnly sets pc ↔
      ∃ off, offsetOf (openSections sec aranges symtabRaw fullOnly) lossy pc = some off := by
  simp only [offsetOf_iff hwhole hlists, Located]
  constructor
  · rintro (⟨hfull, r, hr, hcovers⟩ | ⟨i, hi, r, hr, hcovers⟩)
    · exact ⟨r.unit, .inl ⟨hfull, r, hr, hcovers, rfl⟩⟩
    · exact ⟨offAt units i, .inr ⟨⟨i, hi, rfl⟩, r, hr, hcovers⟩⟩
  · rintro ⟨off, ⟨hfull, r, hr, hcovers, -⟩ | ⟨⟨i, hi, rfl⟩, r, hr, hcovers⟩⟩
    · exact .inl ⟨hfull, r, hr, hcovers⟩
    · exact .inr ⟨i, hi, r, hr, hcovers⟩

/-- A PC that is located has the unit that it has where more is listed. -/
theorem unitOf_located (hwhole : Whole sec lossy units) {full : List ArangesSet} {arangesFull : List U8}
    (hfull : Lists sec lossy units full arangesFull) (hlists : Lists sec lossy units sets aranges)
    (hpart : ∀ r ∈ sets.flatMap ArangesSet.ranges, r ∈ full.flatMap ArangesSet.ranges) {pc : U64}
    (hlocated : Located sec lossy units fullOnly sets pc) :
    unitOf (openSections sec aranges symtabRaw fullOnly) lossy pc =
      unitOf (openSections sec arangesFull symtabRaw fullOnly) lossy pc := by
  obtain ⟨off, hoff⟩ := (located_iff symtabRaw hwhole hlists).mp hlocated
  have hoff' : offsetOf (openSections sec arangesFull symtabRaw fullOnly) lossy pc = some off := by
    refine (offsetOf_iff hwhole hfull).mpr (((offsetOf_iff hwhole hlists).mp hoff).imp_left ?_)
    rintro ⟨hasked, r, hr, hcovers⟩
    exact ⟨hasked, r, hpart r hr, hcovers⟩
  exact congrArg (Option.bind · _) (hoff.trans hoff'.symm)

theorem pairwise_unitOffsets (sec : Sections) (aranges : List U8) (symtabRaw : List U8 × List U8) (fullOnly : Bool) :
    (openSections sec aranges symtabRaw fullOnly).unitOffsets.Pairwise (· ≤ ·) := by
  refine Pairwise.sublist (eraseReps_sublist _) ?_
  refine (pairwise_mergeSort ?_ ?_ _).imp of_decide_eq_true
  · exact fun a b c hab hbc => decide_eq_true ((of_decide_eq_true hab).trans (of_decide_eq_true hbc))
  · intro a b
    rw [Bool.or_eq_true, decide_eq_true_eq, decide_eq_true_eq]
    exact Nat.le_total a b

theorem containing_openSections_iff (hwhole : Whole sec lossy units) (hlists : Lists sec lossy units sets aranges)
    {u : Unit} :
    containing (openSections sec aranges symtabRaw fullOnly) lossy off = some u ↔
      ((∃ i < units.length, Unit.parse sec lossy (offAt units i) = some u ∧ offAt units i ≤ off) ∧ off < u.endOff) ∧
        u.shape.off ∈ sets.map ArangesSet.unit := by
  have hlisted : ∀ uoff ∈ (openSections sec aranges symtabRaw fullOnly).unitOffsets, ∃ i < units.length, uoff = offAt units i := by
    intro uoff h
    obtain ⟨s, hs, rfl⟩ := mem_map.mp ((mem_unitOffsets_iff hlists).mp h)
    exact hlists.listed s hs
  rw [containing_iff hwhole.bytes hwhole.info (pairwise_unitOffsets sec aranges symtabRaw fullOnly) hlisted,
    mem_unitOffsets_iff hlists]
  rfl

/-- Where the other listing has all units, less units are found. -/
theorem containing_openSections (hwhole : Whole sec lossy units) (hlists : Lists sec lossy units sets aranges)
    {full : List ArangesSet} {arangesFull : List U8} (hfull : Lists sec lossy units full arangesFull)
    (hall : ∀ i < units.length, offAt units i ∈ full.map ArangesSet.unit) :
    containing (openSections sec aranges symtabRaw fullOnly) lossy = fun off =>
      (containing (openSections sec arangesFull symtabRaw fullOnly) lossy off).filter fun u =>
        decide (u.shape.off ∈ sets.map ArangesSet.unit) := by
  funext off
  refine Option.ext fun u => ?_
  rw [containing_openSections_iff hwhole hlists, Option.filter_eq_some_iff, containing_openSections_iff hwhole hfull,
    decide_eq_true_eq]
  refine and_congr_left fun _ => (and_iff_left_of_imp ?_).symm
  rintro ⟨⟨i, hi, hparse, _⟩, _⟩
  rw [parse_off hparse]
  exact hall i hi

section

variable {o ref : Opened} {listed : Unit → Bool}

/-- The unit of a PC is read alike from two files, but the name of a function is found in the first one only if it
passes through listed units. -/
structure ReadsAlike (o ref : Opened) (lossy : List U8 → List U8) (listed : Unit → Bool) (u : Unit) : Prop where
  walk : u.walk o.sec lossy = u.walk ref.sec lossy
  lines : u.lineTable o.sec lossy = u.lineTable ref.sec lossy
  names : ∀ recorded name, nameOf o lossy recorded (containing o lossy) u name =
    if (passedBy ref recorded (containing ref lossy) u name).all listed then
      nameOf ref lossy recorded (containing ref lossy) u name
    else none

theorem readsAlike_of_sec (hsec : o.sec = ref.sec)
    (hfind : containing o lossy = fun off => (containing ref lossy off).filter listed) (u : Unit) :
    ReadsAlike o ref lossy listed u where
  walk := by rw [hsec]
  lines := by rw [hsec]
  names := by
    intro recorded name
    rw [hfind, nameOf_sec lossy _ _ hsec, nameOf_filter]

theorem ReadsAlike.bind_nameOf {u : Unit} (h : ReadsAlike o ref lossy listed u)
    (recorded : Unit → Nat → Option (List U8)) (name : Option Name) :
    name.bind (nameOf o lossy recorded (containing o lossy) u) =
      if (name.elim [] (passedBy ref recorded (containing ref lossy) u)).all listed then
        name.bind (nameOf ref lossy recorded (containing ref lossy) u)
      else none := by
  cases name with
  | none => rw [Option.bind_none, Option.bind_none, Option.elim_none, all_nil, if_pos rfl]
  | some name => rw [Option.bind_some, Option.bind_some, Option.elim_some, h.names]

/-- Where the unit of a PC is read alike, the answers are alike if the name passes through listed units only. Otherwise
the symbol is told in the place of the name. -/
theorem answerWith_readsAlike (hsym : o.symtabRaw = ref.symtabRaw) {pc : U64}
    (hunit : unitOf o lossy pc = unitOf ref lossy pc)
    (hreads : ∀ u, unitOf ref lossy pc = some u → ReadsAlike o ref lossy listed u) :
    answerWith o lossy [] pc =
      (if (passes ref lossy pc).all listed then (answerWith ref lossy [] pc).1
        else (symbolOfPc ref lossy pc).getD (utf8 "??"),
        (answerWith ref lossy [] pc).2) := by
  have hsymbol : symbolOfPc o lossy pc = symbolOfPc ref lossy pc := by rw [symbolOfPc, symbolOfPc, hsym]
  rw [answerWith, answerWith, reported, reported, hunit, passes, hsymbol]
  cases hu : unitOf ref lossy pc with
  | none => rw [Option.elim_none, Option.elim_none, Option.elim_none, all_nil, if_pos rfl]
  | some u =>
    have htables : tablesAfter o lossy [] pc = tablesAfter ref lossy [] pc := by
      rw [tablesAfter, tablesAfter, hunit, hu, Option.elim_some, Option.elim_some, withTable, withTable,
        (hreads u hu).walk]
    rw [Option.elim_some, Option.elim_some, Option.elim_some, answerOf, answerOf, htables, (hreads u hu).bind_nameOf,
      (hreads u hu).walk, (hreads u hu).lines]
    cases ((((u.walk ref.sec lossy).find pc).elim [] (passedBy ref (recordedIn (tablesAfter ref lossy [] pc))
        (containing ref lossy) u)).all listed) with
    | true => rw [if_pos rfl, if_pos rfl]
    | false => rw [if_neg Bool.false_ne_true, if_neg Bool.false_ne_true, Option.none_or]

theorem answerWith_eq_iff (hsym : o.symtabRaw = ref.symtabRaw) {pc : U64}
    (hunit : unitOf o lossy pc = unitOf ref lossy pc)
    (hreads : ∀ u, unitOf ref lossy pc = some u → ReadsAlike o ref lossy listed u) :
    answerWith o lossy [] pc = answerWith ref lossy [] pc ↔
      (∀ u ∈ passes ref lossy pc, listed u = true) ∨
        (answerWith ref lossy [] pc).1 = (symbolOfPc ref lossy pc).getD (utf8 "??") := by
  rw [answerWith_readsAlike hsym hunit hreads, ← all_eq_true]
  cases (passes ref lossy pc).all listed with
  | true => exact iff_of_true rfl (.inl rfl)
  | false =>
    rw [if_neg Bool.false_ne_true, Prod.ext_iff, and_iff_left rfl, or_iff_right Bool.false_ne_true]
    exact eq_comm

end

theorem resolve_fresh (o : Opened) (pc : U64) : (resolve o lossy pc Caches.empty).1 = answerWith o lossy [] pc := by
  obtain ⟨s, hs, _⟩ := gives_resolve tablesOk_nil pc _ (@valid_empty o lossy)
  rw [hs]

end

/-! ## Two units -/

section

/-- The two units of `acrossInfo`. -/
def acrossUnits : List (List U8) := [(acrossInfo false).take 39, (acrossInfo false).drop 39]

theorem acrossUnits_bytes : ∀ bs ∈ acrossUnits, UnitBytes bs := by
  intro bs hbs
  refine ⟨false, bs.drop 4, ?_⟩
  revert bs
  decide

theorem whole_across : Whole (acrossSections false) id acrossUnits where
  bytes := acrossUnits_bytes
  info := by decide
  headers := by decide +kernel
  proper := by decide +kernel
  apart := by
    have hranges : ((range' 0 acrossUnits.length).flatMap fun i => unitRanges (acrossSections false) id (offAt acrossUnits i)) =
        [⟨0x10#64, 0x20#64, 0⟩, ⟨0x20#64, 0x30#64, 39⟩] := by decide +kernel
    rw [hranges]
    exact pairwise_pair.mpr (.inl (by decide))

/-- The sets of `acrossAranges`. -/
def acrossSets : List ArangesSet := [⟨false, 8, 0, 0, [(0x10, 0x10)]⟩, ⟨false, 8, 0, 39, [(0x20, 0x10)]⟩]

theorem lists_across : Lists (acrossSections false) id acrossUnits acrossSets acrossAranges where
  length := by decide
  bytes := by
    have hfirst : SetBytes 0 ⟨false, 8, 0, 0, [(0x10, 0x10)]⟩ (acrossSet 0#8 0x10#8) :=
      ⟨.inr rfl, by decide, by decide, by decide, by decide, [0#8, 0#8, 0#8, 0#8], _, rfl, by decide, by decide, by decide, by decide⟩
    have hsecond : SetBytes 48 ⟨false, 8, 0, 39, [(0x20, 0x10)]⟩ (acrossSet 39#8 0x20#8) :=
      ⟨.inr rfl, by decide, by decide, by decide, by decide, [0#8, 0#8, 0#8, 0#8], _, rfl, by decide, by decide, by decide, by decide⟩
    have hboth := ListingBytes.cons hfirst (.cons hsecond (.nil _))
    rwa [append_nil] at hboth
  listed := by decide
  proper := by decide
  apart := pairwise_pair.mpr (.inl (by decide))
  own := by decide +kernel

/-- Nothing is listed. -/
theorem lists_nil (sec : Sections) (units : List (List U8)) : Lists sec id units [] [] where
  length := by decide
  bytes := .nil 0
  listed := nofun
  proper := nofun
  apart := .nil
  own := nofun

/-- The file without `.debug_aranges`. -/
def unlisted : Opened := openSections (acrossSections false) [] ([], []) false

/-- The ranges of both units are read, so that all that is lost is the listing. -/
theorem unitOf_unlisted {pc : U64} (h : pc = 0x10#64 ∨ pc = 0x20#64) :
    Located (acrossSections false) id acrossUnits false [] pc ∧ unitOf unlisted id pc = unitOf (across false) id pc := by
  have hlocated : Located (acrossSections false) id acrossUnits false [] pc := by
    refine .inr ?_
    rcases h with rfl | rfl
    · decide +kernel
    · decide +kernel
  refine ⟨hlocated, ?_⟩
  exact unitOf_located whole_across lists_across (lists_nil (acrossSections false) acrossUnits) (fun r hr => (not_mem_nil hr).elim) hlocated

/-- The name of the first function is in its entry, so that no other unit is asked. -/
theorem passes_across : passes (across false) id 0x10#64 = [] := by
  have hwalk :
      let st := walkLoop (acrossSections false) id (acrossFirst false) ((acrossSections false).info.length + 1)
        WalkState.start ⟨(acrossSections false).info, (acrossFirst false).dieOff⟩
      st.ranges = [(0x10#64, 0x20#64, 0)] ∧ st.subs = [⟨.direct (utf8 "f"), []⟩] := by
    decide +kernel
  have hfind : ((acrossFirst false).walk (acrossSections false) id).find 0x10#64 = some (.direct (utf8 "f")) := by
    rw [Unit.walk, hwalk.1, hwalk.2, mergeSort_singleton]
    rfl
  rw [passes, unitOf_acrossFirst, Option.elim_some]
  change Option.elim (((acrossFirst false).walk (acrossSections false) id).find 0x10#64) [] _ = []
  rw [hfind, Option.elim_some, passedBy]

theorem symbolOfPc_across : symbolOfPc (across false) id 0x20#64 = none := by
  have hempty : parseSymTab [] [] = [] := congrArg (map _) mergeSort_nil
  change Option.map _ (symbolBefore (parseSymTab [] []) 0x20#64) = none
  rw [hempty]
  rfl

end

end Vock.Dwarf
