import Vock.Dwarf.Unit
import Vock.Laws.Dwarf.Reader

/-!
# Range lists

What a range list denotes, in addresses that are natural numbers (`spans`), for the entries of both
formats, and the bytes of the lists. The loops of `range_list` take the ranges off the bytes in 64-bit words
(`rangesLoop_spans`, `rnglistsLoop_spans`). An attribute before version 4 is no section offset for
`read_form`, and `range_list` makes no ranges of it; from version 4 on the ranges are those of the list,
where they fit into words (`dieRanges_iff`).
-/

namespace Vock.Dwarf

open Library List

/-! ## Meaning -/

/-- An entry selects a base address, or stands for the addresses from `s` up to `e`. -/
inductive Meaning where
  | base (a : Nat)
  | range (s e : Nat)

/-- The ranges of a list, empty ones too, in order. -/
def spans {E : Type} (meaning : Nat → E → Meaning) : Nat → List E → List (Nat × Nat)
  | _, [] => []
  | base, x :: xs =>
    match meaning base x with
    | .base a => spans meaning a xs
    | .range s e => (s, e) :: spans meaning base xs

/-- A range has an address. -/
def occupied (r : Nat × Nat) : Bool := r.1 < r.2

/-- An entry of `.debug_ranges`. -/
inductive RangeEntry where
  | pair (b e : Nat)
  | base (a : Nat)

def RangeEntry.meaning (base : Nat) : RangeEntry → Meaning
  | .pair b e => .range (base + b) (base + e)
  | .base a => .base a

/-- An entry of `.debug_rnglists`. -/
inductive RnglistEntry where
  | baseAddressx (i : Nat)
  | startxEndx (i j : Nat)
  | startxLength (i l : Nat)
  | offsetPair (s e : Nat)
  | baseAddress (a : Nat)
  | startEnd (s e : Nat)
  | startLength (s l : Nat)

variable {size o : Nat} {sec : Sections} {u : Unit} {bs : List U8} {bss : List (List U8)}
  {entries : List RnglistEntry} {form version : Nat} {addrs : List Nat}

/-- The meaning of an entry, with the address table. -/
def RnglistEntry.meaning (addrs : List Nat) (base : Nat) : RnglistEntry → Meaning
  | .baseAddressx i => .base (addrs[i]?.getD 0)
  | .startxEndx i j => .range (addrs[i]?.getD 0) (addrs[j]?.getD 0)
  | .startxLength i l => .range (addrs[i]?.getD 0) (addrs[i]?.getD 0 + l)
  | .offsetPair s e => .range (base + s) (base + e)
  | .baseAddress a => .base a
  | .startEnd s e => .range s e
  | .startLength s l => .range s (s + l)

/-! ## Bytes -/

/-- The bytes of an address or an offset. -/
def addrBytes (size a : Nat) : List U8 := leBytes size (BitVec.ofNat 64 a)

/-- An entry that is neither the end of the list nor taken for a base selection, in addresses of the
size. -/
def RangeEntry.WellFormed (size : Nat) : RangeEntry → Prop
  | .pair b e => b < 2 ^ (8 * size) ∧ e < 2 ^ (8 * size) ∧ ¬ (b = 0 ∧ e = 0) ∧ b ≠ 2 ^ (8 * size) - 1
  | .base a => a < 2 ^ (8 * size)

def RangeEntry.bytes (size : Nat) : RangeEntry → List U8
  | .pair b e => addrBytes size b ++ addrBytes size e
  | .base a => addrBytes size (2 ^ (8 * size) - 1) ++ addrBytes size a

/-- The bytes of a list, with its end. -/
def rangesBytes (size : Nat) (entries : List RangeEntry) : List U8 :=
  entries.flatMap (RangeEntry.bytes size) ++ (addrBytes size 0 ++ addrBytes size 0)

/-- A number and a spelling of it that is read. -/
def UlebBytes (v : Nat) (bs : List U8) : Prop := Uleb v bs ∧ bs.length ≤ 11 ∧ v < 2 ^ 64

/-- The bytes of an entry of `.debug_rnglists`, with indices into the address table. -/
inductive RnglistEntry.Bytes (size : Nat) (addrs : List Nat) : RnglistEntry → List U8 → Prop
  | baseAddressx {i is} (h : UlebBytes i is) (known : i < addrs.length) : Bytes size addrs (.baseAddressx i) (1#8 :: is)
  | startxEndx {i j is js} (hi : UlebBytes i is) (hj : UlebBytes j js) (known : i < addrs.length ∧ j < addrs.length) :
      Bytes size addrs (.startxEndx i j) (2#8 :: (is ++ js))
  | startxLength {i l is ls} (hi : UlebBytes i is) (hl : UlebBytes l ls) (known : i < addrs.length) :
      Bytes size addrs (.startxLength i l) (3#8 :: (is ++ ls))
  | offsetPair {s e ss es} (hs : UlebBytes s ss) (he : UlebBytes e es) :
      Bytes size addrs (.offsetPair s e) (4#8 :: (ss ++ es))
  | baseAddress {a} (h : a < 2 ^ (8 * size)) : Bytes size addrs (.baseAddress a) (5#8 :: addrBytes size a)
  | startEnd {s e} (hs : s < 2 ^ (8 * size)) (he : e < 2 ^ (8 * size)) :
      Bytes size addrs (.startEnd s e) (6#8 :: (addrBytes size s ++ addrBytes size e))
  | startLength {s l ls} (hs : s < 2 ^ (8 * size)) (hl : UlebBytes l ls) :
      Bytes size addrs (.startLength s l) (7#8 :: (addrBytes size s ++ ls))

/-! ## Reading the entries -/

def toNats (r : U64 × U64) : Nat × Nat := (r.1.toNat, r.2.toNat)

/-- A range in words. -/
def wrap (r : Nat × Nat) : Nat × Nat := (r.1 % 2 ^ 64, r.2 % 2 ^ 64)

theorem word_eq_iff {m n : Nat} (hm : m < 2 ^ 64) (hn : n < 2 ^ 64) : BitVec.ofNat 64 m = BitVec.ofNat 64 n ↔ m = n := by
  constructor
  · intro h
    rw [← toNat_word hm, h, toNat_word hn]
  · exact congrArg _

/-- The sizes of an address on the targets of vock. -/
def WordSize (size : Nat) : Prop := size = 4 ∨ size = 8

theorem WordSize.addrSize (h : WordSize size) : AddrSize size := by
  rcases h with rfl | rfl
  · exact .inr (.inl rfl)
  · exact .inl rfl

theorem WordSize.pow_le (h : WordSize size) : 2 ^ (8 * size) ≤ 2 ^ 64 := by
  rcases h with rfl | rfl <;> decide

theorem WordSize.one_lt_pow (h : WordSize size) : 1 < 2 ^ (8 * size) := by
  rcases h with rfl | rfl <;> decide

section

variable {size : Nat} (hsize : WordSize size)

include hsize

theorem reads_addrBytes {a : Nat} (h : a < 2 ^ (8 * size)) : Reads (addr size) (addrBytes size a) (BitVec.ofNat 64 a) := by
  refine reads_addr hsize.addrSize ?_
  rw [toNat_word (Nat.lt_of_lt_of_le h hsize.pow_le)]
  exact h

theorem reads_addrPair {b e : Nat} (hb : b < 2 ^ (8 * size)) (he : e < 2 ^ (8 * size)) :
    Reads (addrPair size) (addrBytes size b ++ addrBytes size e) (BitVec.ofNat 64 b, BitVec.ofNat 64 e) :=
  (reads_addrBytes hsize hb).bind ((reads_addrBytes hsize he).map _)

/-- The loop before version 5 takes the ranges that are not empty, in words. -/
theorem rangesLoop_spans {entries : List RangeEntry} (hwf : ∀ x ∈ entries, x.WellFormed size) (base : U64) (fuel : Nat)
    (hfuel : entries.length < fuel) (pre post : List U8) :
    (rangesLoop size fuel ⟨pre ++ (rangesBytes size entries ++ post), pre.length⟩ base).map toNats =
      ((spans RangeEntry.meaning base.toNat entries).filter occupied).map wrap := by
  have hpow := hsize.pow_le
  have hone := hsize.one_lt_pow
  induction entries generalizing base fuel pre with
  | nil =>
    obtain ⟨fuel, rfl⟩ : ∃ n, fuel = n + 1 := ⟨fuel - 1, by omega⟩
    have hread := reads_addrPair hsize (b := 0) (e := 0) (by omega) (by omega) pre post
    rw [rangesBytes, flatMap_nil, nil_append, rangesLoop, hread]
    rfl
  | cons x xs ih =>
    obtain ⟨fuel, rfl⟩ : ∃ n, fuel = n + 1 := ⟨fuel - 1, by omega⟩
    rw [length_cons] at hfuel
    have hx := hwf x mem_cons_self
    have hnext := fun base' => ih (fun y hy => hwf y (mem_cons_of_mem x hy)) base' fuel (by omega)
      (pre ++ x.bytes size)
    have hbytes : rangesBytes size (x :: xs) ++ post = x.bytes size ++ (rangesBytes size xs ++ post) := by
      simp [rangesBytes]
    rw [append_assoc, length_append] at hnext
    rw [hbytes, rangesLoop]
    cases x with
    | pair b e =>
      obtain ⟨hb, he, hend, hmax⟩ := hx
      have hread := reads_addrPair hsize hb he pre (rangesBytes size xs ++ post)
      have hnotEnd : ¬ (BitVec.ofNat 64 b = 0#64 ∧ BitVec.ofNat 64 e = 0#64) := by
        rw [word_eq_iff (by omega) (by omega), word_eq_iff (by omega) (by omega)]
        exact hend
      have hnotBase : ¬ BitVec.ofNat 64 b = BitVec.ofNat 64 (2 ^ (8 * size) - 1) := by
        rw [word_eq_iff (by omega) (by omega)]
        exact hmax
      have hlt : BitVec.ofNat 64 b < BitVec.ofNat 64 e ↔ occupied (base.toNat + b, base.toNat + e) = true := by
        rw [BitVec.lt_def, toNat_word (by omega), toNat_word (by omega), occupied, decide_eq_true_iff]
        omega
      rw [RangeEntry.bytes, hread]
      simp only [hnotEnd, hnotBase, if_false, spans, RangeEntry.meaning, filter_cons, ← hlt, map_append]
      rw [← RangeEntry.bytes, hnext]
      split
      next =>
        rw [map_cons, toNats, BitVec.toNat_add, BitVec.toNat_add, toNat_word (by omega),
          toNat_word (by omega)]
        rfl
      next => rfl
    | base a =>
      have ha : a < 2 ^ (8 * size) := hx
      have hread := reads_addrPair hsize (b := 2 ^ (8 * size) - 1) (by omega) ha pre (rangesBytes size xs ++ post)
      have hnotEnd : ¬ (BitVec.ofNat 64 (2 ^ (8 * size) - 1) = 0#64 ∧ BitVec.ofNat 64 a = 0#64) := by
        rw [word_eq_iff (by omega) (by omega)]
        omega
      rw [RangeEntry.bytes, hread]
      simp only [hnotEnd, if_true, if_false, spans, RangeEntry.meaning]
      rw [RangeEntry.bytes] at hnext
      rw [hnext, toNat_word (by omega)]

end

/-- The address table of a unit. -/
def AddrTable (sec : Sections) (u : Unit) (addrs : List Nat) : Prop :=
  ∀ i a, addrs[i]? = some a →
    a < 2 ^ (8 * u.shape.addrSize) ∧ Found (addrBytes u.shape.addrSize a) sec.addr (u.addrBase + i * u.shape.addrSize)

/-- What an entry does in words, and what it means. -/
inductive RngEntry.Means : RngEntry → Meaning → Prop
  | base {b : U64} {a : Nat} (h : b.toNat = a) : Means (.base b) (.base a)
  | pair {s e : U64} {start stop : Nat} (h : toNats (s, e) = wrap (start, stop)) :
      Means (.pair (some s) (some e)) (.range start stop)

section

variable {sec : Sections} {u : Unit} {addrs : List Nat} (hword : WordSize u.shape.addrSize)
  (htable : AddrTable sec u addrs)
include hword htable

theorem address_addrx {i : Nat} (hi : i < addrs.length) (hlt : i < 2 ^ 64) :
    u.address sec (.addrx (BitVec.ofNat 64 i)) = some (BitVec.ofNat 64 (addrs[i]?.getD 0)) := by
  obtain ⟨ha, hat⟩ := htable i addrs[i] (getElem?_eq_getElem hi)
  have hrun : addr u.shape.addrSize ⟨sec.addr, _⟩ = _ := (reads_addrBytes hword ha).runs hat
  rw [Unit.address, toNat_word hlt, hrun, getElem?_eq_getElem hi]
  rfl

/-- An entry is read off its bytes for what it means. -/
theorem reads_rngEntry {x : RnglistEntry} (hbytes : x.Bytes u.shape.addrSize addrs bs) (base : U64) :
    ∃ r, Reads (le 1 >>= readRngEntry sec u base) bs r ∧ r.Means (x.meaning addrs base.toNat) := by
  have hpow := hword.pow_le
  have hknown : ∀ i, i < addrs.length → addrs[i]?.getD 0 < 2 ^ 64 := by
    intro i hi
    have := (htable i addrs[i] (getElem?_eq_getElem hi)).1
    rw [getElem?_eq_getElem hi, Option.getD_some]
    omega
  have hkind : ∀ {k : U64} {s : List U8} {r : RngEntry}, k.toNat < 2 ^ 8 → Reads (readRngEntry sec u base k) s r →
      Reads (le 1 >>= readRngEntry sec u base) (leBytes 1 k ++ s) r := fun hk hread => (reads_le hk).bind hread
  cases hbytes with
  | @baseAddressx i is hi known =>
    refine ⟨_, hkind (k := 1#64) (by decide) ((reads_uleb hi.1 hi.2.1).map _), .base ?_⟩
    beta_reduce
    rw [address_addrx hword htable known hi.2.2, Option.getD_some, toNat_word (hknown i known)]
  | @startxEndx i j is js hi hj known =>
    refine ⟨_, hkind (k := 2#64) (by decide) ((reads_uleb hi.1 hi.2.1).bind ((reads_uleb hj.1 hj.2.1).map _)), ?_⟩
    beta_reduce
    rw [address_addrx hword htable known.1 hi.2.2, address_addrx hword htable known.2 hj.2.2]
    refine .pair ?_
    rw [toNats, BitVec.toNat_ofNat, BitVec.toNat_ofNat, wrap]
  | @startxLength i l is ls hi hl known =>
    refine ⟨_, hkind (k := 3#64) (by decide) ((reads_uleb hi.1 hi.2.1).bind ((reads_uleb hl.1 hl.2.1).map _)), ?_⟩
    beta_reduce
    rw [address_addrx hword htable known hi.2.2, Option.map_some]
    refine .pair ?_
    rw [toNats, ← BitVec.ofNat_add, BitVec.toNat_ofNat, BitVec.toNat_ofNat, wrap]
  | @offsetPair s e ss es hs he =>
    refine ⟨_, hkind (k := 4#64) (by decide) ((reads_uleb hs.1 hs.2.1).bind ((reads_uleb he.1 he.2.1).map _)), .pair ?_⟩
    rw [toNats, BitVec.toNat_add, BitVec.toNat_add, toNat_word hs.2.2, toNat_word he.2.2, wrap]
  | @baseAddress a ha =>
    refine ⟨_, hkind (k := 5#64) (by decide) ((reads_addrBytes hword ha).map _), .base ?_⟩
    exact toNat_word (by omega)
  | @startEnd s e hs he =>
    refine ⟨_, hkind (k := 6#64) (by decide) ((reads_addrBytes hword hs).bind ((reads_addrBytes hword he).map _)), .pair ?_⟩
    rw [toNats, BitVec.toNat_ofNat, BitVec.toNat_ofNat, wrap]
  | @startLength s l ls hs hl =>
    refine ⟨_, hkind (k := 7#64) (by decide) ((reads_addrBytes hword hs).bind ((reads_uleb hl.1 hl.2.1).map _)), .pair ?_⟩
    rw [toNats, ← BitVec.ofNat_add, BitVec.toNat_ofNat, BitVec.toNat_ofNat, wrap]

/-- The loop from version 5 on takes the ranges in words, and leaves those that are empty there. -/
theorem rnglistsLoop_spans (hbytes : List.Forall₂ (RnglistEntry.Bytes u.shape.addrSize addrs) entries bss) (base : U64)
    (fuel : Nat) (hfuel : entries.length < fuel) (pre post : List U8) :
    (rnglistsLoop sec u fuel ⟨pre ++ (bss.flatten ++ 0#8 :: post), pre.length⟩ base).map toNats =
      ((spans (RnglistEntry.meaning addrs) base.toNat entries).map wrap).filter occupied := by
  induction hbytes generalizing base fuel pre with
  | nil =>
    obtain ⟨fuel, rfl⟩ : ∃ n, fuel = n + 1 := ⟨fuel - 1, by omega⟩
    have hread : Reads (le 1 >>= readRngEntry sec u base) [0#8] .stop :=
      (reads_le (v := 0#64) (by decide)).bind (reads_pure RngEntry.stop)
    rw [flatten_nil, nil_append, rnglistsLoop, ← singleton_append, hread pre post]
    rfl
  | @cons x bs xs bss hx _ ih =>
    obtain ⟨fuel, rfl⟩ : ∃ n, fuel = n + 1 := ⟨fuel - 1, by omega⟩
    rw [length_cons] at hfuel
    have hnext := fun base' => ih base' fuel (by omega) (pre ++ bs)
    rw [append_assoc, length_append] at hnext
    obtain ⟨r, hread, hmeans⟩ := reads_rngEntry hword htable hx base
    rw [flatten_cons, append_assoc, rnglistsLoop, hread pre, spans]
    generalize x.meaning addrs base.toNat = m at hmeans
    cases hmeans with
    | base ha =>
      rw [hnext, ha]
    | @pair s e start stop h =>
      have hlt : s < e ↔ occupied (wrap (start, stop)) = true := by
        rw [← h, toNats, occupied, decide_eq_true_iff, BitVec.lt_def]
      simp only [pairRange, map_append, map_cons, filter_cons, ← hlt]
      rw [hnext]
      split
      next => rw [map_singleton, h, singleton_append]
      next => rfl

end

/-! ## The attribute -/

/-- The bytes of `DW_AT_ranges` in a form of the version, for a list at an offset. -/
inductive RefersTo (sec : Sections) (u : Unit) : Nat → List U8 → Nat → Prop
  | data4 {o : Nat} (version : u.shape.version ≤ 3) (h : o < 2 ^ 32) :
      RefersTo sec u 0x06 (leBytes 4 (BitVec.ofNat 64 o)) o
  | data8 {o : Nat} (version : u.shape.version ≤ 3) (h : o < 2 ^ 64) :
      RefersTo sec u 0x07 (leBytes 8 (BitVec.ofNat 64 o)) o
  | secOffset {o : Nat} (version : 4 ≤ u.shape.version) (h : o < 2 ^ (8 * offSize u.shape.format64)) :
      RefersTo sec u 0x17 (leBytes (offSize u.shape.format64) (BitVec.ofNat 64 o)) o
  | rnglistx {i rel : Nat} {is : List U8} (version : u.shape.version = 5) (hi : UlebBytes i is)
      (h : rel < 2 ^ (8 * offSize u.shape.format64))
      (entry : Found (leBytes (offSize u.shape.format64) (BitVec.ofNat 64 rel)) sec.rnglists
        (u.rnglistsBase + i * offSize u.shape.format64)) :
      RefersTo sec u 0x23 is (u.rnglistsBase + rel)

/-- The list of a unit at an offset, and its ranges from the base address of the unit on. -/
inductive RangesAt (sec : Sections) (u : Unit) (o : Nat) : List (Nat × Nat) → Prop
  | ranges {entries : List RangeEntry} (version : u.shape.version < 5)
      (wf : ∀ x ∈ entries, x.WellFormed u.shape.addrSize)
      (bytes : Found (rangesBytes u.shape.addrSize entries) sec.ranges o) :
      RangesAt sec u o (spans RangeEntry.meaning (u.base sec).toNat entries)
  | rnglists {entries : List RnglistEntry} {addrs : List Nat} {bss : List (List U8)} (version : u.shape.version = 5)
      (table : AddrTable sec u addrs)
      (each : List.Forall₂ (RnglistEntry.Bytes u.shape.addrSize addrs) entries bss)
      (bytes : Found (bss.flatten ++ [0#8]) sec.rnglists o) :
      RangesAt sec u o (spans (RnglistEntry.meaning addrs) (u.base sec).toNat entries)

/-- The offset is that of a value the attribute is read to, from version 4 on. -/
theorem RefersTo.reads (h : RefersTo sec u form bs o)
    (hlen : sec.rnglists.length < 2 ^ 64) (ho : u.shape.version = 5 → o < 2 ^ 64) (hversion : 4 ≤ u.shape.version)
    (implicit : U64) :
    ∃ v, Reads (readForm form u.shape implicit) bs v ∧ rnglistOff sec u v = some o ∧
      (u.shape.version < 5 → v = .secOff o) := by
  cases h with
  | data4 version h | data8 version h => omega
  | secOffset version h =>
    exact ⟨.secOff o, reads_readForm (.offset (by simp [offForms]) h), rfl, fun _ => rfl⟩
  | @rnglistx i rel is version hi h entry =>
    refine ⟨.rnglistx (BitVec.ofNat 64 i), reads_readForm (.uleb (by simp [ulebForms]) hi.1 hi.2.1), ?_, by omega⟩
    have hpos := entry.le_length
    have hrun : off u.shape.format64 ⟨sec.rnglists, _⟩ = _ := (reads_off h).runs entry
    rw [rnglistOff, toNat_word hi.2.2, Nat.mod_eq_of_lt (by omega), hrun]
    dsimp only
    rw [Nat.mod_eq_of_lt (ho version)]

/-- Before version 4 the value is a number, and no ranges are made of it. -/
theorem RefersTo.reads_udata (h : RefersTo sec u form bs o)
    (hversion : u.shape.version ≤ 3) (implicit : U64) :
    ∃ n, Reads (readForm form u.shape implicit) bs (.udata n) := by
  cases h with
  | data4 version h =>
    exact ⟨_, reads_readForm (.fixed (by simp [fixedForms]) (by rw [toNat_word (by omega)]; exact h))⟩
  | data8 version h =>
    exact ⟨_, reads_readForm (.fixed (by simp [fixedForms]) (by rw [toNat_word (by omega)]; exact h))⟩
  | secOffset version h | rnglistx version => omega

/-- A range is given back: if it has an address, the version is one with section offsets and the range ends
within the words, and in version 5 it is not one of the words only. -/
def Carried (version : Nat) (r : Nat × Nat) : Prop :=
  (occupied r = true → 4 ≤ version ∧ r.2 < 2 ^ 64) ∧ (version = 5 → occupied (wrap r) = true → occupied r = true)

theorem wrap_of_lt {r : Nat × Nat} (h : occupied r = true) (hlt : r.2 < 2 ^ 64) : wrap r = r := by
  rw [occupied, decide_eq_true_iff] at h
  rw [wrap, Nat.mod_eq_of_lt (by omega), Nat.mod_eq_of_lt hlt]

theorem wrap_snd_lt (r : Nat × Nat) : (wrap r).2 < 2 ^ 64 := Nat.mod_lt _ (by decide)

/-- The ranges of version 4 are those of the list exactly if none ends behind the words. -/
theorem map_wrap_iff (rs : List (Nat × Nat)) :
    (rs.filter occupied).map wrap = rs.filter occupied ↔ ∀ r ∈ rs, occupied r = true → r.2 < 2 ^ 64 := by
  constructor
  · intro heq r hr hocc
    have hmem : r ∈ (rs.filter occupied).map wrap := by
      rw [heq]
      exact mem_filter.mpr ⟨hr, hocc⟩
    obtain ⟨r', _, rfl⟩ := mem_map.mp hmem
    exact wrap_snd_lt r'
  · intro h
    refine (map_congr_left fun r hr => ?_).trans (map_id _)
    obtain ⟨hr, hocc⟩ := mem_filter.mp hr
    exact wrap_of_lt hocc (h r hr hocc)

/-- The ranges of version 5 are those of the list exactly if none ends behind the words and the words
make none of an empty one. -/
theorem filter_wrap_iff (rs : List (Nat × Nat)) :
    (rs.map wrap).filter occupied = rs.filter occupied ↔
      ∀ r ∈ rs, (occupied r = true → r.2 < 2 ^ 64) ∧ (occupied (wrap r) = true → occupied r = true) := by
  rw [filter_map]
  constructor
  · intro heq
    have hends : ∀ r ∈ rs, occupied r = true → r.2 < 2 ^ 64 := by
      intro r hr hocc
      have hmem : r ∈ (rs.filter (occupied ∘ wrap)).map wrap := by
        rw [heq]
        exact mem_filter.mpr ⟨hr, hocc⟩
      obtain ⟨r', _, rfl⟩ := mem_map.mp hmem
      exact wrap_snd_lt r'
    -- the ranges with an address are among those with one in words, and as many
    have hsub : (rs.filter (occupied ∘ wrap)).filter occupied = rs.filter occupied := by
      rw [filter_filter]
      refine filter_congr fun r hr => ?_
      cases hocc : occupied r with
      | false => rfl
      | true => rw [Function.comp_apply, wrap_of_lt hocc (hends r hr hocc), hocc, Bool.and_self]
    have hlen : ((rs.filter (occupied ∘ wrap)).filter occupied).length = (rs.filter (occupied ∘ wrap)).length := by
      rw [hsub, ← heq, length_map]
    intro r hr
    exact ⟨hends r hr, fun hwrap => length_filter_eq_length_iff.mp hlen r (mem_filter.mpr ⟨hr, hwrap⟩)⟩
  · intro h
    have hsame : rs.filter (occupied ∘ wrap) = rs.filter occupied := by
      refine filter_congr fun r hr => Bool.eq_iff_iff.mpr ⟨(h r hr).2, fun hocc => ?_⟩
      rw [Function.comp_apply, wrap_of_lt hocc ((h r hr).1 hocc), hocc]
    rw [hsame]
    exact (map_wrap_iff rs).mpr fun r hr => (h r hr).1

/-! ## What `die_ranges` makes of the list -/

theorem length_le_rangesBytes (hsize : WordSize size) (entries : List RangeEntry) :
    entries.length < (rangesBytes size entries).length := by
  have heach : ∀ x : RangeEntry, 1 ≤ (x.bytes size).length := by
    intro x
    cases x <;> simp only [RangeEntry.bytes, addrBytes, length_append, length_leBytes] <;>
      rcases hsize with rfl | rfl <;> omega
  induction entries with
  | nil =>
    simp only [rangesBytes, addrBytes, length_append, length_leBytes,
      length_nil]
    rcases hsize with rfl | rfl <;> omega
  | cons x xs ih =>
    have hx := heach x
    simp only [rangesBytes, flatMap_cons, length_append, length_cons] at ih ⊢
    omega

theorem length_le_flatten
    (h : List.Forall₂ (RnglistEntry.Bytes size addrs) entries bss) : entries.length ≤ bss.flatten.length := by
  induction h with
  | nil => exact Nat.le_refl 0
  | @cons x bs _ _ hx _ ih =>
    have hpos : 1 ≤ bs.length := by
      cases hx <;> exact Nat.succ_pos _
    rw [flatten_cons, length_append, length_cons]
    omega

/-- The list before version 5, at its place in the section. -/
theorem rangesLoop_section (hword : WordSize u.shape.addrSize)
    {entries : List RangeEntry} (hwf : ∀ x ∈ entries, x.WellFormed u.shape.addrSize)
    (hbytes : Found (rangesBytes u.shape.addrSize entries) sec.ranges o) (base : U64) :
    (rangesLoop u.shape.addrSize (sec.ranges.length + 1) ⟨sec.ranges, o⟩ base).map toNats =
      ((spans RangeEntry.meaning base.toNat entries).filter occupied).map wrap := by
  have hlen := length_le_rangesBytes hword entries
  have hin := hbytes.le_length
  obtain ⟨pre, post, hdata, rfl⟩ := hbytes
  have hloop := rangesLoop_spans hword hwf base (sec.ranges.length + 1) (by omega) pre post
  rwa [← hdata] at hloop

/-- The list of version 5, at its place in the section. -/
theorem rnglistsLoop_section (hword : WordSize u.shape.addrSize)
    (htable : AddrTable sec u addrs)
    (heach : List.Forall₂ (RnglistEntry.Bytes u.shape.addrSize addrs) entries bss)
    (hbytes : Found (bss.flatten ++ [0#8]) sec.rnglists o) (base : U64) :
    (rnglistsLoop sec u (sec.rnglists.length + 1) ⟨sec.rnglists, o⟩ base).map toNats =
      ((spans (RnglistEntry.meaning addrs) base.toNat entries).map wrap).filter occupied := by
  have hlen := length_le_flatten heach
  have hin := hbytes.le_length
  rw [length_append] at hin
  obtain ⟨pre, post, hdata, rfl⟩ := hbytes
  have hloop := rnglistsLoop_spans hword htable heach base (sec.rnglists.length + 1) (by omega) pre post
  rw [← singleton_append, ← append_assoc bss.flatten] at hloop
  rwa [← hdata] at hloop

/-- Before version 4 no range is carried. -/
theorem carried_old_iff (h : version ≤ 3) (rs : List (Nat × Nat)) :
    [] = rs.filter occupied ↔ ∀ r ∈ rs, Carried version r := by
  rw [eq_comm, filter_eq_nil_iff]
  refine forall₂_congr fun r _ => ⟨fun hocc => ⟨fun h => absurd h hocc, by omega⟩, fun hcarried hocc => ?_⟩
  have := (hcarried.1 hocc).1
  omega

theorem carried_four_iff (rs : List (Nat × Nat)) :
    (rs.filter occupied).map wrap = rs.filter occupied ↔ ∀ r ∈ rs, Carried 4 r := by
  rw [map_wrap_iff]
  refine forall₂_congr fun r _ => ⟨fun h => ⟨fun hocc => ⟨Nat.le_refl 4, h hocc⟩, by omega⟩, fun h hocc => (h.1 hocc).2⟩

theorem carried_five_iff (rs : List (Nat × Nat)) :
    (rs.map wrap).filter occupied = rs.filter occupied ↔ ∀ r ∈ rs, Carried 5 r := by
  rw [filter_wrap_iff]
  refine forall₂_congr fun r _ => ⟨fun h => ⟨fun hocc => ⟨by omega, h.1 hocc⟩, fun _ => h.2⟩, fun h => ?_⟩
  exact ⟨fun hocc => (h.1 hocc).2, h.2 rfl⟩

/-- The attribute gives the ranges of the list that are not empty, in order, exactly if all of them are
carried: none before version 4, and those within the words from then on. -/
theorem dieRanges_iff {sec : Sections} {u : Unit} {form o : Nat} {bs : List U8} {rs : List (Nat × Nat)}
    (hword : WordSize u.shape.addrSize) (hlen : sec.rnglists.length < 2 ^ 64) (href : RefersTo sec u form bs o)
    (hat : RangesAt sec u o rs) (implicit : U64) (lo hi : Option Val) :
    (∃ v, Reads (readForm form u.shape implicit) bs v ∧ (u.dieRanges sec lo hi (some v)).map toNats = rs.filter occupied) ↔
      ∀ r ∈ rs, Carried u.shape.version r := by
  rcases Nat.lt_or_ge 3 u.shape.version with hnew | hold
  · have hoff : u.shape.version = 5 → o < 2 ^ 64 := by
      intro h5
      cases hat with
      | ranges version => omega
      | rnglists version table each bytes =>
        exact Nat.lt_of_le_of_lt (Nat.le_trans (Nat.le_add_right o _) bytes.le_length) hlen
    obtain ⟨v, hread, hrnglist, hsecOff⟩ := href.reads hlen hoff hnew implicit
    rw [hread.exists_iff fun v => (u.dieRanges sec lo hi (some v)).map toNats = rs.filter occupied, Unit.dieRanges]
    cases hat with
    | ranges version wf bytes =>
      have hfour : u.shape.version = 4 := by omega
      simp only [hsecOff version, Unit.rangeList, if_pos version]
      rw [rangesLoop_section hword wf bytes, carried_four_iff, hfour]
    | rnglists version table each bytes =>
      simp only [Unit.rangeList, if_neg (show ¬ u.shape.version < 5 by omega), hrnglist]
      rw [rnglistsLoop_section hword table each bytes, carried_five_iff, version]
  · obtain ⟨n, hread⟩ := href.reads_udata hold implicit
    rw [hread.exists_iff fun v => (u.dieRanges sec lo hi (some v)).map toNats = rs.filter occupied, Unit.dieRanges]
    simp only [Unit.rangeList, if_pos (show u.shape.version < 5 by omega)]
    exact carried_old_iff hold rs

/-- A pair, and behind another base an empty pair and one at the base. -/
def pairEntries : List RangeEntry := [.pair 0x10 0x20, .base 0x100, .pair 8 8, .pair 0 0x10]

/-- The sections with a range list of these entries. -/
def pairSections : Sections :=
  { info := [], abbrevs := [], str := [], line := [], lineStr := [], ranges := rangesBytes 8 pairEntries,
    rnglists := [], addr := [], strOffsets := [] }

/-- A unit of a version, without a base address. -/
def plainUnit (version : Nat) : Unit :=
  { shape := { off := 0, version := version, format64 := false, addrSize := 8 }, endOff := 0, dieOff := 0,
    abbrevs := ⟨[]⟩, lang := 0, compDir := none, stmtList := none, lowPc := none, highPc := none, ranges := none,
    strOffsetsBase := 0, addrBase := 0, rnglistsBase := 0 }

/-- Their ranges, the empty one too. -/
def pairRanges : List (Nat × Nat) := [(0x10, 0x20), (0x108, 0x108), (0x100, 0x110)]

theorem rangesAt_pair (h : version < 5) : RangesAt pairSections (plainUnit version) 0 pairRanges := by
  have hentries : ∀ x ∈ pairEntries, x.WellFormed 8 := by
    simp only [pairEntries, forall_mem_cons, RangeEntry.WellFormed]
    exact ⟨by decide, by decide, by decide, by decide, nofun⟩
  have hfound : Found (rangesBytes 8 pairEntries) pairSections.ranges 0 := ⟨[], [], (append_nil _).symm, rfl⟩
  exact RangesAt.ranges (u := plainUnit version) h hentries hfound

theorem dieRanges_iff_pair :
    (∃ v, Reads (readForm 0x17 (plainUnit 4).shape 0#64) (leBytes 4 0#64) v ∧
        ((plainUnit 4).dieRanges pairSections none none (some v)).map toNats = pairRanges.filter occupied) ↔
      ∀ r ∈ pairRanges, Carried 4 r :=
  dieRanges_iff (.inr rfl) (by decide) (.secOffset (u := plainUnit 4) (Nat.le_refl 4) (by decide))
    (rangesAt_pair (by decide)) 0#64 none none

/-- In version 3 the attribute is a number, and the ranges of its list are lost. -/
theorem ranges_lost :
    RefersTo pairSections (plainUnit 3) 0x06 (leBytes 4 0#64) 0 ∧
      RangesAt pairSections (plainUnit 3) 0 pairRanges ∧
      Reads (readForm 0x06 (plainUnit 3).shape 0#64) (leBytes 4 0#64) (.udata 0#64) ∧
      (plainUnit 3).dieRanges pairSections none none (some (.udata 0#64)) = [] :=
  ⟨.data4 (Nat.le_refl 3) (by decide), rangesAt_pair (by decide),
    reads_readForm (.fixed (n := 4) (by simp [fixedForms]) (by decide)), rfl⟩

end Vock.Dwarf
