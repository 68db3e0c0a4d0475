import Vock.Fuzz.Btf
import Vock.Mode.Vmlinux

/-!
# The sections of an ELF file

`load_vmlinux_text` and `find_elf_btf` read the same section table of a file that may hold anything, each with its own
tests of the bounds. Some fields are used without one: `load_vmlinux_text` reads the header of the names wherever the
table puts it, and adds offsets of the file before it compares them with its length; `find_elf_btf` cuts the file where
a name begins.

`section_readers_iff` says for which files nothing stops either of them. The condition speaks of the fields of the file
only, and only of those headers that the loops come to (`Reached`, `Passed`): a loop ends at a header that is cut off,
and at the section it looks for, so what the table says behind that is free. In the same theorem what
`load_vmlinux_text` gives is the contents, the address and the size of a section named `.text` that lies inside the file
(`IsText`); this part needs no condition.

Nothing is said of the section that `find_elf_btf` gives, which `Btf::open` tests again before it reads it, nor of which
one is given where several sections are named `.text`. A sum that is too large is a fault here, as it is where overflow
is checked; the first two files of `tables_behind_file` run into a bound, which every build checks.
-/

namespace Vock.Mode

open Library Checked List

variable {map : List U8} {β : Type}

/-! ## The table -/

/-- The number of `n` bytes at an offset. -/
def num (n : Nat) (map : List U8) (o : Nat) : U64 := leValue ((map.drop o).take n)

/-- Where a section header is. -/
def header (map : List U8) (i : Nat) : Nat := (num 8 map 0x28).toNat + i * (num 2 map 0x3a).toNat

/-- Where the names of the sections are. -/
def names (map : List U8) : Nat := (num 8 map (header map (num 2 map 0x3e).toNat + 0x18)).toNat

def namePos (map : List U8) (i : Nat) : Nat := names map + (num 4 map (header map i)).toNat

def start (map : List U8) (i : Nat) : Nat := (num 8 map (header map i + 0x18)).toNat

def size (map : List U8) (i : Nat) : Nat := (num 8 map (header map i + 0x20)).toNat

/-- A name, with the zero behind it. -/
def Named (map : List U8) (pos : Nat) : Prop := (map.drop pos).take 5 = utf8 ".text" ∧ map[pos + 5]? = some 0#8

instance (map : List U8) (pos : Nat) : Decidable (Named map pos) := inferInstanceAs (Decidable (_ ∧ _))

/-- A section named `.text` inside the file: its contents, its address and its size. -/
def IsText (map : List U8) (r : List U8 × U64 × Nat) : Prop :=
  ∃ i < (num 2 map 0x3c).toNat, Named map (namePos map i) ∧ start map i + size map i ≤ map.length ∧
    r = ((map.drop (start map i)).take (size map i), num 8 map (header map i + 0x10), size map i)

/-! ## load_vmlinux_text -/

theorem rdNum_eq {n o : Nat} (h : o + n ≤ map.length) : rdNum n map o = pure (num n map o) := by
  rw [rdNum, slice_eq (by omega) h, Nat.add_sub_cancel_left]
  rfl

theorem rdNum_bind {n o : Nat} {k : U64 → Checked β} {R : β → Prop} :
    Returns (rdNum n map o >>= k) R ↔ o + n ≤ map.length ∧ Returns (k (num n map o)) R := by
  rw [rdNum, map_eq_pure_bind, bind_assoc]
  simp only [pure_bind]
  rw [Returns.slice_bind, Nat.add_sub_cancel_left, and_iff_right (Nat.le_add_right o n)]
  rfl

theorem sectionNameIs_lt {pos : Nat} {k : Bool → Checked β} {R : β → Prop}
    (h : Returns (sectionNameIs map pos (utf8 ".text") >>= k) R) : pos + 5 < 2 ^ 64 := by
  rw [sectionNameIs, bind_assoc, Returns.fit_bind] at h
  exact h.1

theorem sectionNameIs_eq {pos : Nat} (hpos : pos + 5 < 2 ^ 64) :
    sectionNameIs map pos (utf8 ".text") = pure (decide (Named map pos)) := by
  have hlength : (utf8 ".text").length = 5 := by decide
  rw [sectionNameIs, hlength, fit_eq hpos, pure_bind]
  split
  next hend => simp [Named, getElem?_eq_none hend]
  next hend =>
    have hlt : pos + 5 < map.length := by omega
    rw [slice_eq (by omega) (by omega), Checked.get]
    simp [Named, getElem?_eq_getElem hlt]

/-! ### What the loop comes to -/

/-- The loop of `load_vmlinux_text` comes to a header where each one in front of it is inside the file and is not that
of the text. -/
def Reached (map : List U8) (i : Nat) : Prop :=
  ∀ j < i, header map j + 0x28 ≤ map.length ∧ ¬ Named map (namePos map j)

/-- What a header has to say for `load_vmlinux_text` to go on: the name that it compares ends at an address, and so does
the text. -/
structure TextEntry (map : List U8) (i : Nat) : Prop where
  name : namePos map i + 5 < 2 ^ 64
  stop : Named map (namePos map i) → start map i + size map i < 2 ^ 64

/-- What `load_vmlinux_text` asks of a file in which it looks for a section at all. -/
def TextReadable (map : List U8) : Prop :=
  64 ≤ map.length → (num 2 map 0x3a).toNat ≠ 0 → (num 8 map 0x28).toNat ≠ 0 →
    (num 2 map 0x3e).toNat < (num 2 map 0x3c).toNat →
      header map (num 2 map 0x3e).toNat + 0x20 ≤ map.length ∧
        ∀ i < (num 2 map 0x3c).toNat, Reached map i → header map i + 0x28 ≤ map.length → TextEntry map i

theorem header_succ (map : List U8) (i : Nat) : header map (i + 1) = header map i + (num 2 map 0x3a).toNat := by
  rw [header, header, Nat.succ_mul, Nat.add_assoc]

theorem header_mono (map : List U8) {i j : Nat} (h : i ≤ j) : header map i ≤ header map j :=
  Nat.add_le_add_left (Nat.mul_le_mul_right _ h) _

theorem Reached.succ {i : Nat} (h : Reached map i) (hin : header map i + 0x28 ≤ map.length)
    (hnamed : ¬ Named map (namePos map i)) : Reached map (i + 1) := by
  intro j hj
  rcases Nat.lt_succ_iff_lt_or_eq.mp hj with hj | rfl
  · exact h j hj
  · exact ⟨hin, hnamed⟩

/-- The loop comes to no header that does not start at an address: it starts inside the file, and so does the one in
front. -/
theorem Reached.header_lt {i : Nat} (h : Reached map i) (hmax : map.length < 2 ^ 63)
    (hfirst : header map 0 ≤ map.length) : header map i + 0x28 < 2 ^ 64 := by
  cases i with
  | zero => omega
  | succ i =>
    have hsize : (num 2 map 0x3a).toNat < 2 ^ (8 * 2) := toNat_leValue_lt (length_take_le _ _)
    have := (h i (Nat.lt_succ_self i)).1
    rw [header_succ]
    omega

/-- The loop from a header on that it comes to. -/
theorem textSection_returns_iff (hmax : map.length < 2 ^ 63) (hfirst : header map 0 ≤ map.length) {n k : Nat}
    (hk : Reached map k) (hnum : k + n ≤ (num 2 map 0x3c).toNat) :
    Returns (textSection map (num 8 map 0x28).toNat (num 2 map 0x3a).toNat (names map) (range' k n)) (IsText map) ↔
      ∀ i, k ≤ i → i < k + n → Reached map i → header map i + 0x28 ≤ map.length → TextEntry map i := by
  induction n generalizing k with
  | zero =>
    refine iff_of_true Returns.giveUp fun i hki hik => ?_
    omega
  | succ n ih =>
    have hlt := hk.header_lt hmax hfirst
    rw [range'_succ, textSection, ← header, Returns.fit_bind, Returns.fit_bind]
    by_cases hin : header map k + 0x28 ≤ map.length
    case neg =>
      -- A header that is cut off ends the loop.
      rw [if_pos (by omega)]
      refine iff_of_true ⟨by omega, by omega, Returns.giveUp⟩ fun i hki hik hi hinside => ?_
      rcases Nat.eq_or_lt_of_le hki with rfl | hki
      · exact absurd hinside hin
      · exact absurd (hi k hki).1 hin
    rw [if_neg (by omega), rdNum_eq (by omega), pure_bind, ← namePos, Returns.fit_bind]
    by_cases hname : namePos map k + 5 < 2 ^ 64
    case neg =>
      refine iff_of_false (fun h => hname (sectionNameIs_lt h.2.2.2)) fun h => ?_
      exact hname (h k (Nat.le_refl k) (by omega) hk hin).name
    rw [sectionNameIs_eq hname, pure_bind]
    by_cases hnamed : Named map (namePos map k)
    case pos =>
      rw [if_pos (decide_eq_true hnamed), rdNum_eq (by omega), pure_bind, rdNum_eq (by omega), pure_bind,
        rdNum_eq (by omega), pure_bind, ← start, ← size, Returns.fit_bind]
      have htext : Returns (if map.length < start map k + size map k then failure else do
          let text ← slice map (start map k) (start map k + size map k)
          pure (text, num 8 map (header map k + 0x10), size map k)) (IsText map) := by
        split
        · exact Returns.giveUp
        next hinside =>
          rw [slice_eq (by omega) (by omega), Nat.add_sub_cancel_left, pure_bind]
          exact Returns.answer ⟨k, by omega, hnamed, by omega, rfl⟩
      constructor
      · rintro ⟨-, -, -, hstop, -⟩ i hki hik hi -
        rcases Nat.eq_or_lt_of_le hki with rfl | hki
        · exact ⟨hname, fun _ => hstop⟩
        · exact absurd hnamed (hi k hki).2
      · intro h
        exact ⟨by omega, by omega, by omega, (h k (Nat.le_refl k) (by omega) hk hin).stop hnamed, htext⟩
    case neg =>
      rw [if_neg (by simpa using hnamed), ih (hk.succ hin hnamed) (by omega)]
      constructor
      · rintro ⟨-, -, -, h⟩ i hki hik hi hinside
        rcases Nat.eq_or_lt_of_le hki with rfl | hki
        · exact ⟨hname, fun h => absurd h hnamed⟩
        · exact h i hki (by omega) hi hinside
      · intro h
        exact ⟨by omega, by omega, by omega, fun i hki hik => h i (by omega) (by omega)⟩

theorem loadVmlinuxText_returns_iff (hmax : map.length < 2 ^ 63) :
    Returns (loadVmlinuxText map) (IsText map) ↔ TextReadable map := by
  rw [loadVmlinuxText]
  split
  next hlen => exact iff_of_true Returns.giveUp fun h => absurd h (by omega)
  next hlen =>
    rw [rdNum_eq (by omega), pure_bind, rdNum_eq (by omega), pure_bind, rdNum_eq (by omega), pure_bind,
      rdNum_eq (by omega), pure_bind]
    split
    next hzero => exact iff_of_true Returns.giveUp fun _ h h' => absurd hzero (by omega)
    split
    next hndx => exact iff_of_true Returns.giveUp fun _ _ _ h => absurd h (by omega)
    next hzero hndx =>
      rw [← header, Returns.fit_bind, rdNum_bind, List.range_eq_range']
      constructor
      · rintro ⟨-, hin, h⟩ _ _ _ _
        have hfirst := header_mono map (Nat.zero_le (num 2 map 0x3e).toNat)
        have hloop := (textSection_returns_iff hmax (by omega) (fun j hj => absurd hj (Nat.not_lt_zero j)) (by omega)).mp h
        exact ⟨by omega, fun i hi => hloop i (Nat.zero_le i) (by omega)⟩
      · intro h
        obtain ⟨hin, hentries⟩ := h (by omega) (by omega) (by omega) (by omega)
        have hfirst := header_mono map (Nat.zero_le (num 2 map 0x3e).toNat)
        refine ⟨by omega, by omega, ?_⟩
        refine (textSection_returns_iff hmax (by omega) (fun j hj => absurd hj (Nat.not_lt_zero j)) (by omega)).mpr ?_
        exact fun i _ hi => hentries i (by omega)

/-! ## find_elf_btf -/

/-- A name, up to its zero or to the end of the file. -/
def BtfNamed (map : List U8) (pos : Nat) : Prop :=
  (map.drop pos).takeWhile (· ≠ 0#8) = ascii ['.', 'B', 'T', 'F']

/-- The loop of `find_elf_btf` comes to a header where none in front of it is that of the types. -/
def Passed (map : List U8) (i : Nat) : Prop := ∀ j < i, ¬ BtfNamed map (namePos map j)

/-- What `find_elf_btf` asks of a file in which it looks for a section at all: the table ends at an address, and where it
ends inside the file, each name that is compared begins inside the file. -/
def BtfReadable (map : List U8) : Prop :=
  64 ≤ map.length → 64 ≤ (num 2 map 0x3a).toNat →
    header map (num 2 map 0x3c).toNat < 2 ^ 64 ∧
      (header map (num 2 map 0x3c).toNat ≤ map.length → header map (num 2 map 0x3e).toNat + 0x20 ≤ map.length →
        ∀ i < (num 2 map 0x3c).toNat, Passed map i → namePos map i ≤ map.length)

section Find

open Fuzz.Btf (rd add findSection findElfBtf)

theorem rd_bind {n o : Nat} (h : o + n ≤ map.length) (k : U64 → Fuzz.Btf.Checked β) :
    .of (rd n map o) >>= k = k (num n map o) := by
  rw [rd, if_pos h]
  rfl

theorem rd_bind_none {n o : Nat} (h : ¬ o + n ≤ map.length) (k : U64 → Fuzz.Btf.Checked β) :
    .of (rd n map o) >>= k = .of none := by
  rw [rd, if_neg h]
  rfl

theorem rd_unstopped {n o : Nat} {k : U64 → Fuzz.Btf.Checked β}
    (h : o + n ≤ map.length → ∃ a, k (num n map o) = .of a) : ∃ a, .of (rd n map o) >>= k = .of a := by
  by_cases hfits : o + n ≤ map.length
  · rw [rd_bind hfits]
    exact h hfits
  · exact ⟨none, rd_bind_none hfits k⟩

theorem add_bind {a b : Nat} (h : a + b < 2 ^ 64) (k : Nat → Fuzz.Btf.Checked β) : add a b >>= k = k (a + b) := by
  rw [add, if_pos h]
  rfl

theorem not_unstopped {e : Fuzz.Btf.Fault} : ¬ ∃ o, (.stop e : Fuzz.Btf.Checked β) = .of o := by
  rintro ⟨o, ho⟩
  have h : (.error e : Except Fuzz.Btf.Fault (Option β)) = .ok o := congrArg OptionT.run ho
  cases h

theorem add_bind_stop {a b : Nat} (h : ¬ a + b < 2 ^ 64) (k : Nat → Fuzz.Btf.Checked β) :
    add a b >>= k = .stop .overflow := by
  rw [add, if_neg h]
  rfl

/-- The loop from a header on that it comes to, in a table that is inside the file. -/
theorem findSection_unstopped_iff (hmax : map.length < 2 ^ 63) (hsize : 64 ≤ (num 2 map 0x3a).toNat)
    (htable : header map (num 2 map 0x3c).toNat ≤ map.length) {n k : Nat} (hk : Passed map k)
    (hnum : k + n ≤ (num 2 map 0x3c).toNat) :
    (∃ o, findSection map (num 8 map 0x28).toNat (num 2 map 0x3a).toNat (names map) (range' k n) = .of o) ↔
      ∀ i, k ≤ i → i < k + n → Passed map i → namePos map i ≤ map.length := by
  induction n generalizing k with
  | zero =>
    refine iff_of_true ⟨none, rfl⟩ fun i hki hik => ?_
    omega
  | succ n ih =>
    have hin : header map k + 0x40 ≤ map.length := by
      have := header_mono map (Nat.le_trans (by omega) hnum : k + 1 ≤ _)
      rw [header_succ] at this
      omega
    rw [range'_succ, findSection, ← header, rd_bind (by omega), rd_bind (by omega), rd_bind (by omega)]
    by_cases hname : namePos map k ≤ map.length
    case neg =>
      refine iff_of_false ?_ fun h => hname (h k (Nat.le_refl k) (by omega) hk)
      by_cases hfits : namePos map k < 2 ^ 64
      · rw [add_bind hfits, ← namePos, if_pos (Nat.lt_of_not_le hname)]
        exact not_unstopped
      · rw [add_bind_stop hfits]
        exact not_unstopped
    have hfits : namePos map k < 2 ^ 64 := by omega
    rw [add_bind hfits, ← namePos, if_neg (Nat.not_lt.mpr hname)]
    split
    next hnamed =>
      refine iff_of_true ⟨some _, rfl⟩ fun i hki _ hi => ?_
      rcases Nat.eq_or_lt_of_le hki with rfl | hki
      · exact hname
      · exact absurd hnamed (hi k hki)
    next hnamed =>
      have hnext : Passed map (k + 1) := by
        intro j hj
        rcases Nat.lt_succ_iff_lt_or_eq.mp hj with hj | rfl
        · exact hk j hj
        · exact hnamed
      rw [ih hnext (by omega)]
      constructor
      · intro h i hki hik hi
        rcases Nat.eq_or_lt_of_le hki with rfl | hki
        · exact hname
        · exact h i hki (by omega) hi
      · exact fun h i hki hik => h i (by omega) (by omega)

theorem findElfBtf_unstopped_iff (hmax : map.length < 2 ^ 63) :
    (∃ o, findElfBtf map = .of o) ↔ BtfReadable map := by
  by_cases hlen : 64 ≤ map.length
  case neg =>
    -- One of the four fields of the file header is cut off.
    refine iff_of_true ?_ fun h => absurd h hlen
    refine rd_unstopped fun _ => rd_unstopped fun _ => rd_unstopped fun _ => rd_unstopped fun h => ?_
    exact absurd h (by omega)
  rw [findElfBtf, rd_bind (by omega), rd_bind (by omega), rd_bind (by omega), rd_bind (by omega)]
  split
  next hsize => exact iff_of_true ⟨none, rfl⟩ fun _ h => absurd h (by omega)
  next hsize =>
    by_cases hstop : header map (num 2 map 0x3c).toNat < 2 ^ 64
    case neg =>
      rw [add_bind_stop hstop]
      exact iff_of_false not_unstopped fun h => hstop (h hlen (by omega)).1
    rw [add_bind hstop, ← header]
    split
    next hcut => exact iff_of_true ⟨none, rfl⟩ fun _ _ => ⟨hstop, fun h => absurd h (by omega)⟩
    next htable =>
      by_cases hnames : header map (num 2 map 0x3e).toNat + 0x20 ≤ map.length
      case neg =>
        rw [← header, rd_bind_none (by omega)]
        exact iff_of_true ⟨none, rfl⟩ fun _ _ => ⟨hstop, fun _ h => absurd h hnames⟩
      rw [← header, rd_bind (by omega), List.range_eq_range', ← names]
      rw [findSection_unstopped_iff hmax (by omega) (by omega) (fun j hj => absurd hj (Nat.not_lt_zero j)) (by omega)]
      constructor
      · exact fun h _ _ => ⟨hstop, fun _ _ i hi => h i (Nat.zero_le i) (by omega)⟩
      · exact fun h i _ hi => (h hlen (by omega)).2 (by omega) hnames i (by omega)

end Find

/-- For which files nothing stops the two readers of section tables; and what `load_vmlinux_text` gives is a section
named `.text`. A vector is shorter than `2 ^ 63` bytes. -/
theorem section_readers_iff (map : List U8) (hmax : map.length < 2 ^ 63) :
    ((∃ o, loadVmlinuxText map = of o ∧ ∀ r, o = some r → IsText map r) ∧ ∃ o, Fuzz.Btf.findElfBtf map = .of o) ↔
      TextReadable map ∧ BtfReadable map :=
  and_congr (loadVmlinuxText_returns_iff hmax) (findElfBtf_unstopped_iff hmax)

/-- A file with two sections: one without a name that the table takes for the names, at `namesOff`, and behind it one
that holds the text `.text`, whose name is at `nameOff` of the names. -/
def twoSections (nameOff namesOff : U64) : List U8 :=
  replicate 0x28 0#8 ++ leBytes 8 64#64 ++ replicate 10 0#8 ++ leBytes 2 64#64 ++ leBytes 2 2#64 ++ leBytes 2 0#64 ++
    (leBytes 4 5#64 ++ replicate 20 0#8 ++ leBytes 8 namesOff ++ leBytes 8 6#64 ++ replicate 24 0#8) ++
    (leBytes 4 nameOff ++ replicate 12 0#8 ++ leBytes 8 0x1000#64 ++ leBytes 8 192#64 ++ leBytes 8 6#64 ++
      replicate 24 0#8) ++ utf8 ".text" ++ [0#8]

/-- The condition holds where both headers are read, and the answer is the second section. -/
theorem section_readers_iff_two :
    (∃ o, loadVmlinuxText (twoSections 0#64 192#64) = of o ∧ ∀ r, o = some r → IsText (twoSections 0#64 192#64) r) ∧
      (∃ o, Fuzz.Btf.findElfBtf (twoSections 0#64 192#64) = .of o) ∧
      (loadVmlinuxText (twoSections 0#64 192#64)).run = .ok (some (utf8 ".text" ++ [0#8], 0x1000#64, 6)) := by
  have htwo : (num 2 (twoSections 0#64 192#64) 0x3c).toNat = 2 := by decide +kernel
  have htext : TextReadable (twoSections 0#64 192#64) := by
    intro _ _ _ _
    refine ⟨by decide +kernel, fun i hi _ _ => ?_⟩
    obtain rfl | rfl : i = 0 ∨ i = 1 := by omega
    · exact ⟨by decide +kernel, by decide +kernel⟩
    · exact ⟨by decide +kernel, by decide +kernel⟩
  have hbtf : BtfReadable (twoSections 0#64 192#64) := by
    intro _ _
    refine ⟨by decide +kernel, fun _ _ i hi _ => ?_⟩
    obtain rfl | rfl : i = 0 ∨ i = 1 := by omega
    · decide +kernel
    · decide +kernel
  obtain ⟨hload, hfind⟩ := (section_readers_iff _ (by decide +kernel)).mpr ⟨htext, hbtf⟩
  exact ⟨hload, hfind, by decide +kernel⟩

/-- A file that ends with its header, which puts the section table behind the end: the header of the names is read
there. -/
def headerOnly : List U8 :=
  replicate 0x28 0#8 ++ leBytes 8 0x1000#64 ++ replicate 10 0#8 ++ leBytes 2 64#64 ++ leBytes 2 1#64 ++ leBytes 2 0#64

/-- A table behind the file stops `load_vmlinux_text` at a bound, names behind the file stop `find_elf_btf` at one, and
names at the end of the address space stop both, where a position overflows. -/
theorem tables_behind_file :
    loadVmlinuxText headerOnly = stop .index ∧ Fuzz.Btf.findElfBtf (twoSections 0#64 1000#64) = .stop .index ∧
      loadVmlinuxText (twoSections 0#64 (-1#64)) = stop .overflow ∧
      Fuzz.Btf.findElfBtf (twoSections 0#64 (-1#64)) = .stop .overflow := by
  have hload : (loadVmlinuxText headerOnly).run = .error .index := by decide +kernel
  have hfind : (Fuzz.Btf.findElfBtf (twoSections 0#64 1000#64)).run = .error .index := by decide +kernel
  have hload' : (loadVmlinuxText (twoSections 0#64 (-1#64))).run = .error .overflow := by decide +kernel
  have hfind' : (Fuzz.Btf.findElfBtf (twoSections 0#64 (-1#64))).run = .error .overflow := by decide +kernel
  exact ⟨OptionT.ext hload, OptionT.ext hfind, OptionT.ext hload', OptionT.ext hfind'⟩

end Vock.Mode
