import Vock.Mode.SampleRing

/-!
# The drained sample ring

The records that perf writes, laid out in the ring modulo its size (`Laid`), and what
`drain_sample_ring` makes of them. A round takes a record as it is where what the round reads of it
does not go past the end of the ring (`drainRound_fits`, `drainReads_inside_iff`); with that the whole
ring is drained faithfully exactly where this is so of every record (`drained_iff`).

The ring holds still while it is drained. Not established: anything of records that are overwritten meanwhile.
-/

namespace Vock.Mode

open Library StateTransition List

/-! ## Records -/

/-- A record: a sample with its branch stack of `from`, `to` and flags, newest first, or one of
another type. -/
inductive Record where
  | sample (misc : BitVec 16) (ip time : U64) (stack : Option (List (U64 × U64 × U64)))
  | other (type : BitVec 32) (misc : BitVec 16) (body : List U8)

variable {d : Drain} {bs : List U8} {p : Nat} {r : Record} {dataSize : Nat}

namespace Record

def type : Record → BitVec 32
  | .sample .. => 9#32
  | .other type _ _ => type

def misc : Record → BitVec 16
  | .sample misc _ _ _ => misc
  | .other _ misc _ => misc

def branchBytes (b : U64 × U64 × U64) : List U8 := leBytes 8 b.1 ++ (leBytes 8 b.2.1 ++ leBytes 8 b.2.2)

def stackBytes : Option (List (U64 × U64 × U64)) → List U8
  | none => []
  | some bs => leBytes 8 (BitVec.ofNat 64 bs.length) ++ bs.flatMap branchBytes

/-- What is behind the header. -/
def body : Record → List U8
  | .sample _ ip time stack => leBytes 8 ip ++ (leBytes 8 time ++ stackBytes stack)
  | .other _ _ body => body

def size (r : Record) : Nat := 8 + r.body.length

/-- `struct perf_event_header`. -/
def header (r : Record) : List U8 :=
  leBytes 4 (r.type.setWidth 64) ++ (leBytes 2 (r.misc.setWidth 64) ++ leBytes 2 (BitVec.ofNat 64 r.size))

def bytes (r : Record) : List U8 := r.header ++ r.body

/-- The branches of a sample. -/
def branches : Option (List (U64 × U64 × U64)) → List (U64 × U64 × U64)
  | none => []
  | some bs => bs

/-- The records perf writes. -/
def WellFormed : Record → Prop
  | .sample _ _ _ stack => (branches stack).length ≤ 32
  | .other type _ body => type ≠ 9#32 ∧ body.length % 8 = 0 ∧ 8 + body.length < 65536

/-- The entry for a record: a sample with a kernel address has one. -/
def entry : Record → Option (U64 × List U64)
  | .sample _ ip time stack =>
    let pcs := kernelPcs ((branches stack).map fun b => (b.1, b.2.1)) ip
    if pcs = [] then none else some (time, pcs)
  | .other .. => none

/-- How much of a record is read: not the flags of the last branch, and not the count of an empty
branch stack. -/
def extent : Record → Nat
  | .sample _ _ _ stack => 24 + 24 * (branches stack).length
  | .other .. => 8

end Record

/-- The bytes are in the ring from position `p` on, modulo its size. -/
def Laid (mem : Nat → U8) (dataSize p : Nat) (bs : List U8) : Prop :=
  ∀ i, ∀ b ∈ bs[i]?, mem ((p + i) % dataSize) = b

/-- What is read of each record, from position `p` on, ends in front of the end of the ring. -/
def Fits (dataSize : Nat) : Nat → List Record → Prop
  | _, [] => True
  | p, r :: rs => p % dataSize + r.extent ≤ dataSize ∧ Fits dataSize (p + r.size) rs

/-! ## Reading a record in place -/

/-- The bytes are at an offset, as far as the end of the ring. -/
def Flat (mem : Nat → U8) (lim off : Nat) (bs : List U8) : Prop :=
  ∀ i, ∀ b ∈ bs[i]?, off + i < lim → mem (off + i) = b

theorem flat_of_laid {mem : Nat → U8} (h : Laid mem dataSize p bs) :
    Flat mem dataSize (p % dataSize) bs := by
  intro i b hb hlt
  rw [← h i b hb, Nat.add_mod, Nat.mod_eq_of_lt (show i < dataSize by omega), Nat.mod_eq_of_lt hlt]

namespace Flat

variable {mem : Nat → U8} {lim off : Nat} {as bs : List U8}

theorem left (h : Flat mem lim off (as ++ bs)) : Flat mem lim off as := by
  intro i b hb
  apply h i b
  rw [List.getElem?_append_left (List.getElem?_eq_some_iff.mp hb).1]
  exact hb

theorem right {n : Nat} (h : Flat mem lim off (as ++ bs)) (hn : as.length = n) : Flat mem lim (off + n) bs := by
  intro i b hb hlt
  have hat := h (n + i) b
  rw [getElem?_append_right (by omega), hn, Nat.add_sub_cancel_left, ← Nat.add_assoc] at hat
  exact hat hb hlt

theorem load {n : Nat} {w : U64} (h : Flat mem lim off (leBytes n w)) (hfit : off + n ≤ lim) :
    loadLe n mem off = leValue (leBytes n w) := by
  refine loadLe_eq fun i hi => h i _ ?_ (by omega)
  rw [leBytes, getElem?_map, getElem?_range hi]
  rfl

theorem load_eight {w : U64} (h : Flat mem lim off (leBytes 8 w)) (hfit : off + 8 ≤ lim) :
    loadLe 8 mem off = w := (h.load hfit).trans (leValue_leBytes_eight w)

end Flat

@[simp] theorem length_branchBytes (b : U64 × U64 × U64) : (Record.branchBytes b).length = 24 := by
  simp [Record.branchBytes]

@[simp] theorem length_header (r : Record) : r.header.length = 8 := by
  simp [Record.header]

theorem length_bytes (r : Record) : r.bytes.length = r.size := by
  rw [Record.bytes, length_append, length_header, Record.size]

theorem length_flatMap_branchBytes (bs : List (U64 × U64 × U64)) :
    (bs.flatMap Record.branchBytes).length = 24 * bs.length := by
  induction bs with
  | nil => rfl
  | cons b bs ih => rw [flatMap_cons, length_append, length_branchBytes, length_cons]; omega

theorem size_sample_none (misc : BitVec 16) (ip time : U64) : (Record.sample misc ip time none).size = 24 := by
  simp [Record.size, Record.body, Record.stackBytes]

theorem size_sample_some (misc : BitVec 16) (ip time : U64) (bs : List (U64 × U64 × U64)) :
    (Record.sample misc ip time (some bs)).size = 32 + 24 * bs.length := by
  simp only [Record.size, Record.body, Record.stackBytes, length_append, length_leBytes,
    length_flatMap_branchBytes]
  omega

theorem size_bounds (hwf : r.WellFormed) : 8 ≤ r.size ∧ r.size < 65536 := by
  refine ⟨Nat.le_add_right 8 _, ?_⟩
  cases r with
  | sample misc ip time stack =>
    have hlen : (Record.branches stack).length ≤ 32 := hwf
    cases stack with
    | none => rw [size_sample_none]; decide
    | some bs => rw [size_sample_some]; simp only [Record.branches] at hlen; omega
  | other type misc body => exact hwf.2.2

section

variable {mem : Nat → U8} {lim ev : Nat} {r : Record}

theorem evSize_flat (hwf : r.WellFormed) (h : Flat mem lim ev r.bytes) (hfit : ev + 8 ≤ lim) :
    evSize mem ev = r.size := by
  have hsize := (size_bounds hwf).2
  have hat : Flat mem lim (ev + 6) (leBytes 2 (BitVec.ofNat 64 r.size)) :=
    ((h.left.right (length_leBytes 4 _)).right (length_leBytes 2 _))
  have hnat : (BitVec.ofNat 64 r.size).toNat = r.size := by
    exact Nat.mod_eq_of_lt (by omega)
  rw [evSize, hat.load (by omega), leValue_leBytes_of_lt (by rw [hnat]; exact hsize), hnat]

theorem evType_flat (h : Flat mem lim ev r.bytes) (hfit : ev + 8 ≤ lim) :
    evType mem ev = perfRecordSample ↔ r.type = 9#32 := by
  have hload : evType mem ev = leValue (leBytes 4 (r.type.setWidth 64)) := h.left.left.load (by omega)
  rw [hload]
  constructor
  · intro heq
    rw [← leValue_leBytes_four r.type, heq]
    rfl
  · intro heq
    rw [heq]
    decide

theorem isSample_flat (hwf : r.WellFormed) (h : Flat mem lim ev r.bytes) (hfit : ev + 8 ≤ lim) :
    isSample mem ev = true ↔ r.type = 9#32 ∧ 24 ≤ r.size := by
  rw [isSample, Bool.and_eq_true, beq_iff_eq, decide_eq_true_iff, evType_flat h hfit, evSize_flat hwf h hfit]

theorem isSample_other {type : BitVec 32} {misc : BitVec 16} {body : List U8}
    (hwf : (Record.other type misc body).WellFormed) (h : Flat mem lim ev (Record.other type misc body).bytes)
    (hfit : ev + 8 ≤ lim) : isSample mem ev = false := by
  rw [← Bool.not_eq_true, isSample_flat hwf h hfit]
  exact fun hs => hwf.1 hs.1

variable {misc : BitVec 16} {ip time : U64} {stack : Option (List (U64 × U64 × U64))}

theorem isSample_sample (hwf : (Record.sample misc ip time stack).WellFormed)
    (h : Flat mem lim ev (Record.sample misc ip time stack).bytes) (hfit : ev + 8 ≤ lim) : isSample mem ev = true := by
  refine (isSample_flat hwf h hfit).mpr ⟨rfl, ?_⟩
  cases stack with
  | none => rw [size_sample_none]
  | some bs => rw [size_sample_some]; omega

/-- The branches are read, up to the flags of the last one. -/
theorem readBranches_flat {bs : List (U64 × U64 × U64)} (h : Flat mem lim p (bs.flatMap Record.branchBytes))
    (hfit : bs = [] ∨ p + 24 * bs.length ≤ lim + 8) :
    readBranches mem bs.length p = bs.map fun b => (b.1, b.2.1) := by
  induction bs generalizing p with
  | nil => rfl
  | cons b bs ih =>
    have hlim : p + 24 * (bs.length + 1) ≤ lim + 8 := hfit.resolve_left (cons_ne_nil b bs)
    have hfrom : loadLe 8 mem p = b.1 := h.left.left.load_eight (by omega)
    have hto : loadLe 8 mem (p + 8) = b.2.1 :=
      (h.left.right (length_leBytes 8 _)).left.load_eight (by omega)
    have hrest := ih (h.right (length_branchBytes b)) (.inr (by omega))
    rw [length_cons, readBranches, hfrom, hto, hrest, map_cons]

theorem branchReads_inside_iff (n p lim : Nat) (hn : n ≠ 0) :
    (∀ rd ∈ branchReads n p, rd.1 + rd.2 ≤ lim) ↔ p + 24 * n ≤ lim + 8 := by
  induction n generalizing p with
  | zero => exact absurd rfl hn
  | succ n ih =>
    rw [branchReads, forall_mem_cons, forall_mem_cons]
    cases n with
    | zero =>
      simp only [branchReads, not_mem_nil, false_implies, implies_true, and_true]
      omega
    | succ n =>
      rw [ih (p + 24) (Nat.succ_ne_zero n)]
      omega

theorem branchCount_flat {bs : List (U64 × U64 × U64)} (hlen : bs.length ≤ 32)
    (h : Flat mem lim (ev + 24) (Record.stackBytes (some bs))) (hfit : ev + 32 ≤ lim) :
    branchCount mem ev = bs.length := by
  rw [branchCount, h.left.load_eight (by omega), BitVec.toNat_ofNat, Nat.mod_eq_of_lt (by omega)]
  exact Nat.min_eq_left hlen

/-- Where the ip, the time and the stack of a sample are. -/
theorem flat_sample (h : Flat mem lim ev (Record.sample misc ip time stack).bytes) :
    Flat mem lim (ev + 8) (leBytes 8 ip) ∧ Flat mem lim (ev + 16) (leBytes 8 time) ∧
      Flat mem lim (ev + 24) (Record.stackBytes stack) := by
  have hbody := h.right (length_header _)
  have hrest := hbody.right (length_leBytes 8 _)
  exact ⟨hbody.left, hrest.left, hrest.right (length_leBytes 8 _)⟩

/-- A sample that fits is taken for its entry. -/
theorem sampleAt_flat (hwf : (Record.sample misc ip time stack).WellFormed)
    (h : Flat mem lim ev (Record.sample misc ip time stack).bytes)
    (hfit : ev + (Record.sample misc ip time stack).extent ≤ lim) :
    sampleAt mem ev (Record.sample misc ip time stack).size = (Record.sample misc ip time stack).entry := by
  have hlen : (Record.branches stack).length ≤ 32 := hwf
  have hext : ev + (24 + 24 * (Record.branches stack).length) ≤ lim := hfit
  obtain ⟨hip, htime, hstack⟩ := flat_sample h
  have hbranches : (if 8 + 8 + 8 + 8 < (Record.sample misc ip time stack).size then
      readBranches mem (branchCount mem ev) (ev + 32) else []) =
        (Record.branches stack).map fun b => (b.1, b.2.1) := by
    cases stack with
    | none => rw [size_sample_none]; rfl
    | some bs =>
      rw [size_sample_some]
      simp only [Record.branches] at hlen hext ⊢
      cases bs with
      | nil => rfl
      | cons b bs =>
        rw [length_cons] at hext
        rw [if_pos (by rw [length_cons]; omega), branchCount_flat hlen hstack (by omega)]
        exact readBranches_flat (hstack.right (length_leBytes 8 _)) (.inr (by rw [length_cons]; omega))
  rw [sampleAt, Record.entry, hbranches, hip.load_eight (by omega), htime.load_eight (by omega)]

end

/-! ## Draining -/

section

variable {mem : Nat → U8} {dataSize head : Nat}

/-- A round over a record that fits takes it as it is. -/
theorem drainRound_fits (hlt : d.tail < head) (hwf : r.WellFormed)
    (h : Laid mem dataSize d.tail r.bytes) (hfit : d.tail % dataSize + r.extent ≤ dataSize) :
    drainRound mem dataSize head d = some ⟨(d.tail + r.size) % 2 ^ 64, d.samples ++ r.entry.toList⟩ := by
  have hflat := flat_of_laid h
  rw [drainRound, if_pos hlt]
  cases r with
  | sample misc ip time stack =>
    have hhead : d.tail % dataSize + 8 ≤ dataSize := by
      simp only [Record.extent] at hfit
      omega
    simp only [isSample_sample hwf hflat hhead, if_true, sampleAt_flat hwf hflat hfit, evSize_flat hwf hflat hhead]
  | other type misc body =>
    simp only [isSample_other hwf hflat hfit, Bool.false_eq_true, if_false, evSize_flat hwf hflat hfit,
      Record.entry, Option.toList_none, append_nil]

/-- The reads of a round stay in the ring exactly where the record fits. -/
theorem drainReads_inside_iff (hlt : d.tail < head) (hwf : r.WellFormed)
    (h : Laid mem dataSize d.tail r.bytes) :
    (∀ rd ∈ drainReads mem dataSize head d, rd.1 + rd.2 ≤ dataSize) ↔ d.tail % dataSize + r.extent ≤ dataSize := by
  have hflat := flat_of_laid h
  rw [drainReads, if_pos hlt]
  simp only [forall_mem_cons]
  generalize d.tail % dataSize = ev at hflat ⊢
  by_cases hhead : ev + 8 ≤ dataSize
  · cases r with
    | other type misc body =>
      simp only [isSample_other hwf hflat hhead, Bool.false_eq_true, if_false, not_mem_nil, false_implies,
        implies_true, and_true, Record.extent]
      omega
    | sample misc ip time stack =>
      have hlen : (Record.branches stack).length ≤ 32 := hwf
      simp only [isSample_sample hwf hflat hhead, if_true, forall_mem_cons, evSize_flat hwf hflat hhead,
        Record.extent]
      cases stack with
      | none =>
        rw [size_sample_none, if_neg (by decide)]
        simp only [not_mem_nil, false_implies, implies_true, and_true, Record.branches, length_nil]
        omega
      | some bs =>
        simp only [Record.branches] at hlen ⊢
        rw [size_sample_some]
        cases bs with
        | nil =>
          simp only [length_nil, Nat.mul_zero, Nat.lt_irrefl, if_false, not_mem_nil,
            false_implies, implies_true, and_true]
          omega
        | cons b bs =>
          rw [if_pos (by rw [length_cons]; omega), forall_mem_cons]
          by_cases hcount : ev + 32 ≤ dataSize
          · rw [branchCount_flat hlen (flat_sample hflat).2.2 hcount,
              branchReads_inside_iff _ _ _ (length_pos_iff.mpr (cons_ne_nil b bs)).ne', length_cons]
            omega
          · -- the count itself is past the end
            rw [length_cons]
            omega
  · -- the size in the header is past the end
    have hext : 8 ≤ r.extent := by
      cases r with
      | other type misc body => exact Nat.le_refl 8
      | sample misc ip time stack => simp only [Record.extent]; omega
    omega

theorem laid_append {as : List U8} (h : Laid mem dataSize p (as ++ bs)) :
    Laid mem dataSize p as ∧ Laid mem dataSize (p + as.length) bs := by
  constructor
  · intro i b hb
    apply h i b
    rw [List.getElem?_append_left (List.getElem?_eq_some_iff.mp hb).1]
    exact hb
  · intro i b hb
    rw [Nat.add_assoc]
    apply h (as.length + i) b
    rw [getElem?_append_right (Nat.le_add_right _ _), Nat.add_sub_cancel_left]
    exact hb

/-- The drain comes to an end with the samples so far and the entries, and every round reads in the
ring. -/
def Drained (mem : Nat → U8) (dataSize head : Nat) (d : Drain) (entries : List (U64 × List U64)) : Prop :=
  (∃ e ∈ drainSampleRing mem dataSize head d.tail d.samples, e.samples = d.samples ++ entries) ∧
    ∀ e, Reaches (drainRound mem dataSize head) d e → ∀ rd ∈ drainReads mem dataSize head e, rd.1 + rd.2 ≤ dataSize

theorem drained_of_le {entries : List (U64 × List U64)} (h : head ≤ d.tail) :
    Drained mem dataSize head d entries ↔ entries = [] := by
  have hnone : drainRound mem dataSize head d = none := by rw [drainRound, if_neg (by omega)]
  have hreads : drainReads mem dataSize head d = [] := by rw [drainReads, if_neg (by omega)]
  rw [Drained, forall_reaches_of_none hnone, hreads]
  constructor
  · rintro ⟨⟨e, he, heq⟩, -⟩
    have hend : d ∈ drainSampleRing mem dataSize head d.tail d.samples := mem_eval.mpr ⟨.refl, hnone⟩
    rw [Part.mem_unique he hend] at heq
    exact self_eq_append_right.mp heq
  · rintro rfl
    exact ⟨⟨d, mem_eval.mpr ⟨.refl, hnone⟩, (append_nil _).symm⟩, fun rd hrd => absurd hrd (not_mem_nil)⟩

/-- Without a wrap of the position, the records are drained where they all fit, and only there. -/
theorem drained_iff_fits {rs : List Record} (hwf : ∀ r ∈ rs, r.WellFormed)
    (hlaid : Laid mem dataSize d.tail (rs.flatMap Record.bytes))
    (hhead : d.tail + (rs.flatMap Record.bytes).length = head) (hlt : head < 2 ^ 64) :
    Drained mem dataSize head d (rs.filterMap Record.entry) ↔ Fits dataSize d.tail rs := by
  induction rs generalizing d with
  | nil =>
    rw [drained_of_le (by rw [← hhead]; exact Nat.le_refl _)]
    exact ⟨fun _ => trivial, fun _ => rfl⟩
  | cons r rs ih =>
    have hr := hwf r mem_cons_self
    obtain ⟨hfirst, hrest⟩ := laid_append hlaid
    rw [flatMap_cons, length_append, length_bytes] at hhead
    rw [length_bytes] at hrest
    have hmore : d.tail < head := by
      have := (size_bounds hr).1
      omega
    have hreads := drainReads_inside_iff hmore hr hfirst
    rw [Fits]
    by_cases hfit : d.tail % dataSize + r.extent ≤ dataSize
    · have hstep := drainRound_fits hmore hr hfirst hfit
      rw [Nat.mod_eq_of_lt (show d.tail + r.size < 2 ^ 64 by omega)] at hstep
      have hnext := ih (d := ⟨d.tail + r.size, d.samples ++ r.entry.toList⟩)
        (fun r hr => hwf r (mem_cons_of_mem _ hr)) hrest (by simp only; omega)
      rw [← hnext, Drained, forall_reaches_of_some hstep, hreads]
      have heval : drainSampleRing mem dataSize head d.tail d.samples =
          drainSampleRing mem dataSize head (d.tail + r.size) (d.samples ++ r.entry.toList) :=
        reaches_eval (.single hstep)
      have hentries : (r :: rs).filterMap Record.entry = r.entry.toList ++ rs.filterMap Record.entry := by
        cases hentry : r.entry with
        | none => rw [filterMap_cons_none hentry]; rfl
        | some e => rw [filterMap_cons_some hentry]; rfl
      rw [heval, hentries, ← append_assoc]
      exact and_left_comm
    · -- the reads of this very round leave the ring
      refine iff_of_false ?_ (fun h => hfit h.1)
      rintro ⟨-, hall⟩
      exact hfit (hreads.mp (hall d .refl))

end

/-- The ring is drained faithfully exactly where what is read of every record ends in front of the end
of the ring; and, where `data_head` has wrapped and nothing is drained, where there is nothing to
drain. -/
theorem drained_iff (mem : Nat → U8) (dataSize tail : Nat) (rs : List Record) (samples : List (U64 × List U64))
    (hwf : ∀ r ∈ rs, r.WellFormed) (hlaid : Laid mem dataSize tail (rs.flatMap Record.bytes))
    (hlen : (rs.flatMap Record.bytes).length ≤ dataSize) (hsize : dataSize < 2 ^ 64) (htail : tail < 2 ^ 64) :
    Drained mem dataSize ((tail + (rs.flatMap Record.bytes).length) % 2 ^ 64) ⟨tail, samples⟩
        (rs.filterMap Record.entry) ↔
      if tail + (rs.flatMap Record.bytes).length < 2 ^ 64 then Fits dataSize tail rs
      else rs.filterMap Record.entry = [] := by
  split
  next hlt =>
    rw [Nat.mod_eq_of_lt hlt]
    exact drained_iff_fits hwf hlaid rfl hlt
  next hge => exact drained_of_le (by simp only; omega)

/-- The bytes in a ring from a position on. -/
def ringOf (dataSize p : Nat) (bs : List U8) (i : Nat) : U8 :=
  if i < dataSize then bs[(i + dataSize - p % dataSize) % dataSize]?.getD 0#8 else 0#8

theorem laid_ringOf (p : Nat) (hlen : bs.length ≤ dataSize) :
    Laid (ringOf dataSize p bs) dataSize p bs := by
  intro i b hb
  obtain ⟨hi, -⟩ := List.getElem?_eq_some_iff.mp hb
  have hpos : 0 < dataSize := by omega
  have hback : ((p + i) % dataSize + dataSize - p % dataSize) % dataSize = i := by
    have hp := Nat.mod_lt p hpos
    rw [Nat.add_mod, Nat.mod_eq_of_lt (show i < dataSize by omega)]
    by_cases hover : p % dataSize + i < dataSize
    · rw [Nat.mod_eq_of_lt hover, show p % dataSize + i + dataSize - p % dataSize = i + dataSize by omega,
        Nat.add_mod_right, Nat.mod_eq_of_lt (by omega)]
    · have hsum : (p % dataSize + i) % dataSize = p % dataSize + i - dataSize := by
        rw [Nat.mod_eq_sub_mod (by omega), Nat.mod_eq_of_lt (by omega)]
      rw [hsum,
        show p % dataSize + i - dataSize + dataSize - p % dataSize = i by omega, Nat.mod_eq_of_lt (by omega)]
  rw [ringOf, if_pos (Nat.mod_lt _ hpos), hback, hb]
  rfl

/-- A sample with a kernel `ip` and no branch stack. -/
def lone : Record := .sample 1#16 0xffffffff81000000#64 7#64 none

theorem wellFormed_lone : ∀ r ∈ [lone], r.WellFormed := by
  intro r hr
  rw [mem_singleton.mp hr]
  exact Nat.zero_le _

/-- A sample, a record of another type, and a sample with a branch from user space into the kernel. -/
def several : List Record :=
  [lone, .other 2#32 0#16 (leBytes 8 5#64),
    .sample 1#16 0xffffffff81000040#64 9#64 (some [(0x401000#64, 0xffffffff81000020#64, 0#64)])]

theorem wellFormed_several : ∀ r ∈ several, r.WellFormed := by
  intro r hr
  rcases mem_cons.mp hr with rfl | hr
  · exact wellFormed_lone lone (mem_singleton_self _)
  rcases mem_cons.mp hr with rfl | hr
  · exact ⟨by decide, by decide, by decide⟩
  · rw [mem_singleton.mp hr]
    exact (by decide : 1 ≤ 32)

/-- The ring goes round between the second and the third record. -/
theorem drained_iff_several :
    Drained (ringOf 128 88 (several.flatMap Record.bytes)) 128 184 ⟨88, []⟩
      [(7#64, [0xffffffff81000000#64]), (9#64, [0xffffffff81000020#64, 0xffffffff81000040#64])] :=
  (drained_iff (ringOf 128 88 (several.flatMap Record.bytes)) 128 88 several [] wellFormed_several
    (laid_ringOf 88 (by decide)) (by decide) (by decide) (by decide)).mpr ⟨by decide, by decide, by decide, trivial⟩

/-- The time of a sample that goes round the end of the ring is read behind the ring. -/
theorem time_past_end :
    (∀ r ∈ [lone], r.WellFormed) ∧ Laid (ringOf 64 48 lone.bytes) 64 48 ([lone].flatMap Record.bytes) ∧
      ([lone].flatMap Record.bytes).length ≤ 64 ∧
        ¬ Drained (ringOf 64 48 lone.bytes) 64 72 ⟨48, []⟩ ([lone].filterMap Record.entry) := by
  have hlaid : Laid (ringOf 64 48 lone.bytes) 64 48 ([lone].flatMap Record.bytes) := laid_ringOf 48 (by decide)
  refine ⟨wellFormed_lone, hlaid, by decide, fun h => ?_⟩
  have hfits : Fits 64 48 [lone] := (drained_iff_fits (d := ⟨48, []⟩) wellFormed_lone hlaid rfl (by decide)).mp h
  exact absurd hfits.1 (by decide)

end Vock.Mode
