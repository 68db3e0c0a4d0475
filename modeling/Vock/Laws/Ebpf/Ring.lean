import Vock.Laws.Ebpf

/-!
# The ring and its producer

The kernel reserves records in order, with the busy bit set, and commits or discards them in any order; `drain` runs
beside it, one load at a time (`Step`). The memory is whatever shows the records that are not consumed, each from its
start on (`Shows`). At every moment the consumer stands at the end of a record, has passed settled records only, and has
handed on their events (`Consumed`); so after a drain the events handed on are those in front of the first record that
is still busy (`ring_hands_on`). A drain that nothing interrupts is `drain` (`steps_drain`).

Loads and stores take effect in the order of the program. Not established: that the kernel finds room for a record.
-/

namespace Vock.Ebpf

open Library Relation List

/-! ## Records -/

inductive Status where
  | busy
  | committed (e : Event)
  | discarded

/-- A record of the ring; the length word has 30 bits for its length. -/
structure Record where
  len : Nat
  len_lt : len < 2 ^ 30
  status : Status

namespace Record

def header (r : Record) : BitVec 32 :=
  match r.status with
  | .busy => BitVec.ofNat 32 r.len ||| busyBit
  | .committed _ => BitVec.ofNat 32 r.len
  | .discarded => BitVec.ofNat 32 r.len ||| discardBit

def isBusy (r : Record) : Bool :=
  match r.status with
  | .busy => true
  | _ => false

/-- The event of a record that is committed and long enough. -/
def event? (r : Record) : Option Event :=
  match r.status with
  | .committed e => if eventSize ≤ r.len then some e else none
  | _ => none

end Record

/-- The position behind records. -/
def place (rs : List Record) : Nat := (rs.map fun r => recLen r.len).sum

/-- The memory has the records from a position on, each contiguously from its start. -/
def Shows (mem : Nat → U8) (rs : List Record) (cons : Nat) : Prop :=
  ∀ before r behind, rs = before ++ r :: behind → cons ≤ place before →
    header mem (offset (place before)) = r.header ∧
      ∀ e, r.event? = some e → Event.read mem (offset (place before) + hdrSz) = e

/-! ## The system -/

/-- The event that a round hands on. -/
def roundEvent (mem : Nat → U8) (prod : Nat) (s : State) : Option Event :=
  let hdr := header mem (offset s.cons)
  if s.cons < prod ∧ isBusy hdr = false ∧ hasEvent hdr = true then some (Event.read mem (offset s.cons + hdrSz)) else none

/-- The records, the consumer with the position it has published and the events it has handed on, how many records there
were when the running drain loaded the producer position, and the records that the last drain found. -/
structure Ring where
  recs : List Record
  state : State
  published : Nat
  handed : List Event
  loaded : Option Nat
  seen : List Record

variable {mem : Nat → U8} {n : Nat} {s : Ring} {r : Record} {prod : Nat}

def Ring.start : Ring := ⟨[], Ebpf.start, 0, [], none, []⟩

/-- What the producer and the consumer may do. -/
inductive Step : Ring → Ring → Prop
  | reserve (s : Ring) (len : Nat) (h : len < 2 ^ 30) : Step s { s with recs := s.recs ++ [⟨len, h, .busy⟩] }
  | settle (s : Ring) (before : List Record) (r : Record) (behind : List Record) (status : Status)
      (hrecs : s.recs = before ++ r :: behind) (hbusy : r.status = .busy) (hstatus : status ≠ .busy) :
      Step s { s with recs := before ++ { r with status := status } :: behind }
  | load (s : Ring) (hidle : s.loaded = none) :
      Step s { s with loaded := some s.recs.length, state := { s.state with cons := s.published } }
  | round (s : Ring) (n : Nat) (hloaded : s.loaded = some n) (mem : Nat → U8) (hshows : Shows mem s.recs s.state.cons)
      (state : State) (hround : Ebpf.round mem (place (s.recs.take n)) s.state = some state) :
      Step s { s with
        state := state, handed := s.handed ++ (roundEvent mem (place (s.recs.take n)) s.state).toList }
  | store (s : Ring) (n : Nat) (hloaded : s.loaded = some n) (mem : Nat → U8) (hshows : Shows mem s.recs s.state.cons)
      (hround : Ebpf.round mem (place (s.recs.take n)) s.state = none) :
      Step s { s with loaded := none, published := s.state.cons, seen := s.recs.take n }

/-! ## Length words -/

theorem toNat_len (r : Record) : (BitVec.ofNat 32 r.len).toNat = r.len := by
  have hlt := r.len_lt
  rw [BitVec.toNat_ofNat, Nat.mod_eq_of_lt (by omega)]

/-- A length leaves the two highest bits free. -/
theorem getLsbD_len (r : Record) {i : Nat} (hi : 30 ≤ i) : (BitVec.ofNat 32 r.len).getLsbD i = false := by
  rw [BitVec.getLsbD_ofNat]
  have hbit : r.len.testBit i = false :=
    Nat.testBit_lt_two_pow (Nat.lt_of_lt_of_le r.len_lt (Nat.pow_le_pow_right (by decide) hi))
  rw [hbit, Bool.and_false]

theorem isBusy_eq_getLsbD (hdr : BitVec 32) : isBusy hdr = hdr.getLsbD 31 := by
  have hbit : busyBit = BitVec.twoPow 32 31 := rfl
  rw [isBusy, hbit, BitVec.and_twoPow]
  cases hdr.getLsbD 31 with
  | true | false => rfl

theorem hasEvent_eq_getLsbD (hdr : BitVec 32) : hasEvent hdr = (!hdr.getLsbD 30 && eventSize ≤ dataLen hdr) := by
  have hbit : discardBit = BitVec.twoPow 32 30 := rfl
  rw [hasEvent, hbit, BitVec.and_twoPow]
  congr 1
  cases hdr.getLsbD 30 with
  | true | false => rfl

/-- The length is read from the low thirty bits. -/
theorem dataLen_of_getLsbD {hdr : BitVec 32}
    (h : ∀ i < 30, hdr.getLsbD i = (BitVec.ofNat 32 r.len).getLsbD i) : dataLen hdr = r.len := by
  have hword : (hdr <<< 2) >>> 2 = BitVec.ofNat 32 r.len := by
    apply BitVec.eq_of_getLsbD_eq
    intro i hi
    rw [BitVec.getLsbD_ushiftRight, BitVec.getLsbD_shiftLeft]
    rcases Nat.lt_or_ge i 30 with hlow | hhigh
    · have h2 : 2 + i < 32 := by omega
      have h3 : ¬ 2 + i < 2 := by omega
      simp only [h2, h3, decide_true, decide_false, Bool.not_false, Bool.true_and, Nat.add_sub_cancel_left, h i hlow]
    · have h2 : ¬ 2 + i < 32 := by omega
      rw [getLsbD_len r hhigh]
      simp only [h2, decide_false, Bool.false_and]
  rw [dataLen, hword, toNat_len]

theorem isBusy_header (r : Record) : isBusy r.header = r.isBusy := by
  have hlen := getLsbD_len r (i := 31) (by decide)
  rw [isBusy_eq_getLsbD]
  unfold Record.header Record.isBusy
  cases r.status with
  | busy | discarded =>
    rw [BitVec.getLsbD_or, hlen]
    rfl
  | committed e => exact hlen

theorem dataLen_header (r : Record) : dataLen r.header = r.len := by
  have hflag : ∀ flag : BitVec 32, (∀ i < 30, flag.getLsbD i = false) →
      dataLen (BitVec.ofNat 32 r.len ||| flag) = r.len := by
    intro flag hclear
    apply dataLen_of_getLsbD
    intro i hi
    rw [BitVec.getLsbD_or, hclear i hi, Bool.or_false]
  unfold Record.header
  cases r.status with
  | busy | discarded => exact hflag _ (by decide)
  | committed e => exact dataLen_of_getLsbD fun i _ => rfl

theorem hasEvent_header (h : r.isBusy = false) : hasEvent r.header = r.event?.isSome := by
  have hlen := getLsbD_len r (i := 30) (by decide)
  rw [hasEvent_eq_getLsbD, dataLen_header]
  unfold Record.header Record.event?
  unfold Record.isBusy at h
  cases hstatus : r.status with
  | busy => rw [hstatus] at h; cases h
  | committed e =>
    rw [hlen]
    by_cases hsize : eventSize ≤ r.len
    · simp [hsize]
    · simp [hsize]
  | discarded =>
    rw [BitVec.getLsbD_or, hlen]
    rfl

/-! ## Places -/

theorem place_append (rs ts : List Record) : place (rs ++ ts) = place rs + place ts := by
  rw [place, map_append, sum_append]
  rfl

theorem place_cons (r : Record) (rs : List Record) : place (r :: rs) = recLen r.len + place rs := sum_cons

theorem hdrSz_le_recLen (len : Nat) : hdrSz ≤ recLen len := by
  unfold recLen hdrSz
  omega

theorem Shows.mono {rs : List Record} {c c' : Nat} (h : Shows mem rs c) (hle : c ≤ c') :
    Shows mem rs c' := fun before r behind hrs hc => h before r behind hrs (hle.trans hc)

/-! ## One round -/

section

variable {mem : Nat → U8} {s : State} {done : List Record} {r : Record} {rest : List Record}

/-- The record at the consumer position, where it is busy. -/
theorem round_busy (hshows : Shows mem (done ++ r :: rest) s.cons) (hcons : s.cons = place done) (prod : Nat)
    (hbusy : r.isBusy = true) : round mem prod s = none := by
  have hheader := (hshows done r rest rfl hcons.le).1
  unfold round
  split
  · dsimp only
    rw [hcons, hheader, isBusy_header, hbusy, if_pos rfl]
  · rfl

/-- The record at the consumer position, where it is settled: its event is handed on and the record is passed. -/
theorem round_settled (hshows : Shows mem (done ++ r :: rest) s.cons) (hcons : s.cons = place done)
    (hlt : s.cons < prod) (hsettled : r.isBusy = false) :
    round mem prod s = some { r.event?.toList.foldl State.take s with cons := place (done ++ [r]) } ∧
      roundEvent mem prod s = r.event? := by
  obtain ⟨hheader, hevent⟩ := hshows done r rest rfl hcons.le
  have hbusy : isBusy (header mem (offset s.cons)) = false := by rw [hcons, hheader, isBusy_header, hsettled]
  have hhas : hasEvent (header mem (offset s.cons)) = r.event?.isSome := by
    rw [hcons, hheader, hasEvent_header hsettled]
  have hnext : s.cons + recLen (dataLen (header mem (offset s.cons))) = place (done ++ [r]) := by
    rw [hcons, hheader, dataLen_header, place_append]
    rfl
  unfold round roundEvent
  rw [if_pos hlt]
  dsimp only
  rw [hbusy, hhas, hnext]
  cases hr : r.event? with
  | none =>
    refine ⟨?_, ?_⟩
    · rfl
    · rw [if_neg (by simp)]
  | some e =>
    rw [← hcons] at hevent
    rw [hevent e hr]
    refine ⟨?_, ?_⟩
    · rfl
    · rw [if_pos ⟨hlt, rfl, rfl⟩]

end

/-! ## Every moment -/

/-- The consumer has passed the records `done`, which are settled, and handed on their events; it has published the end of
one of them. After a drain these are the records in front of the first busy one that the drain found. -/
structure Passed (s : Ring) (done todo : List Record) : Prop where
  recs : s.recs = done ++ todo
  settled : ∀ r ∈ done, r.isBusy = false
  cons : s.state.cons = place done
  handed : s.handed = done.filterMap Record.event?
  taken : s.state = { s.handed.foldl State.take start with cons := s.state.cons }
  loaded : ∀ n, s.loaded = some n → done.length ≤ n ∧ n ≤ s.recs.length
  published : ∃ front back, done = front ++ back ∧ s.published = place front ∧ (s.loaded = none → back = [])
  seen : s.loaded = none → s.seen.takeWhile (!·.isBusy) = done

theorem passed_start : Passed .start [] [] where
  recs := rfl
  settled := nofun
  cons := rfl
  handed := rfl
  taken := rfl
  loaded := nofun
  published := ⟨[], [], rfl, rfl, fun _ => rfl⟩
  seen := fun _ => rfl

section

variable {s : Ring} {done todo : List Record}

section

variable (h : Passed s done todo)
include h

theorem passed_reserve (r : Record) :
    Passed { s with recs := s.recs ++ [r] } done (todo ++ [r]) where
  recs := by rw [h.recs, append_assoc]
  settled := h.settled
  cons := h.cons
  handed := h.handed
  taken := h.taken
  loaded := by
    intro n hn
    have hwithin := h.loaded n hn
    rw [length_append]
    omega
  published := h.published
  seen := h.seen

/-- A record that is settled now was busy, so the consumer has not passed it. -/
theorem passed_settle {before : List Record} {behind : List Record}
    (hrecs : s.recs = before ++ r :: behind) (hbusy : r.status = .busy) (r' : Record) :
    ∃ todo', Passed { s with recs := before ++ r' :: behind } done todo' := by
  have hle : done.length ≤ before.length := by
    apply Nat.le_of_not_lt
    intro hlt
    have hget : done[before.length]? = some r := by
      have hwhole : (done ++ todo)[before.length]? = done[before.length]? := getElem?_append_left hlt
      rw [← hwhole, ← h.recs, hrecs, getElem?_append_right (Nat.le_refl _), Nat.sub_self]
      rfl
    have hnot := h.settled r (mem_of_getElem? hget)
    rw [Record.isBusy, hbusy] at hnot
    cases hnot
  obtain ⟨rest, rfl⟩ : done <+: before := by
    refine prefix_of_prefix_length_le ⟨todo, h.recs.symm⟩ ⟨r :: behind, hrecs.symm⟩ hle
  refine ⟨rest ++ r' :: behind, ?_, h.settled, h.cons, h.handed, h.taken, ?_, h.published, h.seen⟩
  · rw [append_assoc]
  · intro n hn
    have hwithin := h.loaded n hn
    rw [hrecs] at hwithin
    simpa only [length_append, length_cons] using hwithin

theorem passed_load (hidle : s.loaded = none) :
    Passed { s with loaded := some s.recs.length, state := { s.state with cons := s.published } } done todo := by
  obtain ⟨front, back, hdone, hpublished, hback⟩ := h.published
  obtain rfl := hback hidle
  rw [append_nil] at hdone
  subst hdone
  refine ⟨h.recs, h.settled, hpublished, h.handed, ?_, ?_, ⟨done, [], (append_nil _).symm, hpublished, nofun⟩, nofun⟩
  · conv_lhs => rw [h.taken]
  · intro n hn
    obtain rfl := Option.some.inj hn
    rw [h.recs, length_append]
    exact ⟨Nat.le_add_right _ _, Nat.le_refl _⟩

/-- The records up to the producer position that was loaded. -/
theorem take_loaded (hn : s.loaded = some n) : s.recs.take n = done ++ todo.take (n - done.length) := by
  rw [h.recs, take_append, take_of_length_le (h.loaded n hn).1]

theorem passed_round (hn : s.loaded = some n)
    (hshows : Shows mem s.recs s.state.cons) {state : State}
    (hround : round mem (place (s.recs.take n)) s.state = some state) :
    ∃ done' todo', Passed { s with
      state := state, handed := s.handed ++ (roundEvent mem (place (s.recs.take n)) s.state).toList } done' todo' := by
  have hlt : s.state.cons < place (s.recs.take n) := by
    apply Nat.lt_of_not_ge
    intro hge
    rw [round, if_neg (Nat.not_lt.mpr hge)] at hround
    cases hround
  have hahead := hlt
  rw [h.cons, take_loaded h hn, place_append] at hahead
  obtain ⟨r, rest, rfl⟩ : ∃ r rest, todo = r :: rest := by
    cases todo with
    | nil => simp only [take_nil, place, map_nil, sum_nil, Nat.add_zero, Nat.lt_irrefl] at hahead
    | cons r rest => exact ⟨r, rest, rfl⟩
  have hroom : 0 < n - done.length := by
    apply Nat.pos_of_ne_zero
    intro hzero
    simp only [hzero, take_zero, place, map_nil, sum_nil, Nat.add_zero, Nat.lt_irrefl] at hahead
  rw [h.recs] at hshows
  have hsettled : r.isBusy = false := by
    apply Bool.eq_false_iff.mpr
    intro hbusy
    rw [round_busy hshows h.cons _ hbusy] at hround
    cases hround
  obtain ⟨hstate, hevent⟩ := round_settled hshows h.cons hlt hsettled
  obtain rfl := Option.some.inj (hround.symm.trans hstate)
  rw [hevent]
  refine ⟨done ++ [r], rest, ?_, ?_, rfl, ?_, ?_, ?_, ?_, ?_⟩
  · rw [h.recs, append_assoc]
    rfl
  · intro q hq
    rcases mem_append.mp hq with hq | hq
    · exact h.settled q hq
    · rw [mem_singleton.mp hq, hsettled]
  · rw [filterMap_append, h.handed]
    cases hr : r.event? with
    | none => rw [filterMap_cons_none hr]; rfl
    | some e => rw [filterMap_cons_some hr]; rfl
  · dsimp only
    rw [foldl_append]
    conv_lhs => rw [h.taken, foldl_take_setCons]
  · intro m hm
    obtain rfl : n = m := Option.some.inj (hn.symm.trans hm)
    have hwithin := (h.loaded n hn).2
    rw [length_append, length_singleton]
    exact ⟨by omega, hwithin⟩
  · obtain ⟨front, back, rfl, hpublished, -⟩ := h.published
    refine ⟨front, back ++ [r], append_assoc _ _ _, hpublished, ?_⟩
    intro hidle
    cases hn.symm.trans hidle
  · intro hidle
    cases hn.symm.trans hidle

/-- Where a round is not taken, the drain has come to the producer position it loaded or to a busy record. -/
theorem passed_store (hn : s.loaded = some n)
    (hshows : Shows mem s.recs s.state.cons) (hround : round mem (place (s.recs.take n)) s.state = none) :
    Passed { s with loaded := none, published := s.state.cons, seen := s.recs.take n } done todo := by
  refine ⟨h.recs, h.settled, h.cons, h.handed, h.taken, nofun, ⟨done, [], (append_nil _).symm, h.cons, fun _ => rfl⟩, ?_⟩
  intro _
  have hall : ∀ r ∈ done, (!r.isBusy) = true := by
    intro r hr
    rw [h.settled r hr]
    rfl
  have htake := take_loaded h hn
  rw [htake, takeWhile_append_of_pos hall]
  cases hrest : todo.take (n - done.length) with
  | nil => rw [takeWhile_nil, append_nil]
  | cons r rest =>
    -- the record behind is one that was there at the load, so it is busy
    obtain ⟨behind, rfl⟩ : ∃ behind, todo = r :: behind := by
      cases todo with
      | nil => rw [take_nil] at hrest; cases hrest
      | cons q behind =>
        cases hcount : n - done.length with
        | zero => rw [hcount, take_zero] at hrest; cases hrest
        | succ m =>
          rw [hcount, take_succ_cons] at hrest
          injection hrest with hq _
          exact ⟨behind, by rw [hq]⟩
    have hlt : s.state.cons < place (s.recs.take n) := by
      have hpos := hdrSz_le_recLen r.len
      rw [htake, hrest, place_append, place_cons, h.cons]
      unfold hdrSz at hpos
      omega
    rw [h.recs] at hshows
    have hbusy : r.isBusy = true := by
      apply Bool.of_not_eq_false
      intro hsettled
      rw [(round_settled hshows h.cons hlt hsettled).1] at hround
      cases hround
    rw [takeWhile_cons_of_neg (by rw [hbusy]; exact Bool.false_ne_true), append_nil]

end

end

theorem passed_step {t : Ring} (hstep : Step s t) {done todo : List Record} (h : Passed s done todo) :
    ∃ done' todo', Passed t done' todo' := by
  cases hstep with
  | reserve len hlen => exact ⟨done, _, passed_reserve h _⟩
  | settle before r behind status hrecs hbusy _ =>
    obtain ⟨todo', h'⟩ := passed_settle h hrecs hbusy { r with status := status }
    exact ⟨done, todo', h'⟩
  | load hidle => exact ⟨done, todo, passed_load h hidle⟩
  | round n hloaded mem hshows state hround => exact passed_round h hloaded hshows hround
  | store n hloaded mem hshows hround => exact ⟨done, todo, passed_store h hloaded hshows hround⟩

theorem passed_reachable (h : ReflTransGen Step .start s) : ∃ done todo, Passed s done todo := by
  induction h with
  | refl => exact ⟨[], [], passed_start⟩
  | tail _ hstep ih =>
    obtain ⟨done, todo, h⟩ := ih
    exact passed_step hstep h

/-- However the producer and the drains are interleaved: the published position is the end of a record and not past the
producer position, the matcher has taken just the events handed on, and after a drain these are the events of the
records in front of the first one that the drain found busy, in order and each once. -/
theorem ring_hands_on {s : Ring} (h : ReflTransGen Step .start s) :
    (∃ front back, s.recs = front ++ back ∧ s.published = place front) ∧ s.published ≤ place s.recs ∧
      s.state = { s.handed.foldl State.take start with cons := s.state.cons } ∧
      (s.loaded = none → s.handed = (s.seen.takeWhile (!·.isBusy)).filterMap Record.event?) := by
  obtain ⟨done, todo, hpassed⟩ := passed_reachable h
  obtain ⟨front, back, rfl, hpublished, -⟩ := hpassed.published
  have hrecs : s.recs = front ++ (back ++ todo) := by rw [hpassed.recs, append_assoc]
  refine ⟨⟨front, back ++ todo, hrecs, hpublished⟩, ?_, hpassed.taken, ?_⟩
  · rw [hpublished, hrecs, place_append]
    exact Nat.le_add_right _ _
  · intro hidle
    rw [hpassed.seen hidle, hpassed.handed]

/-! ## A drain at once -/

/-- A round passes at least a header. -/
theorem round_advances {s s' : State} (h : round mem prod s = some s') :
    s.cons < prod ∧ s.cons + hdrSz ≤ s'.cons := by
  unfold round at h
  split at h
  next hlt =>
    dsimp only at h
    split at h
    · cases h
    · obtain rfl := Option.some.inj h
      exact ⟨hlt, Nat.add_le_add_left (hdrSz_le_recLen _) _⟩
  next => cases h

/-- The rounds of a drain that nothing interrupts. -/
theorem steps_rounds (fuel : Nat) (hn : s.loaded = some n)
    (hshows : Shows mem s.recs s.state.cons) :
    s.state.cons ≤ (exec (round mem (place (s.recs.take n))) fuel s.state).cons ∧
      ∃ handed, ReflTransGen Step s
        { s with state := exec (round mem (place (s.recs.take n))) fuel s.state, handed := handed } := by
  induction fuel generalizing s with
  | zero => exact ⟨Nat.le_refl _, s.handed, .refl⟩
  | succ fuel ih =>
    cases hround : round mem (place (s.recs.take n)) s.state with
    | none =>
      rw [exec_of_none hround]
      exact ⟨Nat.le_refl _, s.handed, .refl⟩
    | some state =>
      have hle : s.state.cons ≤ state.cons := (Nat.le_add_right _ _).trans (round_advances hround).2
      have hstep := Step.round s n hn mem hshows state hround
      obtain ⟨hmore, handed, hsteps⟩ := ih (s := { s with
        state := state, handed := s.handed ++ (roundEvent mem (place (s.recs.take n)) s.state).toList }) hn (hshows.mono hle)
      rw [exec_succ_of_some hround]
      exact ⟨hle.trans hmore, handed, hsteps.head hstep⟩

/-- A drain that nothing interrupts is `drain`, with the memory it finds. -/
theorem steps_drain (hidle : s.loaded = none) (hshows : Shows mem s.recs s.published) :
    ∃ handed, ReflTransGen Step s { s with
      state := drain mem (place s.recs) { s.state with cons := s.published }
      published := (drain mem (place s.recs) { s.state with cons := s.published }).cons
      handed := handed, seen := s.recs } := by
  have hload := Step.load s hidle
  obtain ⟨hle, handed, hrounds⟩ := steps_rounds (place s.recs - s.published)
    (s := { s with loaded := some s.recs.length, state := { s.state with cons := s.published } }) rfl hshows
  rw [take_length] at hle hrounds
  have hdone : round mem (place s.recs) (drain mem (place s.recs) { s.state with cons := s.published }) = none := by
    refine exec_done (P := fun _ => True) (fun _ _ _ _ => trivial) (fun t => place s.recs - t.cons) ?_ trivial (Nat.le_refl _)
    intro t t' _ hround
    obtain ⟨hlt, hnext⟩ := round_advances hround
    unfold hdrSz at hnext
    omega
  refine ⟨handed, (hrounds.head hload).tail ?_⟩
  have hstore := Step.store { s with
    loaded := some s.recs.length
    state := drain mem (place s.recs) { s.state with cons := s.published }, handed := handed } s.recs.length rfl mem
    (hshows.mono hle) (by rw [take_length]; exact hdone)
  simp only [take_length] at hstore
  have hloaded : s = { s with loaded := none } := by rw [← hidle]
  rw [hloaded]
  exact hstore

/-! ## Four records -/

/-- Byte `j` of a record of the size the BPF programs emit. -/
def Record.byte (r : Record) (j : Nat) : U8 :=
  if j < 4 then (r.header.setWidth 64).extractLsb' (8 * j) 8
  else
    match r.status with
    | .committed e => recordByte e j
    | _ => 0#8

/-- Records of that size one behind the other. -/
def recordsByte (rs : List Record) (i : Nat) : U8 := (rs[i / stride]?.map (Record.byte · (i % stride))).getD 0#8

theorem place_of_payload {rs : List Record} (h : ∀ r ∈ rs, r.len = payload) : place rs = stride * rs.length := by
  induction rs with
  | nil => rfl
  | cons r rs ih =>
    obtain ⟨hr, hrs⟩ := forall_mem_cons.mp h
    rw [place_cons, hr, ih hrs, length_cons, Nat.mul_succ, Nat.add_comm]
    rfl

/-- They are shown, while they are in front of the end of the ring. -/
theorem shows_recordsByte {rs : List Record} (h : ∀ r ∈ rs, r.len = payload) (hlen : stride * rs.length ≤ ringbufSz) :
    Shows (recordsByte rs) rs 0 := by
  rintro before r behind rfl -
  have hplace := place_of_payload fun q hq => h q (mem_append_left _ hq)
  rw [length_append, length_cons] at hlen
  have hoff : offset (place before) = 88 * before.length := by
    rw [hplace, offset_eq]
    change 88 * (before.length + (behind.length + 1)) ≤ 262144 at hlen
    exact Nat.mod_eq_of_lt (show 88 * before.length < 262144 by omega)
  have hat : ∀ j < 88, recordsByte (before ++ r :: behind) (88 * before.length + j) = r.byte j := by
    intro j hj
    have hdiv : (88 * before.length + j) / stride = before.length := by
      change (88 * before.length + j) / 88 = _
      omega
    have hmod : (88 * before.length + j) % stride = j := by
      change (88 * before.length + j) % 88 = _
      omega
    rw [recordsByte, hdiv, hmod, getElem?_append_right (Nat.le_refl _), Nat.sub_self]
    rfl
  rw [hoff]
  refine ⟨?_, fun e he => read_record fun j hlo hhi => ?_⟩
  · have hword : loadLe 4 (recordsByte (before ++ r :: behind)) (88 * before.length) =
        leValue (leBytes 4 (r.header.setWidth 64)) := by
      refine loadLe_eq fun i hi => ?_
      rw [hat i (by omega), Record.byte, if_pos hi]
    rw [header, hword, leValue_leBytes_four]
  · obtain ⟨-, hstatus⟩ : eventSize ≤ r.len ∧ r.status = .committed e := by
      unfold Record.event? at he
      split at he
      · split at he
        next hstatus hsize => exact ⟨hsize, Option.some.inj he ▸ hstatus⟩
        · cases he
      · cases he
    rw [hat j (by omega), Record.byte, if_neg (by omega), hstatus]

/-- A record of the size the BPF programs emit. -/
def emitted (status : Status) : Record := ⟨payload, by decide, status⟩

/-- The events of the two records that are committed. -/
def firstEvent : Event := ⟨0#32, 39#64, .replicate 6 0#64, 0#64⟩

def thirdEvent : Event := ⟨1#32, 39#64, .replicate 6 0#64, 7#64⟩

/-- The ring with four records that nothing was drained of. -/
def fourRecords : Ring :=
  { Ring.start with
    recs := [emitted (.committed firstEvent), emitted .discarded, emitted (.committed thirdEvent), emitted .busy] }

/-- The third record is committed before the second one is discarded and the first one is committed. -/
theorem steps_fourRecords : ReflTransGen Step .start fourRecords := by
  have hreserve : ∀ rs, Step { Ring.start with recs := rs } { Ring.start with recs := rs ++ [emitted .busy] } :=
    fun rs => .reserve _ payload (by decide)
  have hsettle : ∀ before behind status, status ≠ .busy →
      Step { Ring.start with recs := before ++ emitted .busy :: behind }
        { Ring.start with recs := before ++ emitted status :: behind } :=
    fun before behind status hstatus => Step.settle _ before (emitted .busy) behind status rfl rfl hstatus
  have hfour := (((ReflTransGen.single (hreserve [])).tail (hreserve _)).tail (hreserve _)).tail (hreserve _)
  have hthird := hfour.tail (hsettle [emitted .busy, emitted .busy] [emitted .busy] (.committed thirdEvent) nofun)
  have hsecond := hthird.tail (hsettle [emitted .busy] [emitted (.committed thirdEvent), emitted .busy] .discarded nofun)
  exact hsecond.tail (hsettle [] [emitted .discarded, emitted (.committed thirdEvent), emitted .busy]
    (.committed firstEvent) nofun)

/-- A drain of these hands on the events of the first and the third record and stops in front of the fourth. -/
theorem ring_hands_on_four :
    ∃ s, ReflTransGen Step .start s ∧ s.recs.length = 4 ∧ s.handed = [firstEvent, thirdEvent] := by
  have hshows : Shows (recordsByte fourRecords.recs) fourRecords.recs 0 := by
    refine shows_recordsByte (fun r hr => ?_) (by decide)
    simp only [fourRecords, mem_cons, not_mem_nil, or_false] at hr
    rcases hr with rfl | rfl | rfl | rfl <;> rfl
  obtain ⟨handed, hdrain⟩ := steps_drain rfl hshows
  have hsteps := steps_fourRecords.trans hdrain
  exact ⟨_, hsteps, rfl, (ring_hands_on hsteps).2.2.2 rfl⟩

end Vock.Ebpf
