import Vock.Ebpf

/-!
# The drained ring

What the drains of a run do with records of the size the two BPF programs emit, one behind the other
from position 0, however the drains cut the sequence (`Serves`): they read at the place of each
record, and as long as the records lie in the mapping they take their events in order
(`drains_serves`).

From this, which exits get the enter of their own thread (`pairs_iff`), and for how many records the
reads stay in the mapping (`reads_inside_iff`).

`run` maps the data of the ring once. The kernel lays a record out contiguously, so one that does not
fit in front of the end of the mapping goes on behind it; nothing is assumed of what a read finds
there, and a run that reads there is not one that pairs. That the kernel commits each record before it
moves the producer position past the next one is not shown here but taken from `Vock.Laws.Ebpf.Ring`,
where records are reserved and committed in any order; and the events are those of the two programs
(`Op.event`), as `Vock.Laws.Ebpf.Programs` shows.
-/

namespace Vock.Ebpf

open Library List

variable {s : State} {es : List Event} {done k n : Nat} {e : Event} {mem : Nat → U8} {calls : List ((Nat → U8) × Nat)}

/-! ## Records -/

/-- The size of the payload, the 80 in `bpf_ringbuf_output(&events, &event, 80, 0)`. -/
def payload : Nat := 80

/-- The distance between records. -/
def stride : Nat := recLen payload

/-- Byte `j` of the record of an event: the length word, the page offset, the event, and the eight
bytes of the payload behind it. -/
def recordByte (e : Event) (j : Nat) : U8 :=
  if j < 4 then (80#64).extractLsb' (8 * j) 8
  else if j < 8 then 0#8
  else if j < 12 then (e.isExit.setWidth 64).extractLsb' (8 * (j - 8)) 8
  else if j < 16 then 0#8
  else if j < 24 then e.nr.extractLsb' (8 * (j - 16)) 8
  else if j < 72 then (e.args.toList[(j - 24) / 8]?.getD 0#64).extractLsb' (8 * ((j - 24) % 8)) 8
  else if j < 80 then e.ret.extractLsb' (8 * (j - 72)) 8
  else 0#8

/-- Record `k` is committed: the bytes of it that are in the mapping are those of its event. -/
def Holds (mem : Nat → U8) (k : Nat) (e : Event) : Prop :=
  ∀ j < stride, offset (stride * k) + j < ringbufSz → mem (offset (stride * k) + j) = recordByte e j

/-- The header and the event of record `k` are in the mapping. -/
def Fits (k : Nat) : Prop := offset (stride * k) + (hdrSz + eventSize) ≤ ringbufSz

/-- Where record `k` is read. -/
def recordReads (k : Nat) : List (Nat × Nat) :=
  [(offset (stride * k), 4), (offset (stride * k) + hdrSz, eventSize)]

theorem take_setCons (s : State) (c : Nat) (e : Event) :
    ({ s with cons := c } : State).take e = { s.take e with cons := c } := by
  unfold State.take
  split
  · rfl
  · dsimp only
    split
    · split <;> rfl
    · rfl

theorem foldl_take_setCons (es : List Event) (s : State) (c : Nat) :
    es.foldl State.take { s with cons := c } = { es.foldl State.take s with cons := c } := by
  induction es generalizing s with
  | nil => rfl
  | cons e es ih => rw [foldl_cons, take_setCons, ih, foldl_cons]

/-- The length word of a record. -/
theorem header_record {off : Nat} (h : ∀ j < 4, mem (off + j) = recordByte e j) :
    header mem off = BitVec.ofNat 32 payload := by
  have hhdr : loadLe 4 mem off = leValue (leBytes 4 80#64) := by
    refine loadLe_eq fun i hi => ?_
    rw [h i hi, recordByte, if_pos hi]
  rw [header, hhdr]
  rfl

/-- A record laid out contiguously is read as its event. -/
theorem read_record {off : Nat} (hat : ∀ j, 8 ≤ j → j < 80 → mem (off + j) = recordByte e j) :
    Event.read mem (off + hdrSz) = e := by
  have hexit : loadLe 4 mem (off + hdrSz) = leValue (leBytes 4 (e.isExit.setWidth 64)) := by
    refine loadLe_eq fun i hi => ?_
    rw [hdrSz, Nat.add_assoc, hat _ (by omega) (by omega), recordByte, if_neg (by omega), if_neg (by omega), if_pos (by omega),
      Nat.add_sub_cancel_left]
  have hnr : loadLe 8 mem (off + hdrSz + 8) = e.nr := by
    refine loadLe_eight fun i hi => ?_
    rw [hdrSz, Nat.add_assoc, Nat.add_assoc, hat _ (by omega) (by omega), recordByte, if_neg (by omega), if_neg (by omega),
      if_neg (by omega), if_neg (by omega), if_pos (by omega), show 8 + (8 + i) - 16 = i by omega]
  have hargs : ∀ k : Fin 6, loadLe 8 mem (off + hdrSz + 16 + 8 * k) = e.args[k] := by
    intro k
    refine loadLe_eight fun i hi => ?_
    have hword : e.args.toList[(8 + (16 + (8 * k + i)) - 24) / 8]?.getD 0#64 = e.args[k] := by
      rw [show (8 + (16 + (8 * k + i)) - 24) / 8 = k by omega]
      simp
    rw [hdrSz, Nat.add_assoc, Nat.add_assoc, Nat.add_assoc, hat _ (by omega) (by omega), recordByte, if_neg (by omega),
      if_neg (by omega), if_neg (by omega), if_neg (by omega), if_neg (by omega), if_pos (by omega), hword,
      show (8 + (16 + (8 * k + i)) - 24) % 8 = i by omega]
  have hret : loadLe 8 mem (off + hdrSz + 64) = e.ret := by
    refine loadLe_eight fun i hi => ?_
    rw [hdrSz, Nat.add_assoc, Nat.add_assoc, hat _ (by omega) (by omega), recordByte, if_neg (by omega), if_neg (by omega),
      if_neg (by omega), if_neg (by omega), if_neg (by omega), if_neg (by omega), if_pos (by omega),
      show 8 + (64 + i) - 72 = i by omega]
  have hvec : Vector.ofFn (fun i : Fin 6 => loadLe 8 mem (off + hdrSz + 16 + 8 * i)) = e.args := by
    refine Vector.ext fun i hi => ?_
    rw [Vector.getElem_ofFn]
    exact hargs ⟨i, hi⟩
  rw [Event.read, hexit, leValue_leBytes_four, hnr, hret, hvec]

theorem offset_eq (cons : Nat) : offset cons = cons % ringbufSz := Nat.and_two_pow_sub_one_eq_mod cons 18

/-- A header is in the mapping, as records start at multiples of eight. -/
theorem Holds.header_eq (h : Holds mem k e) : header mem (offset (stride * k)) = BitVec.ofNat 32 payload := by
  refine header_record fun j hj => h j (hj.trans (by decide)) ?_
  rw [offset_eq]
  show 88 * k % 262144 + j < 262144
  omega

theorem Holds.read_eq (h : Holds mem k e) (hfits : Fits k) : Event.read mem (offset (stride * k) + hdrSz) = e := by
  refine read_record fun j _ hj => h j (hj.trans (by decide)) ?_
  have hend : offset (stride * k) + 80 ≤ ringbufSz := hfits
  omega

/-! ## Drains -/

section

variable {mem : Nat → U8}

/-- A round passes a committed record, and takes its event where that is in the mapping. -/
theorem round_holds (hcons : s.cons = stride * k) (hk : k < n) (hrec : Holds mem k e) :
    reads mem (stride * n) s = recordReads k ∧
      ∃ s', round mem (stride * n) s = some s' ∧ s'.cons = stride * (k + 1) ∧
        (Fits k → s' = { s.take e with cons := stride * (k + 1) }) := by
  have hlt : s.cons < stride * n := hcons ▸ Nat.mul_lt_mul_of_pos_left hk (by decide)
  have hbusy : isBusy (BitVec.ofNat 32 payload) = false := rfl
  have hevent : hasEvent (BitVec.ofNat 32 payload) = true := rfl
  have hlen : recLen (dataLen (BitVec.ofNat 32 payload)) = stride := rfl
  have hnext : s.cons + stride = stride * (k + 1) := by rw [hcons, Nat.mul_succ]
  rw [round, reads, if_pos hlt, if_pos hlt]
  dsimp only
  rw [hcons, hrec.header_eq, hbusy, hevent, hlen, ← hcons, hnext]
  refine ⟨by rw [hcons]; rfl, _, rfl, rfl, fun hfits => ?_⟩
  rw [hcons, hrec.read_eq hfits]
  rfl

/-- The records up to the producer position are passed one after the other. -/
theorem exec_holds {fuel : Nat} (hcons : s.cons = stride * k)
    (hrec : ∀ i, ∀ e ∈ es[i]?, Holds mem (k + i) e) (hfuel : es.length ≤ fuel) :
    (visited (round mem (stride * (k + es.length))) fuel s).flatMap (reads mem (stride * (k + es.length))) =
        (range' k es.length).flatMap recordReads ∧
      (exec (round mem (stride * (k + es.length))) fuel s).cons = stride * (k + es.length) ∧
      ((∀ i < es.length, Fits (k + i)) → exec (round mem (stride * (k + es.length))) fuel s =
        { es.foldl State.take s with cons := stride * (k + es.length) }) := by
  induction es generalizing k fuel s with
  | nil =>
    rw [length_nil, Nat.add_zero, ← hcons]
    have hnone : round mem s.cons s = none := by rw [round, if_neg (Nat.lt_irrefl _)]
    rw [exec_of_none hnone, visited_of_none hnone, flatMap_singleton, reads, if_neg (Nat.lt_irrefl _)]
    exact ⟨rfl, rfl, fun _ => rfl⟩
  | cons e es ih =>
    obtain ⟨fuel, rfl⟩ : ∃ m, fuel = m + 1 := ⟨fuel - 1, by rw [length_cons] at hfuel; omega⟩
    have hlt : k < k + (e :: es).length := by rw [length_cons]; omega
    obtain ⟨hread, s', hstep, hcons', htaken⟩ := round_holds hcons hlt (hrec 0 e rfl)
    have hend : k + (e :: es).length = k + 1 + es.length := by rw [length_cons]; omega
    have hnext : ∀ i, ∀ f ∈ es[i]?, Holds mem (k + 1 + i) f := by
      intro i f hf
      rw [Nat.add_assoc, Nat.add_comm 1]
      exact hrec (i + 1) f hf
    rw [hend] at hstep hread ⊢
    obtain ⟨hreads, hcons'', hexec⟩ := ih hcons' hnext (Nat.le_of_succ_le_succ hfuel)
    rw [exec_succ_of_some hstep, visited_succ_of_some hstep, flatMap_cons, hreads, hread]
    refine ⟨rfl, hcons'', fun hfits => ?_⟩
    rw [hexec fun i hi => by rw [Nat.add_assoc, Nat.add_comm 1]; exact hfits (i + 1) (Nat.succ_lt_succ hi),
      htaken (hfits 0 (Nat.succ_pos _)), foldl_take_setCons]
    rfl

end

/-- The drains go through the events, from `done` on: each call finds the records that are not yet
consumed, up to its producer position. -/
def Serves (es : List Event) : List ((Nat → U8) × Nat) → Nat → Prop
  | [], done => done = es.length
  | (mem, prod) :: calls, done => ∃ n, prod = stride * n ∧ done ≤ n ∧ n ≤ es.length ∧
      (∀ k, done ≤ k → k < n → ∀ e ∈ es[k]?, Holds mem k e) ∧ Serves es calls n

theorem drain_serves (hcons : s.cons = stride * done)
    (hle : done ≤ n) (hn : n ≤ es.length) (hrec : ∀ k, done ≤ k → k < n → ∀ e ∈ es[k]?, Holds mem k e) :
    drainReads mem (stride * n) s = (range' done (n - done)).flatMap recordReads ∧
      (drain mem (stride * n) s).cons = stride * n ∧
      ((∀ k < n, Fits k) → drain mem (stride * n) s =
        { ((es.drop done).take (n - done)).foldl State.take s with cons := stride * n }) := by
  have hlen : ((es.drop done).take (n - done)).length = n - done := by
    rw [length_take, length_drop]
    omega
  have hslice : ∀ i, ∀ e ∈ ((es.drop done).take (n - done))[i]?, Holds mem (done + i) e := by
    intro i e he
    rw [getElem?_take] at he
    split at he
    · rw [getElem?_drop] at he
      exact hrec (done + i) (by omega) (by omega) e he
    · cases he
  have hfuel : ((es.drop done).take (n - done)).length ≤ stride * n - s.cons := by
    rw [hlen, hcons, ← Nat.mul_sub]
    exact Nat.le_mul_of_pos_left _ (by decide)
  have hrun := exec_holds hcons hslice hfuel
  rw [hlen, show done + (n - done) = n by omega] at hrun
  exact ⟨hrun.1, hrun.2.1, fun hfits => hrun.2.2 fun i hi => hfits _ (by omega)⟩

/-- The drains read each record once, at its place, and take all the events in order where these are in the mapping,
wherever the sequence is cut. -/
theorem drains_serves (hserves : Serves es calls done) (hcons : s.cons = stride * done) :
    drainsReads calls s = (range' done (es.length - done)).flatMap recordReads ∧
      ((∀ k < es.length, Fits k) → drains calls s =
        { (es.drop done).foldl State.take s with cons := stride * es.length }) := by
  induction calls generalizing done s with
  | nil =>
    cases hserves
    rw [drop_length, Nat.sub_self, ← hcons]
    exact ⟨rfl, fun _ => rfl⟩
  | cons call calls ih =>
    obtain ⟨n, hprod, hle, hn, hrec, hrest⟩ := hserves
    obtain ⟨hreads, hnext, hcall⟩ := drain_serves hcons hle hn hrec
    obtain ⟨hrestReads, hdrains⟩ := ih hrest hnext
    have hevents := take_append_drop (n - done) (es.drop done)
    rw [drop_drop, show done + (n - done) = n by omega] at hevents
    have hplaces : range' done (es.length - done) = range' done (n - done) ++ range' n (es.length - n) := by
      rw [show es.length - done = (n - done) + (es.length - n) by omega, ← range'_append_1]
      congr 2
      omega
    rw [drainsReads, drains, foldl_cons, hprod, hreads, hrestReads, hplaces, flatMap_append]
    refine ⟨rfl, fun hfits => (hdrains hfits).trans ?_⟩
    rw [hcall fun k hk => hfits k (by omega), foldl_take_setCons, ← foldl_append, hevents]

/-- A drain for each record, which finds just that record. -/
def oneByOne : Nat → List Event → List ((Nat → U8) × Nat)
  | _, [] => []
  | k, e :: es => (fun i => recordByte e (i - offset (stride * k)), stride * (k + 1)) :: oneByOne (k + 1) es

theorem serves_oneByOne (done es : List Event) : Serves (done ++ es) (oneByOne done.length es) done.length := by
  induction es generalizing done with
  | nil => rw [append_nil, oneByOne, Serves]
  | cons e es ih =>
    have hnext := ih (done ++ [e])
    rw [append_assoc, length_append] at hnext
    refine ⟨done.length + 1, rfl, Nat.le_succ _, ?_, ?_, hnext⟩
    · rw [length_append, length_cons]
      omega
    · intro k hle hlt f hf
      obtain rfl : k = done.length := by omega
      rw [getElem?_append_right (Nat.le_refl _), Nat.sub_self] at hf
      cases hf
      intro j _ _
      dsimp only
      rw [Nat.add_sub_cancel_left]

/-! ## Where the ring is read -/

/-- What a thread does that the BPF programs report. -/
inductive Op where
  | enter (nr : U64) (args : Args)
  | exit (nr ret : U64)

/-- The event that the BPF programs write: `build_enter` and `build_exit`. -/
def Op.event : Op → Event
  | .enter nr args => ⟨0#32, nr, args, 0#64⟩
  | .exit nr ret => ⟨1#32, nr, .replicate 6 0#64, ret⟩

theorem recordReads_inside_iff (k : Nat) : (∀ r ∈ recordReads k, r.1 + r.2 ≤ ringbufSz) ↔ Fits k := by
  constructor
  · intro h
    exact h (offset (stride * k) + hdrSz, eventSize) (mem_pair.mpr (.inr rfl))
  · intro h r hr
    have hend : offset (stride * k) + 80 ≤ ringbufSz := h
    rcases mem_pair.mp hr with rfl | rfl
    · exact (Nat.add_le_add_left (show 4 ≤ 80 by decide) _).trans hend
    · exact h

/-- The reads stay in the mapping where all records fit. -/
theorem inside_iff_fits (hserves : Serves es calls 0) :
    (∀ r ∈ drainsReads calls start, r.1 + r.2 ≤ ringbufSz) ↔ ∀ k < es.length, Fits k := by
  rw [(drains_serves hserves rfl).1, Nat.sub_zero, ← range_eq_range']
  simp only [mem_flatMap, mem_range, ← recordReads_inside_iff]
  exact ⟨fun h k hk r hr => h r ⟨k, hk, hr⟩, fun h r ⟨k, hk, hr⟩ => h k hk r hr⟩

/-- The first 5957 records fit and no more: the stride does not divide the size of the ring, and record 5957 is the
first that does not fit in front of its end. -/
theorem forall_fits_iff (n : Nat) : (∀ k < n, Fits k) ↔ n ≤ 5957 := by
  have hfits : ∀ k, Fits k ↔ 88 * k % 262144 + 80 ≤ 262144 := by
    intro k
    rw [Fits, offset_eq]
    rfl
  simp only [hfits]
  constructor
  · intro h
    by_contra hlong
    exact absurd (h 5957 (by omega)) (by decide)
  · -- the ring is gone through less than twice
    intro hlen k hk
    have hlap : 88 * k / 262144 = 0 ∨ 88 * k / 262144 = 1 := by omega
    rcases hlap with hlap | hlap <;> omega

/-- The reads of the drains stay inside the mapping for the first 5957 records and for no more. -/
theorem reads_inside_iff (es : List Event) (calls : List ((Nat → U8) × Nat)) (hserves : Serves es calls 0) :
    (∀ r ∈ drainsReads calls start, r.1 + r.2 ≤ ringbufSz) ↔ es.length ≤ 5957 := by
  rw [inside_iff_fits hserves, forall_fits_iff]

/-- Two calls of one thread and the enter of a third. -/
def fiveEvents : List Event :=
  [Op.event (.enter 0#64 (.replicate 6 3#64)), Op.event (.exit 0#64 10#64), Op.event (.enter 3#64 (.replicate 6 4#64)),
    Op.event (.exit 3#64 0#64), Op.event (.enter 39#64 (.replicate 6 0#64))]

/-- They are drained record by record. -/
theorem reads_inside_iff_five :
    Serves fiveEvents (oneByOne 0 fiveEvents) 0 ∧
      ∀ r ∈ drainsReads (oneByOne 0 fiveEvents) start, r.1 + r.2 ≤ ringbufSz :=
  have hserves : Serves fiveEvents (oneByOne 0 fiveEvents) 0 := serves_oneByOne [] fiveEvents
  ⟨hserves, (reads_inside_iff fiveEvents _ hserves).mpr (by decide)⟩

/-- The 5958th event is read across the end. -/
theorem event_read_past_end :
    ∃ es calls, es.length = 5958 ∧ Serves es calls 0 ∧ (262080, eventSize) ∈ drainsReads calls start ∧
      ringbufSz < 262080 + eventSize := by
  have hserves := serves_oneByOne [] (replicate 5958 (Op.event (.exit 0#64 0#64)))
  refine ⟨_, _, ?_, hserves, ?_, by decide⟩
  · rw [nil_append, length_replicate]
  · rw [(drains_serves hserves rfl).1, nil_append, length_replicate]
    refine mem_flatMap.mpr ⟨5957, mem_range'_1.mpr ⟨Nat.zero_le _, by decide⟩, ?_⟩
    exact mem_pair.mpr (.inr rfl)

/-! ## Enters and exits -/

section

variable {τ : Type*}

/-- The log after the events of a sequence. -/
def logged (s : State) (ops : List (τ × Op)) : List Syscall := ((ops.map (·.2.event)).foldl State.take s).log

theorem logged_exit_of_eq {nr : U64} {args : Args} (h : s.pending = some (nr, args)) (t : τ) (ret : U64)
    (ops : List (τ × Op)) :
    logged s ((t, .exit nr ret) :: ops) = logged { s with pending := none, log := s.log ++ [⟨nr, args, ret⟩] } ops := by
  have htake : s.take (Op.exit nr ret).event = { s with pending := none, log := s.log ++ [⟨nr, args, ret⟩] } := by
    simp [State.take, Op.event, h]
  rw [logged, map_cons, foldl_cons, htake]
  rfl

theorem logged_exit_of_ne {nr : U64} (h : ∀ args, s.pending ≠ some (nr, args)) (t : τ) (ret : U64)
    (ops : List (τ × Op)) : logged s ((t, .exit nr ret) :: ops) = logged s ops := by
  have htake : s.take (Op.exit nr ret).event = s := by
    rw [State.take, if_neg (by simp [Op.event])]
    split
    next pnr pargs hpending => exact if_neg fun heq => h pargs (by rw [hpending, heq]; rfl)
    next => rfl
  rw [logged, map_cons, foldl_cons, htake]
  rfl

variable [DecidableEq τ] {inside : τ → Option (U64 × Args)} {ops : List (τ × Op)}

/-- Each thread enters a call and leaves the same one; `inside` says which call each is in. -/
def Alternates (inside : τ → Option (U64 × Args)) : List (τ × Op) → Prop
  | [] => True
  | (t, .enter nr args) :: ops => inside t = none ∧ Alternates (Function.update inside t (some (nr, args))) ops
  | (t, .exit nr _) :: ops => (∃ args, inside t = some (nr, args)) ∧ Alternates (Function.update inside t none) ops

/-- The completed calls, in the order in which they end: the arguments of the thread's own enter with
the return value of its exit. -/
def completed (inside : τ → Option (U64 × Args)) : List (τ × Op) → List Syscall
  | [] => []
  | (t, .enter nr args) :: ops => completed (Function.update inside t (some (nr, args))) ops
  | (t, .exit _ ret) :: ops =>
    ((inside t).map fun call => ⟨call.1, call.2, ret⟩).toList ++ completed (Function.update inside t none) ops

/-- Each exit comes right behind an enter with the number and the arguments of its own thread's
enter; `last` is the enter in front, if there is one. -/
def Paired (last : Option (U64 × Args)) (inside : τ → Option (U64 × Args)) : List (τ × Op) → Prop
  | [] => True
  | (t, .enter nr args) :: ops => Paired (some (nr, args)) (Function.update inside t (some (nr, args))) ops
  | (t, .exit _ _) :: ops => last = inside t ∧ Paired none (Function.update inside t none) ops

/-- The log only grows, by at most one call for each that is completed, and by these where each exit comes right behind
the enter of its own thread. -/
theorem logged_grows (h : Alternates inside ops) (s : State) :
    ∃ later, logged s ops = s.log ++ later ∧ later.length ≤ (completed inside ops).length ∧
      (later = completed inside ops ↔ Paired s.pending inside ops) := by
  induction ops generalizing inside s with
  | nil => exact ⟨[], (append_nil _).symm, Nat.le_refl 0, iff_of_true rfl trivial⟩
  | cons op ops ih =>
    obtain ⟨t, op⟩ := op
    cases op with
    | enter nr args => exact ih h.2 { s with pending := some (nr, args) }
    | exit nr ret =>
      obtain ⟨⟨args, hargs⟩, hrest⟩ := h
      have hdone : completed inside ((t, .exit nr ret) :: ops) =
          ⟨nr, args, ret⟩ :: completed (Function.update inside t none) ops := by
        simp [completed, hargs]
      rw [Paired, hargs, hdone]
      by_cases hp : ∃ pargs, s.pending = some (nr, pargs)
      · obtain ⟨pargs, hp⟩ := hp
        obtain ⟨later, hlog, hlen, hiff⟩ := ih hrest { s with pending := none, log := s.log ++ [⟨nr, pargs, ret⟩] }
        refine ⟨⟨nr, pargs, ret⟩ :: later, ?_, Nat.succ_le_succ hlen, ?_⟩
        · rw [logged_exit_of_eq hp, hlog, append_assoc, singleton_append]
        · rw [hp, cons.injEq, hiff]
          simp
      · -- nothing is emitted here, and what is missing is not made up for later
        obtain ⟨later, hlog, hlen, -⟩ := ih hrest s
        refine ⟨later, by rw [logged_exit_of_ne (not_exists.mp hp), hlog], Nat.le_succ_of_le hlen, ?_⟩
        refine iff_of_false (fun heq => ?_) fun hpaired => hp ⟨args, hpaired.1⟩
        rw [heq, length_cons] at hlen
        omega

end

/-- The drains read inside the mapping and emit exactly the completed syscalls, each with the arguments of its thread's
enter, when every exit comes right behind an enter with the number and arguments of its own thread's and there are at
most 5957 records; and only then. -/
theorem pairs_iff {τ : Type*} [DecidableEq τ] (ops : List (τ × Op)) (calls : List ((Nat → U8) × Nat))
    (halt : Alternates (fun _ => none) ops) (hserves : Serves (ops.map (·.2.event)) calls 0) :
    ((∀ r ∈ drainsReads calls start, r.1 + r.2 ≤ ringbufSz) ∧
        (drains calls start).log = completed (fun _ => none) ops) ↔
      ops.length ≤ 5957 ∧ Paired none (fun _ => none) ops := by
  obtain ⟨later, hlog, -, hiff⟩ := logged_grows halt start
  obtain rfl : logged start ops = later := hlog
  have hinside := inside_iff_fits hserves
  have hlen := forall_fits_iff (ops.map (·.2.event)).length
  rw [hinside, hlen, length_map]
  refine and_congr_right fun hle => ?_
  rw [(drains_serves hserves rfl).2 (hlen.mpr (by rwa [length_map]))]
  exact hiff

/-- One thread: two calls, one after the other. -/
theorem pairs_iff_single :
    (drains (oneByOne 0 [Op.event (.enter 0#64 (.replicate 6 3#64)), Op.event (.exit 0#64 10#64),
      Op.event (.enter 3#64 (.replicate 6 4#64)), Op.event (.exit 3#64 0#64)]) start).log =
      [⟨0#64, .replicate 6 3#64, 10#64⟩, ⟨3#64, .replicate 6 4#64, 0#64⟩] :=
  (pairs_iff (τ := Unit) [((), .enter 0#64 (.replicate 6 3#64)), ((), .exit 0#64 10#64),
    ((), .enter 3#64 (.replicate 6 4#64)), ((), .exit 3#64 0#64)] _
    ⟨rfl, ⟨_, rfl⟩, rfl, ⟨_, rfl⟩, trivial⟩ (serves_oneByOne [] _)).mpr ⟨by decide, rfl, rfl, trivial⟩ |>.2

/-- Two threads inside `read` at the same time: the first one to come back gets the other one's
arguments, and the second call is not emitted at all. -/
theorem second_enter_wins :
    ∃ calls, Serves [Op.event (.enter 0#64 (.replicate 6 3#64)), Op.event (.enter 0#64 (.replicate 6 4#64)),
        Op.event (.exit 0#64 10#64), Op.event (.exit 0#64 20#64)] calls 0 ∧
      (drains calls start).log = [⟨0#64, .replicate 6 4#64, 10#64⟩] ∧
      completed (fun _ => none) [(false, .enter 0#64 (.replicate 6 3#64)), (true, .enter 0#64 (.replicate 6 4#64)),
        (false, .exit 0#64 10#64), (true, .exit 0#64 20#64)] =
        [⟨0#64, .replicate 6 3#64, 10#64⟩, ⟨0#64, .replicate 6 4#64, 20#64⟩] := by
  have hserves := serves_oneByOne [] [Op.event (.enter 0#64 (.replicate 6 3#64)),
    Op.event (.enter 0#64 (.replicate 6 4#64)), Op.event (.exit 0#64 10#64), Op.event (.exit 0#64 20#64)]
  refine ⟨_, hserves, ?_, rfl⟩
  rw [(drains_serves hserves rfl).2 ((forall_fits_iff _).mpr (show 4 ≤ 5957 by decide))]
  rfl

end Vock.Ebpf
