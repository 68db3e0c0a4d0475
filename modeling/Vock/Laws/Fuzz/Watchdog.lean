import Mathlib.Algebra.BigOperators.Intervals
import Vock.Fuzz.ProgExec
import Vock.Library.Inevitable

/-!
# The watchdog

Each thread sets the one timer around its own call and switches it off behind it, whoever set it. A
thread that is blocked while the timer is off waits for ever, and `run_prog` joins it without a
deadline.

`Spared` says which programs keep out of this: a call that blocks is made by the main thread, with no
spawned thread left that could switch the timer off or sleep in `join`, and blocks once. These return
however the threads are interleaved, and all others can hang (`run_returns_iff`). The run that returns
is found by a measure that each step lowers (`measure_lt`) and an invariant that leaves no state
without a step (`Guarded.moves`); the runs that hang are given step by step (`hangs_of_twice`,
`hangs_of_overlapped`, `hangs_of_before`, `hangs_of_early`).

The timer is the one of `alarm`, and the signal reaches any thread that sleeps in a system call, the
main thread in `join` too. Nothing is said of the time that passes: the program's deadline may be over
before any call, and whether the timer can go off before its call has begun is a parameter.
-/

namespace Vock.Fuzz.Watch

open Library List

variable {i b k j : Nat} {ph : Phase} {t : Thread} {s : State} {threads : List (Nat × Phase)} {ph' : Phase}
  {alarm : Alarm} {early : Bool} {opts : Opts} {prog : Prog} {blocks : Nat → Nat}

/-! ## Jobs -/

theorem State.job?_main : s.job? none = some (i, ph) ↔ s.main = .at i ph := by
  unfold State.job?
  cases s.main <;> simp

@[simp] theorem State.job?_timer (s : State) (timer : Option Thread) (t : Thread) :
    { s with timer := timer }.job? t = s.job? t := by cases t <;> rfl

/-- The calls of the spawned threads. -/
def State.calls (s : State) : List Nat := s.threads.map Prod.fst

theorem State.mem_calls (h : s.job? (some k) = some (i, ph)) : s.calls[k]? = some i := by
  rw [State.calls, getElem?_map, show s.threads[k]? = some (i, ph) from h]
  rfl

theorem map_fst_set (h : threads[k]? = some (i, ph))
    (ph' : Phase) : (threads.set k (i, ph')).map Prod.fst = threads.map Prod.fst := by
  obtain ⟨hlt, hk⟩ := List.getElem?_eq_some_iff.mp h
  have hlt' : k < (threads.map Prod.fst).length := by rwa [length_map]
  have hfst : (threads.map Prod.fst)[k] = i := by rw [getElem_map, hk]
  rw [map_set, ← hfst, set_getElem_self]

theorem lt_length_of_overlaps {opts : Opts} {prog : Prog} (h : overlaps opts prog i = true) :
    i < prog.calls.length := by
  by_contra hge
  rw [overlaps, getElem?_eq_none (Nat.le_of_not_lt hge)] at h
  cases h

section

variable (early opts prog blocks)

/-- A call blocks at most once, and only where the timer does not go off too early; neither a call that
blocks nor one in front of it is overlapped. -/
structure Spared : Prop where
  late : ∀ b, 0 < stops blocks prog b → early = false
  once : ∀ b, stops blocks prog b ≤ 1
  alone : ∀ b, 0 < stops blocks prog b → ∀ x ≤ b, overlaps opts prog x = false

/-- What holds of every run: the spawned threads have calls of their own, all in front of the main
thread's. -/
structure Roster (s : State) : Prop where
  spawned : ∀ i ∈ s.calls, overlaps opts prog i = true
  behind : ∀ i ∈ s.calls, ∀ j ph, s.main = .at j ph → i < j
  main : ∀ i ph, s.main = .at i ph → ph = .starting ∨
    i < prog.calls.length ∧ overlaps opts prog i = false ∧ ph ≠ .finished
  joins : ∀ k, s.main = .joining k → k ≤ s.threads.length

/-- The timer is that of the thread that is blocked or about to be. -/
structure Guarded (s : State) : Prop where
  depth : ∀ t i n, s.job? t = some (i, .inside n) → n ≤ stops blocks prog i
  armed : ∀ t i, s.job? t = some (i, .armed) → 0 < stops blocks prog i → s.timer = some t
  blocked : ∀ t i n, s.job? t = some (i, .inside (n + 1)) → s.timer = some t

end

variable {s s' : State}

theorem roster_start : Roster opts prog start where
  spawned := nofun
  behind := nofun
  main := by rintro i ph ⟨⟩; exact .inl rfl
  joins := nofun

theorem guarded_start : Guarded prog blocks start where
  depth := by rintro (_ | k) i n ⟨⟩
  armed := by rintro (_ | k) i ⟨⟩
  blocked := by rintro (_ | k) i n ⟨⟩

/-- Only the main thread is at a call that blocks. -/
theorem Roster.main_of_blocks (h : Roster opts prog s) (hsp : Spared early opts prog blocks)
    (ht : s.job? t = some (b, ph)) (hb : 0 < stops blocks prog b) : t = none := by
  cases t with
  | none => rfl
  | some k =>
    have hov := h.spawned b (mem_of_getElem? (State.mem_calls ht))
    exact absurd hov (by rw [hsp.alone b hb b (Nat.le_refl b)]; decide)

/-- While it is, no other thread is at a call. -/
theorem Roster.exclusive (h : Roster opts prog s) (hsp : Spared early opts prog blocks) {t' : Thread}
    (ht : s.job? t = some (b, ph)) (hb : 0 < stops blocks prog b) (ht' : s.job? t' = some (j, ph')) : t' = t := by
  obtain rfl := h.main_of_blocks hsp ht hb
  cases t' with
  | none => rfl
  | some k =>
    -- a spawned thread has a call in front of the main thread's
    have hmem := mem_of_getElem? (State.mem_calls ht')
    have hlt := h.behind j hmem b ph (State.job?_main.mp ht)
    exact absurd (h.spawned j hmem) (by rw [hsp.alone b hb j hlt.le]; decide)

/-! ## What a step does -/

/-- The step of a thread that takes its call one phase on. -/
structure Own (prog : Prog) (blocks : Nat → Nat) (t : Thread) (s s' : State) : Prop where
  moved : ∃ i ph ph' alarm, s.job? t = some (i, ph) ∧
    ph.next (stops blocks prog i) = some (ph', alarm) ∧ s'.timer = alarm.set t s.timer ∧
    ∀ j ph'', s'.job? t = some (j, ph'') → j = i ∧ ph'' = ph' ∨ ph'' = .starting
  others : ∀ t' ≠ t, s'.job? t' = s.job? t'

private theorem job?_of_main {main : Main} (hmain : ∀ i ph, main ≠ .at i ph)
    (h : { s with main := main }.job? t = some (i, ph)) : s.job? t = some (i, ph) := by
  cases t with
  | none => exact absurd (State.job?_main.mp h) (hmain i ph)
  | some k => exact h

/-- A step leaves the timer and the jobs alone, takes one call on, or is the signal. -/
theorem Step.cases (h : Step early opts prog blocks s s') :
    (s'.timer = s.timer ∧ ∀ t i ph, s'.job? t = some (i, ph) → s.job? t = some (i, ph) ∨ ph = .starting) ∨
      (∃ t, Own prog blocks t s s') ∨
      (∃ t i n, s.job? t = some (i, .inside (n + 1)) ∧ s' = { s.put t (i, .inside n) with timer := none }) ∨
      s.Due early ∧ (s.Waits ∨ ∀ t i n, s.job? t ≠ some (i, .inside (n + 1))) ∧ s' = { s with timer := none } := by
  cases h with
  | leave hmain | join hmain hk | finish hmain =>
    exact .inl ⟨rfl, fun t i ph hjob => .inl (job?_of_main (by rintro _ _ ⟨⟩) hjob)⟩
  | @spawn i hmain hov =>
    refine .inl ⟨rfl, fun t j ph hjob => ?_⟩
    cases t with
    | none =>
      cases hjob
      exact .inr rfl
    | some k =>
      have hk : (s.threads ++ [(i, .starting)])[k]? = some (j, ph) := hjob
      rcases Nat.lt_or_ge k s.threads.length with hlt | hge
      · rw [getElem?_append_left hlt] at hk
        exact .inl hk
      · rw [getElem?_append_right hge, getElem?_singleton] at hk
        split at hk
        · cases hk; exact .inr rfl
        · cases hk
  | @call i ph ph' alarm hmain hlt hov hnext =>
    refine .inr (.inl ⟨none, ⟨i, ph, ph', alarm, State.job?_main.mpr hmain, hnext, rfl, ?_⟩, ?_⟩)
    · intro j ph'' hjob
      have hmain' := State.job?_main.mp hjob
      split at hmain'
      · cases hmain'; exact .inr rfl
      · cases hmain'; exact .inl ⟨rfl, rfl⟩
    · rintro (_ | k) hne
      · exact absurd rfl hne
      · rfl
  | @thread k i ph ph' alarm hk hnext =>
    have hlt := (List.getElem?_eq_some_iff.mp hk).1
    refine .inr (.inl ⟨some k, ⟨i, ph, ph', alarm, hk, hnext, rfl, ?_⟩, ?_⟩)
    · intro j ph'' hjob
      have hjob' : (s.threads.set k (i, ph'))[k]? = some (j, ph'') := hjob
      rw [getElem?_set_self hlt] at hjob'
      cases hjob'
      exact .inl ⟨rfl, rfl⟩
    · rintro (_ | k') hne
      · rfl
      · exact getElem?_set_ne fun heq => hne (congrArg some heq.symm)
  | wake hdue hjob => exact .inr (.inr (.inl ⟨_, _, _, hjob, rfl⟩))
  | lapse hdue hno => exact .inr (.inr (.inr ⟨hdue, hno, rfl⟩))

theorem State.job?_put {job job' : Nat × Phase} (h : s.job? t = some job) (t' : Thread) :
    (s.put t job').job? t' = if t' = t then some job' else s.job? t' := by
  cases t with
  | none =>
    cases t' with
    | none => rw [if_pos rfl]; rfl
    | some k => rw [if_neg (by simp)]; rfl
  | some k =>
    cases t' with
    | none => rw [if_neg (by simp)]; rfl
    | some k' =>
      have hlt := (List.getElem?_eq_some_iff.mp (show s.threads[k]? = some job from h)).1
      show (s.threads.set k job')[k']? = _
      by_cases hk : k' = k
      · rw [hk, if_pos rfl, getElem?_set_self hlt]
      · rw [if_neg (by simpa using hk), getElem?_set_ne (Ne.symm hk)]
        rfl

/-- The roster does not depend on how far the threads are. -/
private theorem Roster.of_threads (h : Roster opts prog s) (hk : s.threads[k]? = some (i, ph))
    (ph' : Phase) (timer : Option Thread) :
    Roster opts prog { s with threads := s.threads.set k (i, ph'), timer := timer } := by
  have hcalls : State.calls { s with threads := s.threads.set k (i, ph'), timer := timer } = s.calls :=
    map_fst_set hk ph'
  refine ⟨hcalls ▸ h.spawned, hcalls ▸ h.behind, h.main, fun k' hk' => ?_⟩
  rw [length_set]
  exact h.joins k' hk'

theorem Roster.step (h : Roster opts prog s) (hstep : Step early opts prog blocks s s') : Roster opts prog s' := by
  cases hstep with
  | leave hmain =>
    exact ⟨h.spawned, nofun, nofun, by rintro k ⟨⟩; exact Nat.zero_le _⟩
  | @spawn i hmain hov =>
    have hcalls : ∀ j, j ∈ s.calls ++ [i] ↔ j ∈ s.calls ∨ j = i := by simp
    have heq : State.calls { s with main := .at (i + 1) .starting, threads := s.threads ++ [(i, .starting)] } =
        s.calls ++ [i] := map_append
    have hlt : ∀ j ∈ s.calls, j < i := fun j hj => h.behind j hj i _ hmain
    refine ⟨fun j hj => ?_, ?_, by rintro _ _ ⟨⟩; exact .inl rfl, nofun⟩
    · rw [heq, hcalls] at hj
      rcases hj with hj | rfl
      · exact h.spawned j hj
      · exact hov
    · rintro j hj _ _ ⟨⟩
      rw [heq, hcalls] at hj
      rcases hj with hj | rfl
      · exact Nat.lt_succ_of_lt (hlt j hj)
      · exact Nat.lt_succ_self j
  | @call i ph ph' alarm hmain hlt hov hnext =>
    refine ⟨h.spawned, fun j hj i' ph'' hmain' => ?_, fun i' ph'' hmain' => ?_, fun k hk => ?_⟩
    · have hji := h.behind j hj i ph hmain
      split at hmain' <;> cases hmain' <;> omega
    · dsimp only at hmain'
      split at hmain'
      next => cases hmain'; exact .inl rfl
      next hne => cases hmain'; exact .inr ⟨hlt, hov, hne⟩
    · dsimp only at hk
      split at hk <;> cases hk
  | thread hk hnext => exact h.of_threads hk _ _
  | join hmain hk =>
    refine ⟨h.spawned, nofun, nofun, ?_⟩
    rintro k ⟨⟩
    exact (List.getElem?_eq_some_iff.mp hk).1
  | finish hmain => exact ⟨h.spawned, nofun, nofun, nofun⟩
  | @wake t i n hdue hjob =>
    cases t with
    | none =>
      have hmain := State.job?_main.mp hjob
      refine ⟨h.spawned, ?_, ?_, nofun⟩
      · rintro j hj _ _ ⟨⟩
        exact h.behind j hj i _ hmain
      · rintro _ _ ⟨⟩
        rcases h.main i _ hmain with hph | ⟨hlt, hov, -⟩
        · cases hph
        · exact .inr ⟨hlt, hov, nofun⟩
    | some k => exact h.of_threads hjob _ none
  | lapse hdue hno => exact ⟨h.spawned, h.behind, h.main, h.joins⟩

/-! ## The timer is on while a thread is blocked -/

/-- A call is entered with the timer as it is. -/
theorem Phase.next_inside {n : Nat} (h : ph.next b = some (.inside n, alarm)) :
    ph = .armed ∧ n = b ∧ alarm = .keep := by
  cases ph with
  | armed => cases h; exact ⟨rfl, rfl, rfl⟩
  | inside m => cases m <;> cases h
  | starting | returned | finished => cases h

/-- A thread that takes its own call on keeps the timer on for itself. -/
private theorem Guarded.own (h : Guarded prog blocks s) (hr : Roster opts prog s) (hsp : Spared early opts prog blocks)
    (hown : Own prog blocks t s s') : Guarded prog blocks s' := by
  obtain ⟨⟨i, ph, ph', alarm, hjob, hnext, htimer, hself⟩, hothers⟩ := hown
  -- no other thread waits for the timer while this one moves
  have hother : ∀ t' b ph, t' ≠ t → s'.job? t' = some (b, ph) → 0 < stops blocks prog b → False := by
    intro t' b ph hne hjob' hb
    rw [hothers t' hne] at hjob'
    exact hne (hr.exclusive hsp hjob' hb hjob).symm
  refine ⟨?_, ?_, ?_⟩
  · intro t' b n hjob'
    by_cases hne : t' = t
    · subst hne
      rcases hself b _ hjob' with ⟨rfl, rfl⟩ | hph
      · exact (Phase.next_inside hnext).2.1.le
      · cases hph
    · exact h.depth t' b n (by rwa [hothers t' hne] at hjob')
  · intro t' b hjob' hb
    by_cases hne : t' = t
    · subst hne
      rcases hself b _ hjob' with ⟨rfl, rfl⟩ | hph
      · cases ph with
        | starting => cases hnext; exact htimer
        | inside m => cases m <;> cases hnext
        | armed | returned | finished => cases hnext
      · cases hph
    · exact (hother t' b _ hne hjob' hb).elim
  · intro t' b n hjob'
    by_cases hne : t' = t
    · subst hne
      rcases hself b _ hjob' with ⟨rfl, rfl⟩ | hph
      · obtain ⟨rfl, hin, rfl⟩ := Phase.next_inside hnext
        exact htimer.trans (h.armed t' b hjob (by omega))
      · cases hph
    · have hb := h.depth t' b (n + 1) (by rwa [hothers t' hne] at hjob')
      exact (hother t' b _ hne hjob' (by omega)).elim

theorem Guarded.step (h : Guarded prog blocks s) (hr : Roster opts prog s) (hsp : Spared early opts prog blocks)
    (hstep : Step early opts prog blocks s s') : Guarded prog blocks s' := by
  rcases hstep.cases with ⟨htimer, hjobs⟩ | ⟨t, hown⟩ | ⟨t, i, n, hjob, rfl⟩ | ⟨hdue, hno, rfl⟩
  · refine ⟨fun t i n hjob => ?_, fun t i hjob hb => ?_, fun t i n hjob => ?_⟩
    · exact h.depth t i n ((hjobs t i _ hjob).resolve_right nofun)
    · exact htimer.trans (h.armed t i ((hjobs t i _ hjob).resolve_right nofun) hb)
    · exact htimer.trans (h.blocked t i n ((hjobs t i _ hjob).resolve_right nofun))
  · exact h.own hr hsp hown
  · -- the one thread that was blocked is no longer
    have htimer := h.blocked t i n hjob
    have hn : n + 1 ≤ 1 := (h.depth t i _ hjob).trans (hsp.once i)
    refine ⟨fun t' b m hjob' => ?_, fun t' b hjob' hb => ?_, fun t' b m hjob' => ?_⟩
    all_goals
      rw [State.job?_timer, State.job?_put hjob] at hjob'
      split at hjob'
    next => cases hjob'; omega
    next => exact h.depth t' b m hjob'
    next => cases hjob'
    next hne =>
      rw [h.armed t' b hjob' hb] at htimer
      exact absurd (Option.some.inj htimer) hne
    next => cases hjob'; omega
    next hne =>
      rw [h.blocked t' b m hjob'] at htimer
      exact absurd (Option.some.inj htimer) hne
  · refine ⟨h.depth, fun t' b hjob' hb => ?_, fun t' b m hjob' => ?_⟩
    · -- the timer would be that of a thread that has not begun its call
      have htimer := h.armed t' b hjob' hb
      obtain ⟨t, ht, hearly | ⟨i, ph, hjob, hph⟩⟩ := hdue
      · exact absurd (hsp.late b hb) (by rw [hearly]; decide)
      · rw [ht] at htimer
        cases htimer
        rw [show s.job? t' = some (b, .armed) from hjob'] at hjob
        cases hjob
        exact absurd rfl hph
    · -- the blocked thread is the main thread, which therefore does not join
      rcases hno with ⟨k, i, ph, hmain, -⟩ | hno
      · obtain rfl := hr.main_of_blocks hsp hjob' (Nat.lt_of_lt_of_le m.succ_pos (h.depth t' b _ hjob'))
        cases hmain.symm.trans (State.job?_main.mp hjob')
      · exact absurd hjob' (hno t' b m)

/-- A thread at a call has a step, or the timer is due for it. -/
private theorem next_or_blocked (blocks : Nat) (h : ph ≠ .finished) :
    (∃ ph' alarm, ph.next blocks = some (ph', alarm)) ∨ ∃ n, ph = .inside (n + 1) := by
  cases ph with
  | starting | armed | returned => exact .inl ⟨_, _, rfl⟩
  | inside n =>
    cases n with
    | zero => exact .inl ⟨_, _, rfl⟩
    | succ n => exact .inr ⟨n, rfl⟩
  | finished => exact absurd rfl h

private theorem Guarded.wakes (h : Guarded prog blocks s) {n : Nat}
    (hjob : s.job? t = some (i, .inside (n + 1))) : ∃ s', Step early opts prog blocks s s' :=
  ⟨_, .wake ⟨t, h.blocked t i n hjob, .inr ⟨i, _, hjob, nofun⟩⟩ hjob⟩

/-- Short of its return, a run has a step. -/
theorem Guarded.moves (h : Guarded prog blocks s) (hr : Roster opts prog s) (hdone : s.main ≠ .done) :
    ∃ s', Step early opts prog blocks s s' := by
  cases hmain : s.main with
  | done => exact absurd hmain hdone
  | «at» i ph =>
    rcases hr.main i ph hmain with rfl | ⟨hlt, hov, hph⟩
    · exact ⟨_, .leave hmain⟩
    · rcases next_or_blocked (stops blocks prog i) hph with ⟨ph', alarm, hnext⟩ | ⟨n, rfl⟩
      · exact ⟨_, .call hmain hlt hov hnext⟩
      · exact h.wakes (State.job?_main.mpr hmain)
  | joining k =>
    rcases Nat.eq_or_lt_of_le (hr.joins k hmain) with rfl | hlt
    · exact ⟨_, .finish hmain⟩
    · obtain ⟨⟨i, ph⟩, hk⟩ : ∃ job, s.threads[k]? = some job := ⟨_, getElem?_eq_getElem hlt⟩
      by_cases hph : ph = .finished
      · subst hph
        exact ⟨_, .join hmain hk⟩
      · rcases next_or_blocked (stops blocks prog i) hph with ⟨ph', alarm, hnext⟩ | ⟨n, rfl⟩
        · exact ⟨_, .thread hk hnext⟩
        · exact h.wakes (show s.job? (some k) = _ from hk)

/-! ## No run goes on for ever -/

/-- The steps a thread has left at a call, at most. -/
def Phase.rank (blocks : Nat) : Phase → Nat
  | .starting => blocks + 8
  | .armed => blocks + 6
  | .inside n => n + 4
  | .returned => 2
  | .finished => 0

theorem Phase.rank_next (h : ph.next b = some (ph', alarm)) :
    ph'.rank b + 2 ≤ ph.rank b := by
  cases ph with
  | inside n =>
    cases n with
    | zero => cases h; exact Nat.le_refl _
    | succ n => cases h
  | finished => cases h
  | starting | armed | returned => cases h; simp only [Phase.rank, Nat.le_refl]

/-- One while the timer is on. -/
def onRank (timer : Option Thread) : Nat := if timer.isSome then 1 else 0

@[simp] theorem onRank_none : onRank none = 0 := rfl

@[simp] theorem onRank_some (t : Thread) : onRank (some t) = 1 := rfl

theorem onRank_le (timer : Option Thread) : onRank timer ≤ 1 := by
  unfold onRank
  split <;> omega

section

variable (prog blocks)

/-- What the calls behind `i` still cost. -/
def ahead (i : Nat) : Nat := ∑ j ∈ Finset.Ico (i + 1) (prog.calls.length + 1), (stops blocks prog j + 12)

def threadsRank (threads : List (Nat × Phase)) : Nat := (threads.map fun t => t.2.rank (stops blocks prog t.1)).sum

def mainRank (s : State) : Nat :=
  match s.main with
  | .at i ph => ahead prog blocks i + ph.rank (stops blocks prog i) + s.threads.length
  | .joining k => s.threads.length - k + 1
  | .done => 0

/-- The steps a run has left, at most. -/
def measure (s : State) : Nat := mainRank prog blocks s + threadsRank prog blocks s.threads + onRank s.timer

theorem ahead_eq (h : i < prog.calls.length) :
    ahead prog blocks i = stops blocks prog (i + 1) + 12 + ahead prog blocks (i + 1) :=
  Finset.sum_eq_sum_Ico_succ_bot (by omega) _

theorem threadsRank_set (h : threads[k]? = some (i, ph))
    (ph' : Phase) : threadsRank prog blocks (threads.set k (i, ph')) + ph.rank (stops blocks prog i) =
      threadsRank prog blocks threads + ph'.rank (stops blocks prog i) := by
  induction threads generalizing k with
  | nil => cases h
  | cons t threads ih =>
    cases k with
    | zero =>
      cases h
      simp only [threadsRank, set_cons_zero, map_cons, sum_cons]
      omega
    | succ k =>
      have := ih h
      simp only [threadsRank, set_cons_succ, map_cons, sum_cons] at this ⊢
      omega

variable {prog blocks}

theorem measure_lt (h : Step early opts prog blocks s s') :
    measure prog blocks s' < measure prog blocks s := by
  unfold measure mainRank
  cases h with
  | @leave i hmain =>
    simp only [hmain, Phase.rank]
    omega
  | @spawn i hmain hov =>
    have hahead := ahead_eq prog blocks (lt_length_of_overlaps hov)
    simp only [hmain, Phase.rank, threadsRank, map_append, sum_append, length_append, map_cons,
      map_nil, sum_cons, sum_nil, length_cons, length_nil]
    omega
  | @call i ph ph' alarm hmain hlt hov hnext =>
    have hrank := Phase.rank_next hnext
    have hon := onRank_le (alarm.set none s.timer)
    simp only [hmain]
    split
    next hph =>
      split at hph
      next => 
        cases hph
        have hahead := ahead_eq prog blocks hlt
        simp only [Phase.rank]
        omega
      next => cases hph; omega
    next hph => split at hph <;> cases hph
    next hph => split at hph <;> cases hph
  | @thread k i ph ph' alarm hk hnext =>
    have hrank := Phase.rank_next hnext
    have hset := threadsRank_set prog blocks hk ph'
    have hon := onRank_le (alarm.set (some k) s.timer)
    simp only [length_set]
    omega
  | @join k i hmain hk =>
    have hlt := (List.getElem?_eq_some_iff.mp hk).1
    simp only [hmain]
    omega
  | finish hmain =>
    simp only [hmain]
    omega
  | @wake t i n hdue hjob =>
    cases t with
    | none =>
      simp only [State.job?_main.mp hjob, State.put, Phase.rank, onRank_none]
      omega
    | some k =>
      have hset := threadsRank_set prog blocks (show s.threads[k]? = _ from hjob) (.inside n)
      simp only [Phase.rank] at hset
      simp only [State.put, length_set, onRank_none]
      omega
  | lapse hdue hno =>
    obtain ⟨_, htimer, -⟩ := hdue
    simp only [htimer, onRank_none, onRank_some]
    omega

end

theorem Spared.returns (h : Spared early opts prog blocks) :
    Inevitable (Step early opts prog blocks) (fun s => s.main = .done) start := by
  refine Inevitable.of_measure (fun s => Roster opts prog s ∧ Guarded prog blocks s) ?_ (measure prog blocks)
    ?_ ?_ ⟨roster_start, guarded_start⟩
  · rintro s s' ⟨hr, hg⟩ hstep
    exact ⟨hr.step hstep, hg.step hr h hstep⟩
  · rintro s s' - hstep
    exact measure_lt hstep
  · rintro s ⟨hr, hg⟩ hdone
    exact hg.moves hr hdone

/-! ## How a run hangs -/

section

variable (early opts prog blocks) in
/-- A run gets from one state to the other. -/
abbrev Reach : State → State → Prop := Relation.ReflTransGen (Step early opts prog blocks)

variable {main : Main} {ts us : List (Nat × Phase)} {timer timer' : Option Thread} {i n : Nat} {ph ph' : Phase}
  {alarm : Alarm}

theorem reach_thread (h : ph.next (stops blocks prog i) = some (ph', alarm))
    (htimer : timer' = alarm.set (some ts.length) timer) :
    Reach early opts prog blocks ⟨main, ts ++ (i, ph) :: us, timer⟩ ⟨main, ts ++ (i, ph') :: us, timer'⟩ := by
  have hget : (ts ++ (i, ph) :: us)[ts.length]? = some (i, ph) := by simp
  have hset : (ts ++ (i, ph) :: us).set ts.length (i, ph') = ts ++ (i, ph') :: us := by simp
  have hstep : Step early opts prog blocks ⟨main, ts ++ (i, ph) :: us, timer⟩ _ := .thread hget h
  rw [hset, ← htimer] at hstep
  exact .single hstep

theorem reach_call (hlt : i < prog.calls.length) (hov : overlaps opts prog i = false)
    (h : ph.next (stops blocks prog i) = some (ph', alarm)) (htimer : timer' = alarm.set none timer)
    (hne : ph' ≠ .finished) : Reach early opts prog blocks ⟨.at i ph, ts, timer⟩ ⟨.at i ph', ts, timer'⟩ := by
  have hstep : Step early opts prog blocks ⟨.at i ph, ts, timer⟩ _ := .call rfl hlt hov h
  rw [if_neg hne, ← htimer] at hstep
  exact .single hstep

/-- A call that is waited for gets into its system call with the timer on. -/
theorem reach_inside (hlt : i < prog.calls.length) (hov : overlaps opts prog i = false) :
    Reach early opts prog blocks ⟨.at i .starting, ts, timer⟩ ⟨.at i (.inside (stops blocks prog i)), ts, some none⟩ := by
  have harm : Reach early opts prog blocks ⟨.at i .starting, ts, timer⟩ ⟨.at i .armed, ts, some none⟩ :=
    reach_call hlt hov rfl rfl (by rintro ⟨⟩)
  exact harm.trans (reach_call hlt hov rfl rfl (by rintro ⟨⟩))

/-- An overlapped call does so on its thread. -/
theorem reach_spawned (hov : overlaps opts prog i = true) :
    Reach early opts prog blocks ⟨.at i .starting, ts, timer⟩
      ⟨.at (i + 1) .starting, ts ++ [(i, .inside (stops blocks prog i))], some (some ts.length)⟩ := by
  have hspawn : Reach early opts prog blocks ⟨.at i .starting, ts, timer⟩
      ⟨.at (i + 1) .starting, ts ++ [(i, .starting)], timer⟩ := .single (.spawn rfl hov)
  have harm : Reach early opts prog blocks ⟨.at (i + 1) .starting, ts ++ [(i, .starting)], timer⟩
      ⟨.at (i + 1) .starting, ts ++ [(i, .armed)], some (some ts.length)⟩ := reach_thread rfl rfl
  exact (hspawn.trans harm).trans (reach_thread rfl rfl)

/-- The signal for the main thread. -/
theorem reach_wake_main : Reach early opts prog blocks ⟨.at i (.inside (n + 1)), ts, some none⟩ ⟨.at i (.inside n), ts, none⟩ :=
  .single (.wake ⟨none, rfl, .inr ⟨i, .inside (n + 1), rfl, by rintro ⟨⟩⟩⟩ (t := none) rfl)

/-- The signal for the thread that set the timer. -/
theorem reach_wake_thread : Reach early opts prog blocks ⟨main, ts ++ (i, .inside (n + 1)) :: us, some (some ts.length)⟩
    ⟨main, ts ++ (i, .inside n) :: us, none⟩ := by
  have hget : (ts ++ (i, .inside (n + 1)) :: us)[ts.length]? = some (i, .inside (n + 1)) := by simp
  have hset : (ts ++ (i, .inside (n + 1)) :: us).set ts.length (i, .inside n) = ts ++ (i, .inside n) :: us := by simp
  have hstep : Step early opts prog blocks ⟨main, ts ++ (i, .inside (n + 1)) :: us, some (some ts.length)⟩ _ :=
    .wake ⟨some ts.length, rfl, .inr ⟨i, _, hget, by rintro ⟨⟩⟩⟩ (t := some ts.length) hget
  rw [State.put, hset] at hstep
  exact .single hstep

theorem stops_le_one_of_overlaps (hov : overlaps opts prog i = true) : stops blocks prog i ≤ 1 := by
  unfold overlaps at hov
  unfold stops
  split at hov
  · cases hov
  next call hcall =>
    have hpseudo : call.isPseudo = false := by
      simp only [Bool.and_eq_true, Bool.not_eq_true'] at hov
      exact hov.1.2
    rw [hpseudo, if_neg (by decide)]
    split
    · exact Nat.zero_le 1
    · exact Nat.min_le_right _ _

/-- A call that is waited for comes to its end whatever the threads are at. -/
theorem reach_next (hlt : i < prog.calls.length) (hov : overlaps opts prog i = false)
    (honce : stops blocks prog i ≤ 1) :
    Reach early opts prog blocks ⟨.at i .starting, ts, timer⟩ ⟨.at (i + 1) .starting, ts, none⟩ := by
  have hleave : ∀ timer, Reach early opts prog blocks ⟨.at i (.inside 0), ts, timer⟩ ⟨.at (i + 1) .starting, ts, none⟩ := by
    intro timer
    have hreturn : Reach early opts prog blocks ⟨.at i (.inside 0), ts, timer⟩ ⟨.at i .returned, ts, timer⟩ :=
      reach_call hlt hov rfl rfl (by rintro ⟨⟩)
    have hlast : Step early opts prog blocks ⟨.at i .returned, ts, timer⟩ _ := .call rfl hlt hov rfl
    exact hreturn.tail hlast
  have hinside : Reach early opts prog blocks ⟨.at i .starting, ts, timer⟩ _ := reach_inside hlt hov
  rcases Nat.le_one_iff_eq_zero_or_eq_one.mp honce with hz | ho
  · rw [hz] at hinside
    exact hinside.trans (hleave _)
  · rw [ho] at hinside
    exact (hinside.trans reach_wake_main).trans (hleave _)

/-- So does the thread of an overlapped call, to where it has only to switch the timer off. -/
theorem reach_returned (hov : overlaps opts prog i = true) : ∃ timer',
    Reach early opts prog blocks ⟨.at i .starting, ts, timer⟩ ⟨.at (i + 1) .starting, ts ++ [(i, .returned)], timer'⟩ := by
  have hinside : Reach early opts prog blocks ⟨.at i .starting, ts, timer⟩ _ := reach_spawned hov
  have honce : stops blocks prog i ≤ 1 := stops_le_one_of_overlaps hov
  have hreturn : ∀ timer, Reach early opts prog blocks ⟨.at (i + 1) .starting, ts ++ [(i, .inside 0)], timer⟩
      ⟨.at (i + 1) .starting, ts ++ [(i, .returned)], timer⟩ := fun timer => reach_thread rfl rfl
  rcases Nat.le_one_iff_eq_zero_or_eq_one.mp honce with hz | ho
  · rw [hz] at hinside
    exact ⟨_, hinside.trans (hreturn _)⟩
  · rw [ho] at hinside
    exact ⟨_, (hinside.trans reach_wake_thread).trans (hreturn _)⟩

theorem reach_finished (hov : overlaps opts prog i = true) :
    Reach early opts prog blocks ⟨.at i .starting, ts, timer⟩ ⟨.at (i + 1) .starting, ts ++ [(i, .finished)], none⟩ := by
  obtain ⟨timer', h⟩ : ∃ timer', Reach early opts prog blocks ⟨.at i .starting, ts, timer⟩
    ⟨.at (i + 1) .starting, ts ++ [(i, .returned)], timer'⟩ := reach_returned hov
  exact h.trans (reach_thread rfl rfl)

/-- Finished threads. -/
def Finished (ts : List (Nat × Phase)) : Prop := ∀ t ∈ ts, t.2 = .finished

theorem finished_nil : Finished [] := by
  rintro t ⟨⟩

/-- The main thread gets to any call in front of which none blocks twice, leaving finished threads. -/
theorem reach_at (hij : i ≤ j) (hj : j ≤ prog.calls.length)
    (honce : ∀ b < j, stops blocks prog b ≤ 1) (ts : List (Nat × Phase)) (timer : Option Thread) :
    ∃ us timer', Finished us ∧
      Reach early opts prog blocks ⟨.at i .starting, ts, timer⟩ ⟨.at j .starting, ts ++ us, timer'⟩ := by
  induction j, hij using Nat.le_induction with
  | base => exact ⟨[], timer, finished_nil, by rw [append_nil]⟩
  | succ j hij ih =>
    obtain ⟨us, timer', hus, hreach⟩ := ih (by omega) fun b hb => honce b (by omega)
    by_cases hov : overlaps opts prog j = true
    · refine ⟨us ++ [(j, .finished)], none, ?_, ?_⟩
      · intro t ht
        rcases mem_append.mp ht with ht | ht
        · exact hus t ht
        · rw [mem_singleton.mp ht]
      · rw [← append_assoc]
        exact hreach.trans (reach_finished hov)
    · exact ⟨us, none, hus, hreach.trans
        (reach_next (by omega) (Bool.eq_false_iff.mpr hov) (honce j (by omega)))⟩

/-- Without the timer nothing moves while every thread is blocked or finished and the main thread is
blocked or joins one that is not finished. -/
theorem stuck_of_blocked (htimer : s.timer = none)
    (hthreads : ∀ t ∈ s.threads, t.2 = .finished ∨ ∃ n, t.2 = .inside (n + 1))
    (hmain : (∃ i n, s.main = .at i (.inside (n + 1))) ∨
      ∃ k i n, s.main = .joining k ∧ s.threads[k]? = some (i, .inside (n + 1))) (s' : State) :
    ¬ Step early opts prog blocks s s' := by
  intro h
  cases h with
  | leave h | spawn h => rcases hmain with ⟨i, n, hm⟩ | ⟨k, i, n, hm, -⟩ <;> rw [h] at hm <;> cases hm
  | call h hlt hov hnext =>
    rcases hmain with ⟨i, n, hm⟩ | ⟨k, i, n, hm, -⟩
    · rw [h] at hm
      cases hm
      cases hnext
    · rw [h] at hm
      cases hm
  | thread hk hnext =>
    rcases hthreads _ (mem_of_getElem? hk) with rfl | ⟨n, rfl⟩ <;> cases hnext
  | join h hk =>
    rcases hmain with ⟨i, n, hm⟩ | ⟨k, i, n, hm, hk'⟩
    · rw [h] at hm
      cases hm
    · rw [h] at hm
      cases hm
      rw [hk] at hk'
      cases hk'
  | finish h =>
    rcases hmain with ⟨i, n, hm⟩ | ⟨k, i, n, hm, hk⟩
    · rw [h] at hm
      cases hm
    · rw [h] at hm
      cases hm
      rw [getElem?_eq_none (Nat.le_refl _)] at hk
      cases hk
  | wake hdue hjob | lapse hdue hno =>
    obtain ⟨t, ht, -⟩ := hdue
    rw [htimer] at ht
    cases ht

theorem reach_joining (hts : Finished ts) (hk : k ≤ ts.length) :
    Reach early opts prog blocks ⟨.joining 0, ts ++ us, timer⟩ ⟨.joining k, ts ++ us, timer⟩ := by
  induction k with
  | zero => exact .refl
  | succ k ih =>
    refine (ih (by omega)).tail ?_
    have hget : (ts ++ us)[k]? = some (ts[k].1, .finished) := by
      rw [getElem?_append_left (by omega), getElem?_eq_getElem (by omega), ← hts ts[k] (getElem_mem _)]
    exact .join rfl hget

variable (early opts prog blocks) in
/-- Some run gets stuck before it returns. -/
def Hangs : Prop := ∃ s, Reach early opts prog blocks start s ∧ s.main ≠ .done ∧ ∀ s', ¬ Step early opts prog blocks s s'

/-- The main thread hangs in its call. -/
theorem hangs_at (hts : Finished ts)
    (h : Reach early opts prog blocks start ⟨.at i (.inside (n + 1)), ts, none⟩) : Hangs early opts prog blocks :=
  ⟨_, h, nofun, stuck_of_blocked rfl (fun t ht => .inl (hts t ht)) (.inl ⟨i, n, rfl⟩)⟩

/-- The main thread hangs in the join of a thread that is blocked, also where that one has set the
timer: the signal can come to the main thread. -/
theorem hangs_join (hts : Finished ts) (hus : Finished us) (htimer : timer = none ∨ timer = some (some ts.length))
    (h : Reach early opts prog blocks start ⟨.at j .starting, ts ++ (i, .inside (n + 1)) :: us, timer⟩) :
    Hangs early opts prog blocks := by
  have hget : (ts ++ (i, .inside (n + 1)) :: us)[ts.length]? = some (i, .inside (n + 1)) := by simp
  have hjoin : Reach early opts prog blocks start ⟨.joining ts.length, ts ++ (i, .inside (n + 1)) :: us, timer⟩ :=
    (h.tail (.leave rfl)).trans (reach_joining hts (Nat.le_refl _))
  have hoff : Reach early opts prog blocks start ⟨.joining ts.length, ts ++ (i, .inside (n + 1)) :: us, none⟩ := by
    rcases htimer with rfl | rfl
    · exact hjoin
    · exact hjoin.tail (.lapse ⟨_, rfl, .inr ⟨i, _, hget, by rintro ⟨⟩⟩⟩
        (.inl ⟨_, i, _, rfl, hget, by rintro ⟨⟩⟩))
  refine ⟨_, hoff, nofun, stuck_of_blocked rfl (fun t ht => ?_) (.inr ⟨_, i, n, rfl, hget⟩)⟩
  rcases mem_append.mp ht with ht | ht
  · exact .inl (hts t ht)
  · rcases mem_cons.mp ht with rfl | ht
    · exact .inr ⟨n, rfl⟩
    · exact .inl (hus t ht)

theorem lt_length_of_stops (h : 0 < stops blocks prog b) : b < prog.calls.length := by
  by_contra hge
  rw [stops, getElem?_eq_none (Nat.le_of_not_lt hge)] at h
  exact absurd h (Nat.lt_irrefl 0)

/-- A call that blocks twice: the second time the timer is off. -/
theorem hangs_of_twice (hb : 1 < stops blocks prog b) : Hangs early opts prog blocks := by
  -- the first such call is come to
  have hex : ∃ b, 1 < stops blocks prog b := ⟨b, hb⟩
  have hfirst := Nat.find_spec hex
  have honce : ∀ c < Nat.find hex, stops blocks prog c ≤ 1 := fun c hc => Nat.le_of_not_lt (Nat.find_min hex hc)
  have hlt : Nat.find hex < prog.calls.length := lt_length_of_stops (Nat.lt_trans Nat.zero_lt_one hfirst)
  have hov : overlaps opts prog (Nat.find hex) = false :=
    Bool.eq_false_iff.mpr fun hov => absurd (stops_le_one_of_overlaps hov) (Nat.not_le.mpr hfirst)
  obtain ⟨us, timer, hus, hreach⟩ : ∃ us timer', Finished us ∧ Reach early opts prog blocks start
      ⟨.at (Nat.find hex) .starting, [] ++ us, timer'⟩ := reach_at (Nat.zero_le _) (by omega) honce [] none
  obtain ⟨m, hm⟩ : ∃ m, stops blocks prog (Nat.find hex) = m + 2 := ⟨_, (Nat.sub_add_cancel hfirst).symm⟩
  have hinside := hreach.trans (reach_inside hlt hov)
  rw [hm] at hinside
  exact hangs_at hus (hinside.trans reach_wake_main)

/-- The main thread gets to each call with finished threads only. -/
theorem reach_from_start (honce : ∀ b, stops blocks prog b ≤ 1) (hj : j ≤ prog.calls.length) :
    ∃ ts timer, Finished ts ∧ Reach early opts prog blocks start ⟨.at j .starting, ts, timer⟩ :=
  reach_at (Nat.zero_le j) hj (fun c _ => honce c) [] none

/-- A call that blocks on a thread of its own: the signal can come to the main thread. -/
theorem hangs_of_overlapped (honce : ∀ b, stops blocks prog b ≤ 1) (hb : 0 < stops blocks prog b)
    (hov : overlaps opts prog b = true) : Hangs early opts prog blocks := by
  have hone : stops blocks prog b = 0 + 1 := Nat.le_antisymm (honce b) hb
  obtain ⟨ts, timer, hts, hreach⟩ : ∃ ts timer, Finished ts ∧ Reach early opts prog blocks start
      ⟨.at b .starting, ts, timer⟩ := reach_from_start honce (lt_length_of_overlaps hov).le
  have hinside := hreach.trans (reach_spawned hov)
  rw [hone] at hinside
  exact hangs_join hts finished_nil (.inr rfl) hinside

/-- An overlapped call in front of one that blocks: its thread switches the timer off. -/
theorem hangs_of_before (honce : ∀ b, stops blocks prog b ≤ 1) {x : Nat} (hb : 0 < stops blocks prog b)
    (hov : overlaps opts prog b = false) (hxb : x < b) (hx : overlaps opts prog x = true) :
    Hangs early opts prog blocks := by
  have hlt := lt_length_of_stops hb
  have hone : stops blocks prog b = 0 + 1 := Nat.le_antisymm (honce b) hb
  -- the thread of the overlapped call is left with the timer to switch off
  obtain ⟨ts, timer, hts, hreach⟩ : ∃ ts timer, Finished ts ∧ Reach early opts prog blocks start
      ⟨.at x .starting, ts, timer⟩ := reach_from_start honce (by omega)
  obtain ⟨timer₁, hheld⟩ : ∃ timer', Reach early opts prog blocks ⟨.at x .starting, ts, timer⟩
      ⟨.at (x + 1) .starting, ts ++ [(x, .returned)], timer'⟩ := reach_returned hx
  obtain ⟨us, timer₂, hus, hat⟩ : ∃ us timer', Finished us ∧ Reach early opts prog blocks
      ⟨.at (x + 1) .starting, ts ++ [(x, .returned)], timer₁⟩
      ⟨.at b .starting, ts ++ [(x, .returned)] ++ us, timer'⟩ :=
    reach_at hxb (by omega) (fun c _ => honce c) _ _
  rw [append_assoc, singleton_append] at hat
  have hinside := ((hreach.trans hheld).trans hat).trans (reach_inside hlt hov)
  rw [hone] at hinside
  refine hangs_at (fun t ht => ?_) (hinside.trans (reach_thread rfl rfl))
  rcases mem_append.mp ht with ht | ht
  · exact hts t ht
  · rcases mem_cons.mp ht with rfl | ht
    · rfl
    · exact hus t ht

/-- The timer goes off before the call it was set for has begun: the call blocks for ever. -/
theorem hangs_of_early (honce : ∀ b, stops blocks prog b ≤ 1) (hb : 0 < stops blocks prog b)
    (hov : overlaps opts prog b = false) : Hangs true opts prog blocks := by
  have hlt := lt_length_of_stops hb
  have hone : stops blocks prog b = 0 + 1 := Nat.le_antisymm (honce b) hb
  obtain ⟨ts, timer, hts, hreach⟩ : ∃ ts timer, Finished ts ∧ Reach true opts prog blocks start
      ⟨.at b .starting, ts, timer⟩ := reach_from_start honce hlt.le
  have harm : Reach true opts prog blocks ⟨.at b .starting, ts, timer⟩ ⟨.at b .armed, ts, some none⟩ :=
    reach_call hlt hov rfl rfl (by rintro ⟨⟩)
  have hoff : Step true opts prog blocks ⟨.at b .armed, ts, some none⟩ ⟨.at b .armed, ts, none⟩ := by
    refine .lapse ⟨none, rfl, .inl rfl⟩ (.inr ?_)
    rintro (_ | k) i n hjob
    · cases hjob
    · cases hts _ (mem_of_getElem? (show ts[k]? = _ from hjob))
  have hinside : Reach true opts prog blocks ⟨.at b .armed, ts, none⟩ ⟨.at b (.inside (stops blocks prog b)), ts, none⟩ :=
    reach_call hlt hov rfl rfl (by rintro ⟨⟩)
  rw [hone] at hinside
  exact hangs_at hts (((hreach.trans harm).tail hoff).trans hinside)

end

theorem Step.done_stays (h : Step early opts prog blocks s s') (hdone : s.main = .done) : s'.main = .done := by
  cases h with
  | leave h | spawn h | call h | join h | finish h => exact nomatch h.symm.trans hdone
  | thread | lapse => exact hdone
  | @wake t i n hdue hjob =>
    cases t with
    | none =>
      rw [State.job?_main.mp hjob] at hdone
      cases hdone
    | some k => exact hdone

theorem Hangs.not_inevitable (h : Hangs early opts prog blocks) :
    ¬ Inevitable (Step early opts prog blocks) (fun s => s.main = .done) start := by
  obtain ⟨s, hreach, hdone, hstuck⟩ := h
  intro hall
  exact hdone (hall.goal_of_stuck (fun s s' hs hstep => hstep.done_stays hs) hreach hstuck)

/-- `run_prog` returns in every interleaving of its threads exactly when the program is spared. -/
theorem run_returns_iff (early : Bool) (opts : Opts) (prog : Prog) (blocks : Nat → Nat) :
    Inevitable (Step early opts prog blocks) (fun s => s.main = .done) start ↔ Spared early opts prog blocks := by
  refine ⟨fun h => ?_, Spared.returns⟩
  have hno : ¬ Hangs early opts prog blocks := fun hangs => hangs.not_inevitable h
  have honce : ∀ b, stops blocks prog b ≤ 1 := fun b => Nat.le_of_not_lt fun hb => hno (hangs_of_twice hb)
  have hown : ∀ b, 0 < stops blocks prog b → overlaps opts prog b = false := fun b hb =>
    Bool.eq_false_iff.mpr fun hov => hno (hangs_of_overlapped honce hb hov)
  refine ⟨fun b hb => ?_, honce, fun b hb x hxb => ?_⟩
  · cases early with
    | false => rfl
    | true => exact absurd (hangs_of_early honce hb (hown b hb)) hno
  · rcases Nat.eq_or_lt_of_le hxb with rfl | hlt
    · exact hown x hb
    · exact Bool.eq_false_iff.mpr fun hx => hno (hangs_of_before honce hb (hown b hb) hlt hx)

/-- `read(0x0, &(0x7f0000000000), 0x1) (async)`, `getpid()`. -/
def readThenPid : Prog where
  calls :=
    [{ name := [], base := [], nr := some 0, args := [.int 0#64, .ptr 0#64 none, .int 1#64]
       res := none, failNth := none, isAsync := true },
     { name := [], base := [], nr := some 39, args := [], res := none, failNth := none, isAsync := false }]

/-- Only the first call blocks. -/
def firstBlocks (i : Nat) : Nat := if i = 0 then 1 else 0

/-- The thread of `read` sets the timer and is blocked; `getpid` on the main thread sets it again and
switches it off. The main thread joins a thread that no signal will reach. -/
theorem getpid_cancels_alarm :
    Reach false ⟨true, false⟩ readThenPid firstBlocks start ⟨.joining 0, [(0, .inside 1)], none⟩ ∧
      ¬ Inevitable (Step false ⟨true, false⟩ readThenPid firstBlocks) (fun s => s.main = .done) start := by
  have hread : Reach false ⟨true, false⟩ readThenPid firstBlocks start
      ⟨.at 1 .starting, [(0, .inside 1)], some (some 0)⟩ := reach_spawned (by decide)
  have hpid : Reach false ⟨true, false⟩ readThenPid firstBlocks ⟨.at 1 .starting, [(0, .inside 1)], some (some 0)⟩
      ⟨.at 2 .starting, [(0, .inside 1)], none⟩ := reach_next (by decide) (by decide) (by decide)
  have hjoin := (hread.trans hpid).tail (.leave rfl)
  refine ⟨hjoin, Hangs.not_inevitable ⟨_, hjoin, nofun, stuck_of_blocked rfl ?_ (.inr ⟨0, 0, 0, rfl, rfl⟩)⟩⟩
  rintro t (_ | ⟨_, ⟨⟩⟩)
  exact .inr ⟨0, rfl⟩

end Vock.Fuzz.Watch
