import Vock.Laws.Preload

/-!
# What the shim logs of a process

The threads of a process have instances of their own, so that what one does leaves the segments of the others as they are
(`Holds.step`). When the process ends, the thread that ends it is flushed and no other: all segments are logged exactly
when the other threads have collected nothing since their last flush (`logs_threads_iff`).
-/

namespace Vock.Preload

open List

/-- The segment each thread collects, and the segments that have ended. -/
structure Threads where
  current : Nat → Option (List U64)
  ended : List (Nat × List U64)

/-- The segments as one thread sees them. -/
def Threads.view (t : Threads) (tid : Nat) : Segments := ⟨tid, t.current tid, t.ended⟩

/-- What an event of a thread does to the segments. -/
def Threads.step (t : Threads) (event : Nat × Event) : Threads :=
  let seen := (t.view event.1).step event.2
  { current := Function.update t.current event.1 seen.current, ended := seen.ended }

/-- The segments of a process, from its start. -/
def threads (events : List (Nat × Event)) : Threads := events.foldl Threads.step ⟨fun _ => none, []⟩

/-- A thread keeps its number. -/
theorem step_tid {event : Event} (he : event.inThread = true) (t : Segments) : (t.step event).tid = t.tid := by
  cases event with
  | forkChild tid remote => exact nomatch he
  | _ => rfl

variable {events : List (Nat × Event)} {aarch64 : Bool}

section

variable (aarch64 : Bool) (before : Nat → List U8)

/-- Each thread has its segment, and no thread has an instance of another. -/
structure Holds (p : Process) (t : Threads) : Prop where
  tracks : ∀ tid, Tracks aarch64 before false (p.thread tid) (t.view tid)
  apart : ∀ {i j fd}, i ≠ j → (p.tasks i).attached = some fd →
    (p.tasks j).attached ≠ some fd ∧ (p.tasks j).remoteFd ≠ some fd

variable {aarch64 before} {p : Process} {t : Threads}

section

variable (h : Holds aarch64 before p t) {s : State}
include h

/-- What a thread does leaves another as it was. -/
theorem Holds.frame {i j : Nat} (hne : i ≠ j) {seen : Segments}
    (htracks : Tracks aarch64 before false s seen) (hwithin : Within (p.thread i) s) :
    Tracks aarch64 before false ⟨p.tasks j, s.world⟩ ⟨j, t.current j, seen.ended⟩ := by
  have hj := h.tracks j
  have hkept : ∀ {fd}, (p.tasks j).attached = some fd → fd ∈ s.world.fds ∧ s.world.area fd = p.world.area fd := by
    intro fd hfd
    obtain ⟨hattached, hremote⟩ := h.apart hne.symm hfd
    have hmem := hj.attached fd hfd
    exact hwithin.kept fd hmem (hj.fds fd hmem) hattached hremote
  refine ⟨⟨hj.tid, ?_, htracks.logs, htracks.fds, fun fd hfd => (hkept hfd).1,
    fun fd hfd => ⟨lt_of_lt_of_le (hj.remote fd hfd).1 hwithin.opened, (hj.remote fd hfd).2⟩⟩, hj.armed, hj.tsd⟩
  have hcurrent := hj.current
  change t.current j = (p.tasks j).attached.map p.world.area at hcurrent
  cases hfd : (p.tasks j).attached with
  | none => rw [hcurrent, hfd, Option.map_none, Option.map_none]
  | some fd => rw [hcurrent, hfd, Option.map_some, Option.map_some, (hkept hfd).2]

/-- The instances a thread has afterwards are none of another's. -/
theorem Holds.apart_step {i : Nat} (hwithin : Within (p.thread i) s)
    {a b fd : Nat} (hne : a ≠ b) (hfd : (Function.update p.tasks i s.task a).attached = some fd) :
    (Function.update p.tasks i s.task b).attached ≠ some fd ∧ (Function.update p.tasks i s.task b).remoteFd ≠ some fd := by
  have hlt : ∀ {j}, (p.tasks j).attached = some fd → fd < p.world.opened :=
    fun hj => (h.tracks _).fds fd ((h.tracks _).attached fd hj)
  by_cases ha : a = i
  · subst ha
    rw [Function.update_self] at hfd
    rw [Function.update_of_ne hne.symm]
    obtain hold | hnew := hwithin.attached fd hfd
    · exact h.apart hne hold
    · exact ⟨fun hj => absurd (hlt hj) (Nat.not_lt.mpr hnew),
        fun hj => absurd ((h.tracks b).remote fd hj).1 (Nat.not_lt.mpr hnew)⟩
  · rw [Function.update_of_ne ha] at hfd
    by_cases hb : b = i
    · subst hb
      rw [Function.update_self]
      obtain ⟨hattached, hremote⟩ := h.apart hne hfd
      have hold : ¬ p.world.opened ≤ fd := Nat.not_le.mpr (hlt hfd)
      exact ⟨fun hs => (hwithin.attached fd hs).elim hattached hold, fun hs => (hwithin.remote fd hs).elim hremote hold⟩
    · rw [Function.update_of_ne hb]
      exact h.apart hne hfd

theorem Holds.step {event : Nat × Event} (he : event.2.inThread = true) :
    Holds aarch64 before (p.step aarch64 event) (t.step event) := by
  obtain ⟨htracks, hwithin⟩ := tracks_inThread (h.tracks event.1) he
  refine ⟨fun tid => ?_, fun hne hfd => h.apart_step hwithin hne hfd⟩
  rw [Process.thread, Process.step, Threads.view, Threads.step]
  dsimp only
  by_cases heq : tid = event.1
  · rw [heq, Function.update_self, Function.update_self]
    have heta : (⟨event.1, ((t.view event.1).step event.2).current, ((t.view event.1).step event.2).ended⟩ : Segments) =
        (t.view event.1).step event.2 :=
      congrArg (Segments.mk · ((t.view event.1).step event.2).current ((t.view event.1).step event.2).ended)
        (step_tid he (t.view event.1)).symm
    rw [heta]
    exact htracks
  · rw [Function.update_of_ne heq, Function.update_of_ne heq]
    exact h.frame (Ne.symm heq) htracks hwithin

theorem Holds.run (he : ∀ e ∈ events, e.2.inThread = true) :
    Holds aarch64 before (events.foldl (Process.step aarch64) p) (events.foldl Threads.step t) := by
  induction events generalizing p t with
  | nil => exact h
  | cons event rest ih =>
    exact ih (h.step (he event mem_cons_self)) fun e hmem => he e (mem_cons_of_mem _ hmem)

end

end

/-! ## The end of a process -/

/-- A line stands for each PC. -/
theorem logText_eq_nil_iff {pcs : List U64} : logText aarch64 pcs = [] ↔ pcs = [] := by
  rw [logText, flatMap_eq_nil_iff, eq_nil_iff_forall_not_mem]
  exact forall₂_congr fun pc _ => iff_false_intro (append_ne_nil_of_right_ne_nil _ (cons_ne_nil _ _))

/-- What a thread has collected, as lines of its log: the segments that have ended and the one that has not. -/
def collected (aarch64 : Bool) (t : Threads) (tid : Nat) : List U8 :=
  ((t.ended.filter (·.1 = tid)).flatMap fun seg => logText aarch64 seg.2) ++ logText aarch64 ((t.current tid).getD [])

/-- The process ends on a thread: that one is flushed. -/
theorem locals_end {p : Process} (hp : ∀ tid, Starts (p.thread tid))
    (htid : ∀ tid, (p.tasks tid).tid = tid) (he : ∀ e ∈ events, e.2.inThread = true)
    (last : Nat) {ending : Event} (hending : ending = .exitNow ∨ ending = .dtor) (tid : Nat) :
    (((events ++ [(last, ending)]).foldl (Process.step aarch64) p).world.locals tid) =
      p.world.locals tid ++ (((threads events).ended.filter (·.1 = tid)).flatMap fun seg => logText aarch64 seg.2) ++
        if tid = last then logText aarch64 (((threads events).current last).getD []) else [] := by
  have hstart : Holds aarch64 p.world.locals p ⟨fun _ => none, []⟩ := by
    refine ⟨fun tid => ?_, fun _ hfd => absurd ((hp _).attached.symm.trans hfd) nofun⟩
    have htracks := @Starts.tracks aarch64 _ (hp tid)
    rw [show (p.thread tid).task.tid = tid from htid tid] at htracks
    exact htracks
  have hrun := (hstart.run he).tracks last
  have hclose : ∀ {ending : Event}, ending = .exitNow ∨ ending = .dtor →
      Preload.step aarch64 ((events.foldl (Process.step aarch64) p).thread last) ending =
        kcovDisable aarch64 ((events.foldl (Process.step aarch64) p).thread last) := by
    rintro _ (rfl | rfl)
    · rfl
    · rfl
  rw [foldl_append, foldl_cons, foldl_nil, Process.step]
  rw [hclose hending, (tracks_disable hrun.toLogged (hrun.armed rfl)).1.logs tid, logOf_close]
  rfl

/-- When a process ends, all its threads have collected is logged exactly if the threads that do not end it have collected
nothing since they were flushed. -/
theorem logs_threads_iff (aarch64 : Bool) {p : Process} (hp : ∀ tid, Starts (p.thread tid))
    (htid : ∀ tid, (p.tasks tid).tid = tid) {events : List (Nat × Event)} (he : ∀ e ∈ events, e.2.inThread = true)
    (last : Nat) {ending : Event} (hending : ending = .exitNow ∨ ending = .dtor) :
    (∀ tid, ((events ++ [(last, ending)]).foldl (Process.step aarch64) p).world.locals tid =
        p.world.locals tid ++ collected aarch64 (threads events) tid) ↔
      ∀ tid, tid ≠ last → ((threads events).current tid).getD [] = [] := by
  refine forall_congr' fun tid => ?_
  rw [locals_end hp htid he last hending, collected, append_assoc, append_right_inj, append_right_inj]
  by_cases heq : tid = last
  · rw [if_pos heq, heq]
    exact iff_of_true rfl fun hne => absurd rfl hne
  · rw [if_neg heq, eq_comm, logText_eq_nil_iff]
    exact ⟨fun h _ => h, fun h => h heq⟩

/-- A thread that returns first is logged. -/
theorem logs_threads_return :
    let events : List (Nat × Event) :=
      [(1, .ctor true), (2, .threadStart true), (2, .collect 0x21#64), (1, .collect 0x11#64), (2, .threadReturn)]
    let p : Process := ⟨Task.idle, World.empty⟩
    ∀ tid, ((events ++ [(1, Event.dtor)]).foldl (Process.step false) p).world.locals tid =
      p.world.locals tid ++ collected false (threads events) tid := by
  intro events p
  have hstarts : ∀ tid, Starts (p.thread tid) := fun _ => ⟨rfl, rfl, rfl, rfl, nofun⟩
  have hflushed : ∀ tid, tid ≠ 1 → ((threads events).current tid).getD [] = [] := by
    intro tid hne
    by_cases heq : tid = 2
    · rw [heq]
      rfl
    · simp only [events, threads, foldl_cons, foldl_nil, Threads.step, Function.update_of_ne hne,
        Function.update_of_ne heq, Option.getD_none]
  exact (logs_threads_iff false hstarts (fun _ => rfl) (by decide) 1 (Or.inr rfl)).mpr hflushed

/-- A thread that still runs when another ends the process is lost. -/
theorem logs_threads_lost :
    let events : List (Nat × Event) := [(1, .ctor true), (2, .threadStart true), (2, .collect 0x21#64)]
    let p : Process := ⟨Task.idle, World.empty⟩
    ((events ++ [(1, Event.dtor)]).foldl (Process.step false) p).world.locals 2 = [] ∧
      collected false (threads events) 2 = logText false [0x21#64] ∧ logText false [0x21#64] ≠ [] := by
  intro events p
  have hstarts : ∀ tid, Starts (p.thread tid) := fun _ => ⟨rfl, rfl, rfl, rfl, nofun⟩
  refine ⟨?_, rfl, logText_eq_nil_iff.not.mpr (cons_ne_nil _ _)⟩
  rw [locals_end hstarts (fun _ => rfl) (by decide) 1 (Or.inr rfl)]
  rfl

end Vock.Preload
