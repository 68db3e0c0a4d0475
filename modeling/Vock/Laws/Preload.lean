import Vock.Preload

/-!
# What the shim logs of a task

The segments of a task, without descriptors and thread-local variables: the one that is being collected, and those
that have ended (`Segments`). Each event of the shim does to the log of the task what it does to the segments
(`Tracks.step`), so that each segment is logged once, in its order (`logs_segments`).

Not established: what KCOV counts in a segment, and what is left of a log whose process is killed.
-/

namespace Vock.Preload

open List

variable {i : Nat} {fresh : Bool}

/-! ## Segments -/

/-- The task that is looked at, the segment it collects, and the segments that have ended, each with its task. -/
structure Segments where
  tid : Nat
  current : Option (List U64)
  ended : List (Nat × List U64)

/-- The segment ends. -/
def Segments.close (t : Segments) : Segments :=
  { t with current := none, ended := t.ended ++ t.current.toList.map (t.tid, ·) }

/-- A segment begins; one that is collected ends. -/
def Segments.begin (t : Segments) : Segments := { t.close with current := some [] }

/-- What an event does to the segments. The child of a task has none of its parent's. -/
def Segments.step (t : Segments) : Event → Segments
  | .collect pc => { t with current := t.current.map (push pc) }
  | .ctor _ => t.begin
  | .execFails _ => t.begin
  | .execSucceeds => t.close
  | .execBypasses => t
  | .forkChild tid _ => { t with tid, current := some [] }
  | .threadStart _ => t.begin
  | .threadReturn => t.close
  | .threadExit => t.close
  | .exitNow => t.close
  | .dtor => t.close

/-- The constructor runs first in a new image. -/
def Ordered : Bool → List Event → Prop
  | _, [] => True
  | fresh, .collect _ :: events => Ordered fresh events
  | _, .ctor _ :: events => Ordered false events
  | false, .execSucceeds :: events => Ordered true events
  | false, .execBypasses :: events => Ordered true events
  | false, _ :: events => Ordered false events
  | true, _ :: _ => False

section

variable (aarch64 : Bool) (before : Nat → List U8)

/-- The log of a task, by its segments. -/
def logOf (t : Segments) (tid : Nat) : List U8 :=
  before tid ++ (t.ended.filter (·.1 = tid)).flatMap fun seg => logText aarch64 seg.2

/-- The kernel and the logs have the segments: the attached instance has the current one. -/
structure Logged (s : State) (t : Segments) : Prop where
  tid : s.task.tid = t.tid
  current : t.current = s.task.attached.map s.world.area
  logs : ∀ tid, s.world.locals tid = logOf aarch64 before t tid
  fds : ∀ fd ∈ s.world.fds, fd < s.world.opened
  attached : ∀ fd, s.task.attached = some fd → fd ∈ s.world.fds
  remote : ∀ fd, s.task.remoteFd = some fd → fd < s.world.opened ∧ s.task.attached ≠ some fd

/-- The thread-local variables are those of the attached instance. -/
structure Armed (task : Task) : Prop where
  area : task.localArea = task.localFd
  fd : task.localFd = task.attached
  tid : task.attached ≠ none → task.kcovTid = task.tid

/-- The state of the shim has the segments. In a new image the variables are not set yet. -/
structure Tracks (fresh : Bool) (s : State) (t : Segments) : Prop extends Logged aarch64 before s t where
  armed : fresh = false → Armed s.task
  tsd : fresh = false → s.task.attached ≠ none → s.task.tsd = true

/-- A task changes what it has: other instances stay as they are, and those it gets are new. -/
structure Within (s s' : State) : Prop where
  opened : s.world.opened ≤ s'.world.opened
  kept : ∀ fd ∈ s.world.fds, fd < s.world.opened → s.task.attached ≠ some fd → s.task.remoteFd ≠ some fd →
    fd ∈ s'.world.fds ∧ s'.world.area fd = s.world.area fd
  attached : ∀ fd, s'.task.attached = some fd → s.task.attached = some fd ∨ s.world.opened ≤ fd
  remote : ∀ fd, s'.task.remoteFd = some fd → s.task.remoteFd = some fd ∨ s.world.opened ≤ fd

variable {aarch64 before} {s : State} {t : Segments} {fresh : Bool} {event : Event} {events : List Event}

theorem Segments.close_of_none (h : t.current = none) : t.close = t := by
  rw [Segments.close, h, Option.toList_none, map_nil, append_nil, ← h]

/-- A segment that ends is behind those of its task. -/
theorem logOf_close (t : Segments) (tid : Nat) :
    logOf aarch64 before t.close tid =
      logOf aarch64 before t tid ++ if tid = t.tid then logText aarch64 (t.current.getD []) else [] := by
  rw [logOf, Segments.close]
  rw [filter_append, flatMap_append, ← append_assoc]
  congr 1
  cases t.current with
  | none => exact (ite_self []).symm
  | some seg =>
    rw [Option.toList_some, map_singleton, Option.getD_some]
    by_cases heq : tid = t.tid
    · have hkept : [(t.tid, seg)].filter (fun x => decide (x.1 = tid)) = [(t.tid, seg)] :=
        filter_cons_of_pos (decide_eq_true heq.symm)
      rw [if_pos heq, hkept, flatMap_singleton]
    · have hdropped : [(t.tid, seg)].filter (fun x => decide (x.1 = tid)) = [] :=
        filter_cons_of_neg fun h => heq (of_decide_eq_true h).symm
      rw [if_neg heq, hdropped, flatMap_nil]

/-! ## What a task changes -/

theorem Within.refl (s : State) : Within s s := ⟨le_refl _, fun _ h _ _ _ => ⟨h, rfl⟩, fun _ => Or.inl, fun _ => Or.inl⟩

theorem Within.trans {s₁ s₂ s₃ : State} (h₁ : Within s₁ s₂) (h₂ : Within s₂ s₃) : Within s₁ s₃ := by
  have hold : ∀ {fd} {p q r : Prop}, (p → q ∨ s₂.world.opened ≤ fd) → (q → r ∨ s₁.world.opened ≤ fd) → p →
      r ∨ s₁.world.opened ≤ fd :=
    fun hp hq h => (hp h).elim hq fun hfd => Or.inr (h₁.opened.trans hfd)
  refine ⟨h₁.opened.trans h₂.opened, fun fd hfd hlt hattached hremote => ?_, fun fd => hold (h₂.attached fd) (h₁.attached fd),
    fun fd => hold (h₂.remote fd) (h₁.remote fd)⟩
  obtain ⟨hmem, harea⟩ := h₁.kept fd hfd hlt hattached hremote
  have hnot : ∀ {p q : Prop}, (p → q ∨ s₁.world.opened ≤ fd) → ¬ q → ¬ p := fun hp hq h =>
    (hp h).elim hq fun hle => absurd hle (Nat.not_le.mpr hlt)
  obtain ⟨hmem', harea'⟩ := h₂.kept fd hmem (lt_of_lt_of_le hlt h₁.opened) (hnot (h₁.attached fd) hattached)
    (hnot (h₁.remote fd) hremote)
  exact ⟨hmem', harea'.trans harea⟩

/-! ## Flushing -/

/-- The segment of an instance is logged, and the instance detached and closed. -/
def flushed (aarch64 : Bool) (i tid : Nat) (s : State) : State :=
  { task := { s.task with attached := none }
    world := { s.world with
      fds := s.world.fds.filter (· ≠ i)
      locals := Function.update s.world.locals tid (s.world.locals tid ++ logText aarch64 (s.world.area i)) } }

theorem writeCoverage_attached (hi : s.task.attached = some i) (tid : Nat) :
    writeCoverage aarch64 false tid (some i) (some i) s = flushed aarch64 i tid s := by
  rw [writeCoverage, ioctlDisable, if_pos hi]
  rfl

section

variable (h : Logged aarch64 before s t)
include h

theorem logged_flushed (hi : s.task.attached = some i) :
    Logged aarch64 before (flushed aarch64 i t.tid s) t.close := by
  refine ⟨h.tid, rfl, fun tid => ?_, fun fd hfd => h.fds fd (mem_filter.mp hfd).1, nofun,
    fun fd hfd => ⟨(h.remote fd hfd).1, nofun⟩⟩
  have hcurrent := h.current
  rw [hi, Option.map_some] at hcurrent
  rw [logOf_close, hcurrent, Option.getD_some, flushed]
  dsimp only
  by_cases heq : tid = t.tid
  · rw [heq, Function.update_self, if_pos rfl, h.logs]
  · rw [Function.update_of_ne heq, if_neg heq, append_nil, h.logs]

omit h in
theorem within_flushed (hi : s.task.attached = some i) (tid : Nat) : Within s (flushed aarch64 i tid s) := by
  refine ⟨le_refl _, fun fd hfd _ hne _ => ⟨mem_filter.mpr ⟨hfd, decide_eq_true fun heq => hne ?_⟩, rfl⟩, nofun,
    fun _ => Or.inl⟩
  rw [heq, hi]

/-- The remote variables are given up: the log is written and the descriptor closed. -/
theorem logged_dropRemote (tid : Nat) :
    let s₁ := writeCoverage aarch64 true tid s.task.remoteArea s.task.remoteFd s
    let s₂ := { s₁ with task := { s₁.task with remoteFd := none, remoteArea := none } }
    Logged aarch64 before s₂ t ∧ Within s s₂ ∧ s₂.task = { s.task with remoteFd := none, remoteArea := none } := by
  have hsame : Logged aarch64 before { s with task := { s.task with remoteFd := none, remoteArea := none } } t :=
    ⟨h.tid, h.current, h.logs, h.fds, h.attached, nofun⟩
  have hwithin : Within s { s with task := { s.task with remoteFd := none, remoteArea := none } } :=
    ⟨le_refl _, fun _ hfd _ _ _ => ⟨hfd, rfl⟩, fun _ => Or.inl, nofun⟩
  cases hfd : s.task.remoteFd with
  | none => exact ⟨hsame, hwithin, rfl⟩
  | some j =>
    cases s.task.remoteArea with
    | none => exact ⟨hsame, hwithin, rfl⟩
    | some i =>
      have hnot : (ioctlDisable j s).2 = s := by rw [ioctlDisable, if_neg (h.remote j hfd).2]
      have hkept : ∀ {fd}, fd ∈ s.world.fds → fd ≠ j → fd ∈ s.world.fds.filter (· ≠ j) :=
        fun hmem hne => mem_filter.mpr ⟨hmem, decide_eq_true hne⟩
      rw [writeCoverage, hnot]
      refine ⟨⟨h.tid, h.current, h.logs, fun fd hmem => h.fds fd (mem_filter.mp hmem).1, fun fd hattached => ?_, nofun⟩,
        ⟨le_refl _, fun fd hmem _ _ hne => ⟨hkept hmem fun heq => hne (heq ▸ hfd), rfl⟩, fun _ => Or.inl, nofun⟩, rfl⟩
      exact hkept (h.attached fd hattached) fun heq => (h.remote j hfd).2 (heq ▸ hattached)

/-- What is attached is flushed. -/
def settled (aarch64 : Bool) (s : State) : State := s.task.attached.elim s fun i => flushed aarch64 i s.task.tid s

theorem logged_settled :
    Logged aarch64 before (settled aarch64 s) t.close ∧ Within s (settled aarch64 s) ∧
      (settled aarch64 s).task = { s.task with attached := none } := by
  rw [settled]
  cases hi : s.task.attached with
  | none =>
    have hnone := h.current
    rw [hi] at hnone
    have htask : s.task = { s.task with attached := none } := by rw [← hi]
    rw [Segments.close_of_none hnone]
    exact ⟨h, Within.refl s, htask⟩
  | some i =>
    rw [h.tid]
    exact ⟨logged_flushed h hi, within_flushed hi t.tid, rfl⟩

omit h in
/-- The local variables are used up. -/
theorem writeCoverage_local (ha : Armed s.task) :
    writeCoverage aarch64 false s.task.kcovTid s.task.localArea s.task.localFd s = settled aarch64 s := by
  rw [ha.area, ha.fd, settled]
  cases hi : s.task.attached with
  | none => rfl
  | some i => rw [writeCoverage_attached hi, ha.tid (by rw [hi]; nofun), Option.elim_some]

/-- `kcov_disable` ends the segment. -/
theorem logged_disable (ha : Armed s.task) :
    Logged aarch64 before (kcovDisable aarch64 s) t.close ∧ Within s (kcovDisable aarch64 s) ∧
      (kcovDisable aarch64 s).task =
        { s.task with attached := none, localFd := none, localArea := none, remoteFd := none, remoteArea := none } := by
  obtain ⟨hsettled, hwithin, htask⟩ := logged_settled h
  generalize hs₁ : settled aarch64 s = s₁ at hsettled hwithin htask
  have hcleared : Logged aarch64 before { s₁ with task := { s₁.task with localFd := none, localArea := none } } t.close :=
    ⟨hsettled.tid, hsettled.current, hsettled.logs, hsettled.fds, hsettled.attached, hsettled.remote⟩
  obtain ⟨hremote, hwithin', htask'⟩ := logged_dropRemote hcleared s.task.kcovTid
  have heq : kcovDisable aarch64 s =
      let s₂ := { s₁ with task := { s₁.task with localFd := none, localArea := none } }
      let s₃ := writeCoverage aarch64 true s.task.kcovTid s₂.task.remoteArea s₂.task.remoteFd s₂
      { s₃ with task := { s₃.task with remoteFd := none, remoteArea := none } } := by
    rw [kcovDisable, writeCoverage_local ha, hs₁]
  rw [heq]
  refine ⟨hremote, hwithin.trans ⟨hwithin'.opened, hwithin'.kept, hwithin'.attached, hwithin'.remote⟩, ?_⟩
  rw [htask', htask]

end

/-! ## Enabling -/

/-- Nothing is reclaimed where nothing is attached. -/
theorem foldl_reclaim_none (tid : Nat) (fds : List Nat) {r : Bool × State} (h : r.2.task.attached = none) :
    fds.foldl (reclaim aarch64 tid) r = r := by
  induction fds with
  | nil => rfl
  | cons fd rest ih =>
    have hone : reclaim aarch64 tid r fd = r := by
      rw [reclaim, ioctlDisable, h, if_neg nofun]
    rw [foldl_cons, hone, ih]

/-- The attached instance is reclaimed, wherever its descriptor stands. -/
theorem foldl_reclaim (tid : Nat) {fds : List Nat} (hi : s.task.attached = some i) (hmem : i ∈ fds) :
    fds.foldl (reclaim aarch64 tid) (false, s) = (true, flushed aarch64 i tid s) := by
  induction fds with
  | nil => exact absurd hmem not_mem_nil
  | cons fd rest ih =>
    rw [foldl_cons]
    by_cases heq : fd = i
    · have hone : reclaim aarch64 tid (false, s) fd = (true, flushed aarch64 i tid s) := by
        rw [reclaim, ioctlDisable, heq, if_pos hi]
        rfl
      rw [hone]
      exact foldl_reclaim_none tid rest rfl
    · have hone : reclaim aarch64 tid (false, s) fd = (false, s) := by
        rw [reclaim, ioctlDisable, if_neg fun h => heq (Option.some.inj (h.symm.trans hi))]
      rw [hone]
      exact ih ((mem_cons.mp hmem).resolve_left fun h => heq h.symm)

section

variable (h : Logged aarch64 before s t)
include h

/-- A new instance is not that of a task. -/
theorem logged_openKcov :
    Logged aarch64 before (openKcov s).2 t ∧ Within s (openKcov s).2 := by
  have hne : ∀ {fd}, fd < s.world.opened → fd ≠ s.world.opened := Nat.ne_of_lt
  refine ⟨⟨h.tid, ?_, h.logs, fun fd hfd => ?_, fun fd hfd => mem_cons_of_mem _ (h.attached fd hfd),
    fun fd hfd => ⟨Nat.lt_succ_of_lt (h.remote fd hfd).1, (h.remote fd hfd).2⟩⟩,
    ⟨Nat.le_succ _, fun fd hfd hlt _ _ => ⟨mem_cons_of_mem _ hfd, Function.update_of_ne (hne hlt) _ _⟩,
      fun _ => Or.inl, fun _ => Or.inl⟩⟩
  · rw [h.current, openKcov]
    dsimp only
    cases hi : s.task.attached with
    | none => rfl
    | some i => rw [Option.map_some, Option.map_some, Function.update_of_ne (hne (h.fds i (h.attached i hi)))]
  · obtain rfl | hfd := mem_cons.mp hfd
    · exact Nat.lt_succ_self _
    · exact Nat.lt_succ_of_lt (h.fds fd hfd)

/-- `KCOV_ENABLE` succeeds in the end. -/
theorem arm_eq {fd : Nat} (hfd : s.task.attached ≠ some fd) :
    arm aarch64 fd s =
      (true, { settled aarch64 s with task := { (settled aarch64 s).task with attached := some fd } }) := by
  rw [arm, settled]
  cases hi : s.task.attached with
  | none =>
    rw [ioctlEnable, if_pos hi]
    rfl
  | some i =>
    have hne : i ≠ fd := fun heq => hfd (hi.trans (congrArg some heq))
    have hmem : i ∈ s.world.fds.filter (· ≠ fd) := mem_filter.mpr ⟨h.attached i hi, decide_eq_true hne⟩
    rw [ioctlEnable, hi, if_neg nofun]
    dsimp only
    rw [recoverStaleKcov, foldl_reclaim s.task.tid hi hmem]
    rfl

/-- The remote part does nothing to the segments. -/
theorem logged_enableRemote (ok : Bool) :
    Logged aarch64 before (enableRemote ok s) t ∧ Within s (enableRemote ok s) := by
  obtain ⟨hopen, hwithin⟩ := logged_openKcov h
  have hlt : ∀ {fd}, fd ∈ s.world.fds → fd ≠ s.world.opened := fun hfd => Nat.ne_of_lt (h.fds _ hfd)
  cases ok with
  | true =>
    have harea : (clear s.world.opened (openKcov s).2).world.area = (openKcov s).2.world.area :=
      Function.update_idem _ _ _
    refine ⟨⟨hopen.tid, ?_, hopen.logs, hopen.fds, hopen.attached, fun fd hfd => ?_⟩,
      ⟨hwithin.opened, fun fd hfd hfresh hne hne' => ?_, hwithin.attached, fun fd hfd => Or.inr (Option.some.inj hfd).le⟩⟩
    · rw [hopen.current, ← harea]
      rfl
    · obtain rfl := Option.some.inj hfd
      exact ⟨Nat.lt_succ_self _, fun hattached => hlt (h.attached _ hattached) rfl⟩
    · obtain ⟨hmem, hkept⟩ := hwithin.kept fd hfd hfresh hne hne'
      exact ⟨hmem, (congrFun harea fd).trans hkept⟩
  | false =>
    have hkept : ∀ {fd}, fd ∈ s.world.fds → fd ∈ (s.world.opened :: s.world.fds).filter (· ≠ s.world.opened) :=
      fun hfd => mem_filter.mpr ⟨mem_cons_of_mem _ hfd, decide_eq_true (hlt hfd)⟩
    exact ⟨⟨hopen.tid, hopen.current, hopen.logs, fun fd hfd => hopen.fds fd (mem_filter.mp hfd).1,
      fun fd hfd => hkept (h.attached fd hfd), hopen.remote⟩,
      ⟨hwithin.opened, fun fd hfd hfresh hne hne' => ⟨hkept hfd, (hwithin.kept fd hfd hfresh hne hne').2⟩, hwithin.attached,
        hwithin.remote⟩⟩

omit h in
/-- What the remote part leaves alone of the task. -/
theorem enableRemote_task (ok : Bool) (s : State) :
    ∃ fd area, (enableRemote ok s).task = { s.task with remoteFd := fd, remoteArea := area } := by
  cases ok with
  | true | false => exact ⟨_, _, rfl⟩

/-- The task is attached to a new instance. -/
def begun (aarch64 : Bool) (s : State) : State :=
  let s₁ := settled aarch64 (openKcov { s with task := { s.task with kcovTid := s.task.tid } }).2
  let fd := s.world.opened
  { task := { s₁.task with attached := some fd, localFd := some fd, localArea := some fd, tsd := true }
    world := { s₁.world with area := Function.update s₁.world.area fd [] } }

theorem kcovEnable_eq (remoteOk : Bool) :
    kcovEnable aarch64 remoteOk s = enableRemote remoteOk (begun aarch64 s) := by
  have hnamed : Logged aarch64 before { s with task := { s.task with kcovTid := s.task.tid } } t :=
    ⟨h.tid, h.current, h.logs, h.fds, h.attached, h.remote⟩
  have harm := @arm_eq aarch64 before _ t (logged_openKcov hnamed).1 s.world.opened
    fun hattached => Nat.lt_irrefl _ (h.fds _ (h.attached _ hattached))
  dsimp only [kcovEnable, openKcov] at harm ⊢
  rw [harm]
  rfl

theorem logged_begun :
    Logged aarch64 before (begun aarch64 s) t.begin ∧ Within s (begun aarch64 s) ∧ Armed (begun aarch64 s).task := by
  have hnamed : Logged aarch64 before { s with task := { s.task with kcovTid := s.task.tid } } t :=
    ⟨h.tid, h.current, h.logs, h.fds, h.attached, h.remote⟩
  obtain ⟨hopened, hwithin⟩ := logged_openKcov hnamed
  obtain ⟨hsettled, hwithin', htask⟩ := logged_settled hopened
  have hfresh : ∀ {fd}, fd < s.world.opened → fd ≠ s.world.opened := Nat.ne_of_lt
  have hold := hwithin.trans hwithin'
  rw [begun]
  generalize hs₁ : settled aarch64 (openKcov { s with task := { s.task with kcovTid := s.task.tid } }).2 = s₁ at *
  have hattached : s.task.attached ≠ some s.world.opened := fun hi => hfresh (h.fds _ (h.attached _ hi)) rfl
  have hremote : s.task.remoteFd ≠ some s.world.opened := fun hfd => hfresh (h.remote _ hfd).1 rfl
  have hmem := (hwithin'.kept s.world.opened mem_cons_self (Nat.lt_succ_self _) hattached hremote).1
  refine ⟨⟨hsettled.tid, ?_, hsettled.logs, hsettled.fds, fun fd hfd => ?_, fun fd hfd => ⟨(hsettled.remote fd hfd).1, fun heq => ?_⟩⟩,
    ⟨hold.opened, fun fd hfd hlt hne hne' => ?_, fun fd hfd => Or.inr (Option.some.inj hfd).le, hold.remote⟩, ?_⟩
  · exact congrArg some (Function.update_self s.world.opened [] s₁.world.area).symm
  · rw [← Option.some.inj hfd]
    exact hmem
  · dsimp only at hfd
    rw [htask] at hfd
    exact hremote (hfd.trans heq.symm)
  · obtain ⟨hkept, harea⟩ := hold.kept fd hfd hlt hne hne'
    exact ⟨hkept, (Function.update_of_ne (hfresh hlt) _ _).trans harea⟩
  · refine ⟨rfl, rfl, fun _ => ?_⟩
    rw [htask]
    rfl

/-- `kcov_enable` begins a segment, and ends one that is collected. -/
theorem tracks_enable (remoteOk : Bool) :
    Tracks aarch64 before false (kcovEnable aarch64 remoteOk s) t.begin ∧ Within s (kcovEnable aarch64 remoteOk s) := by
  obtain ⟨hbegun, hwithin, harmed⟩ := logged_begun h
  obtain ⟨hlogged, hwithin'⟩ := logged_enableRemote hbegun remoteOk
  obtain ⟨fd, area, htask⟩ := enableRemote_task remoteOk (begun aarch64 s)
  rw [kcovEnable_eq h]
  refine ⟨⟨hlogged, fun _ => ?_, fun _ _ => ?_⟩, hwithin.trans hwithin'⟩
  · rw [htask]
    exact ⟨harmed.area, harmed.fd, harmed.tid⟩
  · rw [htask]
    rfl

end

/-! ## Events -/

/-- A PC is recorded behind the others of the segment. -/
theorem tracks_collect (h : Tracks aarch64 before fresh s t) (pc : U64) :
    Tracks aarch64 before fresh (record pc s) (t.step (.collect pc)) ∧ Within s (record pc s) := by
  have hcurrent := h.current
  cases hi : s.task.attached with
  | none =>
    rw [hi, Option.map_none] at hcurrent
    have hnone : t.step (.collect pc) = t := by rw [Segments.step, hcurrent, Option.map_none, ← hcurrent]
    rw [record, hi, hnone]
    exact ⟨h, Within.refl s⟩
  | some i =>
    rw [hi, Option.map_some] at hcurrent
    rw [record, hi]
    refine ⟨⟨⟨h.tid, ?_, h.logs, h.fds, h.attached, h.remote⟩, h.armed, h.tsd⟩,
      ⟨le_refl _, fun fd hfd _ hne _ => ⟨hfd, ?_⟩, fun _ => Or.inl, fun _ => Or.inl⟩⟩
    · dsimp only
      rw [hi, Option.map_some, Function.update_self, Segments.step, hcurrent, Option.map_some]
    · exact Function.update_of_ne (fun heq => hne (hi.trans (congrArg some heq.symm))) _ _

section

variable (h : Logged aarch64 before s t)
include h

theorem tracks_disable (ha : Armed s.task) :
    Tracks aarch64 before false (kcovDisable aarch64 s) t.close ∧ Within s (kcovDisable aarch64 s) := by
  obtain ⟨hlogged, hwithin, htask⟩ := logged_disable h ha
  refine ⟨⟨hlogged, fun _ => ?_, fun _ hne => ?_⟩, hwithin⟩
  · rw [htask]
    exact ⟨rfl, rfl, fun hne => absurd rfl hne⟩
  · rw [htask] at hne
    exact absurd rfl hne

omit h in
/-- The thread-specific destructor ends the segment, if there is one. -/
theorem tracks_runTsd (h : Tracks aarch64 before false s t) :
    Tracks aarch64 before false (runTsd aarch64 s) t.close ∧ Within s (runTsd aarch64 s) := by
  have harmed := h.armed rfl
  rw [runTsd]
  by_cases htsd : s.task.tsd = true
  · rw [if_pos htsd]
    have hunset : Logged aarch64 before { s with task := { s.task with tsd := false } } t :=
      ⟨h.tid, h.current, h.logs, h.fds, h.attached, h.remote⟩
    obtain ⟨htracks, hwithin⟩ := tracks_disable hunset ⟨harmed.area, harmed.fd, harmed.tid⟩
    exact ⟨htracks, hwithin.opened, hwithin.kept, hwithin.attached, hwithin.remote⟩
  · rw [if_neg htsd]
    have hnone : s.task.attached = none := Decidable.by_contra fun hne => htsd (h.tsd rfl hne)
    rw [Segments.close_of_none (h.current.trans (by rw [hnone, Option.map_none]))]
    exact ⟨h, Within.refl s⟩

/-- An image without variables. -/
theorem tracks_newImage : Tracks aarch64 before true (newImage s) t :=
  ⟨⟨h.tid, h.current, h.logs, h.fds, h.attached, nofun⟩, nofun, nofun⟩

/-- A detached task may close what it has. -/
theorem logged_closeIf (hnone : s.task.attached = none) (fd : Option Nat) :
    Logged aarch64 before (closeIf fd s) t ∧ (closeIf fd s).task = s.task := by
  cases fd with
  | none => exact ⟨h, rfl⟩
  | some fd =>
    exact ⟨⟨h.tid, h.current, h.logs, fun x hx => h.fds x (mem_filter.mp hx).1,
      fun x hx => absurd (hnone.symm.trans hx) nofun, h.remote⟩, rfl⟩

/-- A child has none of the segments of its parent. -/
theorem tracks_child (tid : Nat) (remoteOk : Bool) :
    Tracks aarch64 before false (kcovChildReinit aarch64 remoteOk (forked tid s)) (t.step (.forkChild tid remoteOk)) := by
  have hforked : Logged aarch64 before (forked tid s) { t with tid, current := none } :=
    ⟨rfl, rfl, h.logs, h.fds, nofun, fun fd hfd => ⟨(h.remote fd hfd).1, nofun⟩⟩
  obtain ⟨hlocal, htask⟩ := logged_closeIf hforked rfl (forked tid s).task.localFd
  generalize hs₁ : closeIf (forked tid s).task.localFd (forked tid s) = s₁ at hlocal htask
  obtain ⟨hremote, htask'⟩ := logged_closeIf hlocal (congrArg Task.attached htask) s₁.task.remoteFd
  generalize hs₂ : closeIf s₁.task.remoteFd s₁ = s₂ at hremote htask'
  have hcleared : Logged aarch64 before
      { s₂ with task := { s₂.task with localFd := none, remoteFd := none, localArea := none, remoteArea := none } }
      { t with tid, current := none } :=
    ⟨hremote.tid, hremote.current, hremote.logs, hremote.fds, hremote.attached, nofun⟩
  obtain ⟨htracks, _⟩ := tracks_enable hcleared remoteOk
  rw [Segments.begin, Segments.close_of_none rfl] at htracks
  rw [kcovChildReinit, hs₁, hs₂]
  exact htracks

end

/-- The events of a thread of a process. -/
def Event.inThread : Event → Bool
  | .collect _ | .ctor _ | .threadStart _ | .threadReturn | .threadExit | .exitNow | .dtor => true
  | _ => false

/-- What a thread does, it does to its segments and to the instances it has. -/
theorem tracks_inThread (h : Tracks aarch64 before false s t) (he : event.inThread = true) :
    Tracks aarch64 before false (step aarch64 s event) (t.step event) ∧ Within s (step aarch64 s event) := by
  cases event with
  | collect pc => exact tracks_collect h pc
  | ctor remote | threadStart remote => exact tracks_enable h.toLogged remote
  | threadReturn =>
    obtain ⟨hdisabled, hwithin⟩ := tracks_disable h.toLogged (h.armed rfl)
    obtain ⟨htracks, hwithin'⟩ := tracks_runTsd hdisabled
    rw [Segments.close_of_none rfl] at htracks
    exact ⟨htracks, hwithin.trans hwithin'⟩
  | threadExit => exact tracks_runTsd h
  | exitNow | dtor => exact tracks_disable h.toLogged (h.armed rfl)
  | execFails _ | execSucceeds | execBypasses | forkChild _ _ => exact nomatch he

theorem tracks_step (h : Tracks aarch64 before fresh s t)
    (ho : Ordered fresh (event :: events)) :
    ∃ fresh', Ordered fresh' events ∧ Tracks aarch64 before fresh' (step aarch64 s event) (t.step event) := by
  cases fresh with
  | true =>
    cases event with
    | collect pc => exact ⟨true, ho, (tracks_collect h pc).1⟩
    | ctor remote => exact ⟨false, ho, (tracks_enable h.toLogged remote).1⟩
    | _ => exact ho.elim
  | false =>
    cases event with
    | execFails remote =>
      obtain ⟨hdisabled, _⟩ := tracks_disable h.toLogged (h.armed rfl)
      obtain ⟨htracks, _⟩ := tracks_enable hdisabled.toLogged remote
      rw [Segments.begin, Segments.close_of_none rfl] at htracks
      exact ⟨false, ho, htracks⟩
    | execSucceeds =>
      exact ⟨true, ho, tracks_newImage (tracks_disable h.toLogged (h.armed rfl)).1.toLogged⟩
    | execBypasses => exact ⟨true, ho, tracks_newImage h.toLogged⟩
    | forkChild tid remote => exact ⟨false, ho, tracks_child h.toLogged tid remote⟩
    | _ => exact ⟨false, ho, (tracks_inThread h rfl).1⟩

theorem tracks_run (h : Tracks aarch64 before fresh s t) (ho : Ordered fresh events) :
    ∃ fresh', Tracks aarch64 before fresh' (events.foldl (step aarch64) s) (events.foldl Segments.step t) := by
  induction events generalizing fresh s t with
  | nil => exact ⟨fresh, h⟩
  | cons event rest ih =>
    obtain ⟨fresh', ho', h'⟩ := tracks_step h ho
    exact ih h' ho'

end

/-! ## Runs -/

/-- A task that has nothing of KCOV yet. -/
structure Starts (s : State) : Prop where
  attached : s.task.attached = none
  localFd : s.task.localFd = none
  localArea : s.task.localArea = none
  remoteFd : s.task.remoteFd = none
  fds : ∀ fd ∈ s.world.fds, fd < s.world.opened

theorem Starts.tracks {aarch64 : Bool} {s : State} (h : Starts s) :
    Tracks aarch64 s.world.locals false s ⟨s.task.tid, none, []⟩ := by
  have hnone : ∀ {fd}, s.task.attached ≠ some fd := fun hfd => absurd (h.attached.symm.trans hfd) nofun
  refine ⟨⟨rfl, by rw [h.attached, Option.map_none], fun tid => (append_nil _).symm, h.fds, fun fd hfd => (hnone hfd).elim,
    fun fd hfd => absurd (h.remoteFd.symm.trans hfd) nofun⟩, fun _ => ?_, fun _ hne => absurd h.attached hne⟩
  exact ⟨by rw [h.localArea, h.localFd], by rw [h.localFd, h.attached], fun hne => absurd h.attached hne⟩

/-- The segments of a task, from its start. -/
def segments (tid : Nat) (events : List Event) : Segments := events.foldl Segments.step ⟨tid, none, []⟩

end Vock.Preload
