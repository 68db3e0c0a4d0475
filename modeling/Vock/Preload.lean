import Vock.Format

/-!
# The preloaded shim

The tasks of `kcov-preload/src/lib.rs`: what the constructor, the interposed calls, the wrapper of thread routines,
the thread-specific destructor and the process destructor do with the KCOV instances of a task.

Opens, maps, writes and the thread-specific key succeed. An instance has one descriptor and is named by it; numbers
of descriptors are not reused. What the kernel does: it keeps which instance a task is attached to, and records PCs in
it as long as there is room (`record`); `KCOV_ENABLE` fails where one is attached, and `KCOV_DISABLE` succeeds for the
attached one only. The messages on stderr and the merged log are left out.
-/

namespace Vock.Preload

/-- `COVER_SZ`. -/
def coverSz : Nat := 2 * 2 ^ 20

/-- What the tasks of a process share: the descriptors of KCOV, what the instances have recorded, and the logs
`local-<tid>.log` and `remote-<tid>.log`. -/
structure World where
  opened : Nat
  fds : List Nat
  area : Nat → List U64
  locals : Nat → List U8
  remotes : Nat → List U8

/-- A task: its number, the instance it is attached to, its `thread_local!` variables, and whether its
thread-specific value is set. -/
structure Task where
  tid : Nat
  attached : Option Nat
  localFd : Option Nat
  localArea : Option Nat
  remoteFd : Option Nat
  remoteArea : Option Nat
  kcovTid : Nat
  tsd : Bool

/-- A task that has nothing of KCOV. -/
def Task.idle (tid : Nat) : Task := ⟨tid, none, none, none, none, none, 0, false⟩

/-- No descriptor and no log. -/
def World.empty : World := ⟨0, [], fun _ => [], fun _ => [], fun _ => []⟩

structure State where
  task : Task
  world : World

/-! ## The kernel -/

/-- A new instance. -/
def openKcov (s : State) : Nat × State :=
  let fd := s.world.opened
  (fd, { s with world := { s.world with
    opened := fd + 1, fds := fd :: s.world.fds, area := Function.update s.world.area fd [] } })

def close (fd : Nat) (s : State) : State :=
  { s with world := { s.world with fds := s.world.fds.filter (· ≠ fd) } }

/-- `KCOV_ENABLE`. It fails with `EBUSY` only. -/
def ioctlEnable (fd : Nat) (s : State) : Bool × State :=
  if s.task.attached = none then (true, { s with task := { s.task with attached := some fd } }) else (false, s)

/-- `KCOV_DISABLE`. -/
def ioctlDisable (fd : Nat) (s : State) : Bool × State :=
  if s.task.attached = some fd then (true, { s with task := { s.task with attached := none } }) else (false, s)

/-- An instance with one PC more, if there is room. -/
def push (pc : U64) (pcs : List U64) : List U64 := if pcs.length + 1 < coverSz then pcs ++ [pc] else pcs

/-- The kernel records a PC of the task. -/
def record (pc : U64) (s : State) : State :=
  match s.task.attached with
  | none => s
  | some fd => { s with world := { s.world with area := Function.update s.world.area fd (push pc (s.world.area fd)) } }

/-! ## The shim -/

section

variable (aarch64 : Bool)

/-- `previous_instruction_pc`. -/
def previousInstructionPc (pc : U64) : U64 := if aarch64 then pc - 4#64 else pc - 1#64

/-- The lines of PCs in a log. -/
def logText (pcs : List U64) : List U8 := pcs.flatMap fun pc => hex (previousInstructionPc aarch64 pc) ++ [byte '\n']

/-- A text more in a log. -/
def append (remote : Bool) (tid : Nat) (text : List U8) (s : State) : State :=
  if remote then
    { s with world := { s.world with remotes := Function.update s.world.remotes tid (s.world.remotes tid ++ text) } }
  else { s with world := { s.world with locals := Function.update s.world.locals tid (s.world.locals tid ++ text) } }

/-- `write_coverage`. -/
def writeCoverage (remote : Bool) (tid : Nat) (area fd : Option Nat) (s : State) : State :=
  match fd, area with
  | some fd, some area =>
    let s := (ioctlDisable fd s).2
    close fd (append remote tid (logText aarch64 (s.world.area area)) s)
  | _, _ => s

/-- `kcov_disable`. -/
def kcovDisable (s : State) : State :=
  let tid := s.task.kcovTid
  let s := writeCoverage aarch64 false tid s.task.localArea s.task.localFd s
  let s := { s with task := { s.task with localFd := none, localArea := none } }
  let s := writeCoverage aarch64 true tid s.task.remoteArea s.task.remoteFd s
  { s with task := { s.task with remoteFd := none, remoteArea := none } }

/-- One descriptor of `recover_stale_kcov`. -/
def reclaim (tid : Nat) (r : Bool × State) (fd : Nat) : Bool × State :=
  match ioctlDisable fd r.2 with
  | (false, _) => r
  | (true, s) => (true, writeCoverage aarch64 false tid (some fd) (some fd) s)

/-- `recover_stale_kcov`. -/
def recoverStaleKcov (skip tid : Nat) (s : State) : Bool × State :=
  (s.world.fds.filter (· ≠ skip)).foldl (reclaim aarch64 tid) (false, s)

/-- An instance begins to record from its start. -/
def clear (fd : Nat) (s : State) : State :=
  { s with world := { s.world with area := Function.update s.world.area fd [] } }

/-- The remote part of `kcov_enable`, by whether `KCOV_REMOTE_ENABLE` succeeds. -/
def enableRemote (ok : Bool) (s : State) : State :=
  let (fd, s) := openKcov s
  if ok then
    let s := clear fd s
    { s with task := { s.task with remoteFd := some fd, remoteArea := some fd } }
  else close fd s

/-- `KCOV_ENABLE`, once more where an instance that was left attached is reclaimed. -/
def arm (fd : Nat) (s : State) : Bool × State :=
  match ioctlEnable fd s with
  | (true, s) => (true, s)
  | (false, s) =>
    match recoverStaleKcov aarch64 fd s.task.tid s with
    | (true, s) => ioctlEnable fd s
    | (false, s) => (false, s)

/-- `kcov_enable`, with `register_thread_dtor`. -/
def kcovEnable (remoteOk : Bool) (s : State) : State :=
  let s := { s with task := { s.task with kcovTid := s.task.tid } }
  let (fd, s) := openKcov s
  match arm aarch64 fd s with
  | (false, s) => close fd s
  | (true, s) =>
    let s := clear fd s
    let s := { s with task := { s.task with localFd := some fd, localArea := some fd, tsd := true } }
    enableRemote remoteOk s

/-- Closes a descriptor if there is one. -/
def closeIf (fd : Option Nat) (s : State) : State := fd.elim s (close · s)

/-- `kcov_child_reinit`. -/
def kcovChildReinit (remoteOk : Bool) (s : State) : State :=
  let s := closeIf s.task.localFd s
  let s := closeIf s.task.remoteFd s
  let s := { s with task := { s.task with localFd := none, remoteFd := none, localArea := none, remoteArea := none } }
  kcovEnable aarch64 remoteOk s

/-! ## Events -/

/-- What happens to a task; where it enables KCOV, with whether `KCOV_REMOTE_ENABLE` succeeds. -/
inductive Event where
  /-- A PC is reached in the kernel. -/
  | collect (pc : U64)
  /-- `kcov_ctor`. -/
  | ctor (remote : Bool)
  /-- An interposed call of the `execve` family that returns. -/
  | execFails (remote : Bool)
  /-- An interposed call of the `execve` family that does not return. -/
  | execSucceeds
  /-- A new image without the interposed calls. -/
  | execBypasses
  /-- `fork`, `vfork` or `daemon`, seen from the child. -/
  | forkChild (tid : Nat) (remote : Bool)
  /-- `kcov_thread_entry`, up to the routine. -/
  | threadStart (remote : Bool)
  /-- The routine returns. -/
  | threadReturn
  /-- `pthread_exit`, or the thread is cancelled. -/
  | threadExit
  /-- `_exit` or `_Exit`. -/
  | exitNow
  /-- `kcov_dtor`. -/
  | dtor

/-- The thread-specific destructor, where the value is set. -/
def runTsd (s : State) : State :=
  if s.task.tsd then kcovDisable aarch64 { s with task := { s.task with tsd := false } } else s

/-- The variables of a new image. -/
def newImage (s : State) : State :=
  { s with task := { s.task with
    localFd := none, localArea := none, remoteFd := none, remoteArea := none, kcovTid := 0, tsd := false } }

/-- The child of a task. -/
def forked (tid : Nat) (s : State) : State := { s with task := { s.task with tid, attached := none } }

def step (s : State) : Event → State
  | .collect pc => record pc s
  | .ctor remote => kcovEnable aarch64 remote s
  | .execFails remote => kcovEnable aarch64 remote (kcovDisable aarch64 s)
  | .execSucceeds => newImage (kcovDisable aarch64 s)
  | .execBypasses => newImage s
  | .forkChild tid remote => kcovChildReinit aarch64 remote (forked tid s)
  | .threadStart remote => kcovEnable aarch64 remote s
  | .threadReturn => runTsd aarch64 (kcovDisable aarch64 s)
  | .threadExit => runTsd aarch64 s
  | .exitNow => kcovDisable aarch64 s
  | .dtor => kcovDisable aarch64 s

/-- A process: its threads by their numbers, and what they share. -/
structure Process where
  tasks : Nat → Task
  world : World

/-- A thread of the process, as the shim sees it. -/
def Process.thread (p : Process) (tid : Nat) : State := ⟨p.tasks tid, p.world⟩

/-- Something happens to a thread. -/
def Process.step (p : Process) (event : Nat × Event) : Process :=
  let s := Preload.step aarch64 (p.thread event.1) event.2
  { tasks := Function.update p.tasks event.1 s.task, world := s.world }

end

end Vock.Preload
