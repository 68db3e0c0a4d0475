import Vock.Fuzz.Arena

/-!
# Running a program

The loop of `vock/src/fuzz/prog_exec.rs` that runs a decoded program: which calls it overlaps with
the rest, what flows from call to call, and who waits for whom.

`run_prog` is embedded twice. `Flow` follows the data: what a call gives back and what the kernel
writes into the arena for it are parameters (`Kernel`), and the writes of an overlapped call land at
any time after it was spawned. `Watch` follows the control: the main thread, the spawned threads and
the one timer that `alarm` sets. In both the loop may be left before any call, as it is when the
program's deadline has passed; coverage, fault injection and the results reported are left out.
-/

namespace Vock.Fuzz

open Library

/-- `Call::is_pseudo`. -/
def Call.isPseudo (c : Call) : Bool := [byte 's', byte 'y', byte 'z', byte '_'].isPrefixOf c.base

mutual

def references (slot : U64) : Arg → Bool
  | .res idx _ _ => idx == slot
  | .struct fields => referencesAny slot fields
  | .array fields => referencesAny slot fields
  | .union inner => references slot inner
  | .out _ inner => references slot inner
  | .ptr _ (some inner) => references slot inner
  | _ => false

def referencesAny (slot : U64) : List Arg → Bool
  | [] => false
  | f :: fs => references slot f || referencesAny slot fs

end

/-- `result_used_later`. -/
def resultUsedLater (prog : Prog) (idx : Nat) : Bool :=
  match prog.calls[idx]?.bind Call.res with
  | none => false
  | some slot => (prog.calls.drop (idx + 1)).any fun c => referencesAny slot c.args

/-- The two fields of `Opts` the loop decides by. -/
structure Opts where
  threaded : Bool
  collide : Bool
  deriving Repr, DecidableEq

/-- Whether call `i` of the program is run on a thread of its own. -/
def overlaps (opts : Opts) (prog : Prog) (i : Nat) : Bool :=
  match prog.calls[i]? with
  | none => false
  | some call =>
    (call.isAsync || (opts.collide && i % 2 == 1)) && opts.threaded && !call.isPseudo && !resultUsedLater prog i

/-! ## The flow of data -/

/-- What one call comes to: the value it returns and the blocks it writes into the arena, in order. -/
structure Effect where
  ret : U64
  writes : List (Nat × List U8)
  deriving Repr

/-- The effect of each call of a program that gets to the kernel or to the pseudo-syscalls. -/
abbrev Kernel := Nat → Effect

/-- `do_call`, and the same in a spawned thread: a call without a number fails with `ENOSYS`. -/
def doCall (kernel : Kernel) (i : Nat) (call : Call) : Effect :=
  if call.isPseudo then kernel i
  else if call.nr.isNone then ⟨0xffffffffffffffff#64, []⟩
  else kernel i

namespace Arg

/-- A reference, with its divisor and its offset. -/
def resource? : Arg → Option (U64 × U64 × U64)
  | .res idx div add => some (idx, div, add)
  | _ => none

/-- The references `copyin` resolves: that of a scalar, or those of a pointee at any depth. What is
in a struct passed by value is not looked at. -/
def resources : Arg → List (U64 × U64 × U64)
  | .res idx div add => [(idx, div, add)]
  | .union inner => resources inner
  | .out _ inner => resources inner
  | .ptr _ (some inner) => inner.nodes.filterMap resource?
  | _ => []

end Arg

/-- The references `prepare_args` resolves. -/
def Call.resources (call : Call) : List (U64 × U64 × U64) := (call.args.take maxArgs).flatMap Arg.resources

/-- The values `prepare_args` puts in their place. -/
def substituted (ctx : Ctx) (call : Call) : List U64 :=
  call.resources.map fun r => ctx.resolve r.1 r.2.1 r.2.2

/-- `ctx.set` of the slot a call's return value fills. -/
def publish (call : Call) (ret : U64) (ctx : Ctx) : Ctx :=
  match call.res with
  | some slot => ctx.set slot ret
  | none => ctx

/-- One round of the loop over `copyouts`. -/
def readBack (arena : Arena) (ctx : Ctx) (co : Copyout) : Ctx :=
  match arena.readScalar co.off co.size with
  | some v => ctx.set co.slot v
  | none => ctx

/-- One block the kernel writes. It goes to the memory directly. -/
def Arena.poke (a : Arena) (p : Nat × List U8) : Arena := { a with mem := blit a.mem p.1 p.2 }

namespace Flow

/-- Where the main thread is with call `next`. -/
inductive Phase where
  | ready
  | inside (writes : List (Nat × List U8)) (copyouts : List Copyout)
  | reading (copyouts : List Copyout)

/-- A moment of a run. `pending` has the writes still to come from each spawned thread, `seen` the
values substituted into each call so far. -/
structure State where
  next : Nat
  phase : Phase
  arena : Arena
  ctx : Ctx
  pending : List (List (Nat × List U8))
  seen : List (List U64)

/-- `run_prog` before its loop. -/
def start (arena : Arena) : State := ⟨0, .ready, arena, .new, [], []⟩

/-- What the main thread does next in the loop. -/
def advance (w : Nat) (opts : Opts) (prog : Prog) (kernel : Kernel) (s : State) : Option State :=
  prog.calls[s.next]?.map fun call =>
    match s.phase with
    | .ready =>
      let (prepared, arena) := prepareArgs w s.arena call s.ctx
      let seen := s.seen ++ [substituted s.ctx call]
      let writes := (doCall kernel s.next call).writes
      if overlaps opts prog s.next then
        -- the fields to read back are dropped here
        { s with next := s.next + 1, arena := arena, seen := seen, pending := s.pending ++ [writes] }
      else { s with phase := .inside writes prepared.copyouts, arena := arena, seen := seen }
    | .inside (p :: writes) copyouts => { s with phase := .inside writes copyouts, arena := s.arena.poke p }
    | .inside [] copyouts =>
      { s with phase := .reading copyouts, ctx := publish call (doCall kernel s.next call).ret s.ctx }
    | .reading (co :: copyouts) => { s with phase := .reading copyouts, ctx := readBack s.arena s.ctx co }
    | .reading [] => { s with next := s.next + 1, phase := .ready }

/-- One step of a run: of the main thread, or a write of a spawned thread. -/
inductive Step (w : Nat) (opts : Opts) (prog : Prog) (kernel : Kernel) : State → State → Prop
  | main {s s'} : advance w opts prog kernel s = some s' → Step w opts prog kernel s s'
  | land {s k p writes} : s.pending[k]? = some (p :: writes) →
      Step w opts prog kernel s { s with arena := s.arena.poke p, pending := s.pending.set k writes }

/-- What a run of the program gets to, with any completion order of its threads. -/
def Reaches (w : Nat) (opts : Opts) (prog : Prog) (kernel : Kernel) (arena : Arena) (s : State) : Prop :=
  Relation.ReflTransGen (Step w opts (noteFixed w arena.reset prog).2 kernel)
    (start (noteFixed w arena.reset prog).1) s

end Flow

/-! ## The watchdog -/

namespace Watch

/-- Where a thread is with the call it makes: `arm`, the call, `disarm`. Inside, the number says in
how many more system calls it will be blocked until a signal comes. -/
inductive Phase where
  | starting
  | armed
  | inside (blocks : Nat)
  | returned
  | finished
  deriving Repr, DecidableEq

/-- What a step of a thread does to the timer. -/
inductive Alarm where
  | keep
  | arm
  | disarm
  deriving Repr, DecidableEq

/-- The next step of a thread on a call that blocks this many times; there is none while it is
blocked, and none when it is finished. -/
def Phase.next (blocks : Nat) : Phase → Option (Phase × Alarm)
  | .starting => some (.armed, .arm)
  | .armed => some (.inside blocks, .keep)
  | .inside 0 => some (.returned, .keep)
  | .inside (_ + 1) => none
  | .returned => some (.finished, .disarm)
  | .finished => none

/-- The main thread: at a call of the loop, joining the spawned threads in order, or returned. -/
inductive Main where
  | at (i : Nat) (ph : Phase)
  | joining (k : Nat)
  | done
  deriving Repr, DecidableEq

/-- The main thread, or a spawned one by its place. -/
abbrev Thread := Option Nat

/-- A moment of a run: the spawned threads have the call they make. The timer is off, or was set last
by one of the threads. -/
structure State where
  main : Main
  threads : List (Nat × Phase)
  timer : Option Thread
  deriving Repr, DecidableEq

def start : State := ⟨.at 0 .starting, [], none⟩

/-- The call a thread is at, and where it is with it. -/
def State.job? (s : State) : Thread → Option (Nat × Phase)
  | none =>
    match s.main with
    | .at i ph => some (i, ph)
    | _ => none
  | some k => s.threads[k]?

def State.put (s : State) (t : Thread) (job : Nat × Phase) : State :=
  match t with
  | none => { s with main := .at job.1 job.2 }
  | some k => { s with threads := s.threads.set k job }

/-- `alarm` as the thread `t` calls it: a later one replaces an earlier, and `alarm(0)` cancels any. -/
def Alarm.set (t : Thread) (timer : Option Thread) : Alarm → Option Thread
  | .keep => timer
  | .arm => some t
  | .disarm => none

/-- How often call `i` will block: `blocks` says so of the calls that are made. Only a pseudo-syscall
makes more than one system call, and a call without a number makes none. -/
def stops (blocks : Nat → Nat) (prog : Prog) (i : Nat) : Nat :=
  match prog.calls[i]? with
  | none => 0
  | some call => if call.isPseudo then blocks i else if call.nr.isNone then 0 else min (blocks i) 1

/-- The timer may go off. It is set to a second or more; `early` says whether that can be over before
the call it was set for has begun. -/
def State.Due (early : Bool) (s : State) : Prop :=
  ∃ t, s.timer = some t ∧ (early = true ∨ ∃ i ph, s.job? t = some (i, ph) ∧ ph ≠ .armed)

/-- The main thread is blocked in the `join` of a thread. -/
def State.Waits (s : State) : Prop := ∃ k i ph, s.main = .joining k ∧ s.threads[k]? = some (i, ph) ∧ ph ≠ .finished

/-- One step of a run. The signal reaches some thread that is blocked in a system call, if there is
one: in the call it makes for the program, or, the main thread, in the wait of `join`, which begins
again. -/
inductive Step (early : Bool) (opts : Opts) (prog : Prog) (blocks : Nat → Nat) : State → State → Prop
  /-- The loop is left, at its end or when the deadline has passed. -/
  | leave {s i} : s.main = .at i .starting → Step early opts prog blocks s { s with main := .joining 0 }
  | spawn {s i} : s.main = .at i .starting → overlaps opts prog i = true →
      Step early opts prog blocks s { s with main := .at (i + 1) .starting, threads := s.threads ++ [(i, .starting)] }
  /-- A step of `exec_call`; behind its last one is the next call. -/
  | call {s i ph ph' alarm} : s.main = .at i ph → i < prog.calls.length → overlaps opts prog i = false →
      ph.next (stops blocks prog i) = some (ph', alarm) →
      Step early opts prog blocks s { s with
        main := if ph' = .finished then .at (i + 1) .starting else .at i ph'
        timer := alarm.set none s.timer }
  /-- A step of a spawned thread. -/
  | thread {s k i ph ph' alarm} : s.threads[k]? = some (i, ph) →
      ph.next (stops blocks prog i) = some (ph', alarm) →
      Step early opts prog blocks s { s with threads := s.threads.set k (i, ph'), timer := alarm.set (some k) s.timer }
  | join {s k i} : s.main = .joining k → s.threads[k]? = some (i, .finished) →
      Step early opts prog blocks s { s with main := .joining (k + 1) }
  | finish {s} : s.main = .joining s.threads.length → Step early opts prog blocks s { s with main := .done }
  /-- The signal reaches a thread blocked in its call. -/
  | wake {s t i n} : s.Due early → s.job? t = some (i, .inside (n + 1)) →
      Step early opts prog blocks s { s.put t (i, .inside n) with timer := none }
  /-- The signal reaches the main thread in `join`, or comes while no thread is blocked. -/
  | lapse {s} : s.Due early → s.Waits ∨ (∀ t i n, s.job? t ≠ some (i, .inside (n + 1))) →
      Step early opts prog blocks s { s with timer := none }

end Watch

end Vock.Fuzz
