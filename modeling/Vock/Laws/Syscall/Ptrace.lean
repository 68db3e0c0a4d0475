import Vock.Syscall.Ptrace

/-!
# What the tracer records and what it passes on

The stops of a tracee as the kernel reports them (`waits`). Each completed pair of stops gives its record, in order
(`drain_eq`). The tracee is resumed without a signal at every stop, so that tracing changes nothing exactly if no stop is
for a signal (`transparent_iff`). A child whose first report is its end is not traced; one that stops is, from that stop
on (`start_ended`, `start_stopped`).

One tracee is modelled, and its stops are those the kernel reports to one tracer. A `PTRACE_SYSCALL` that fails between
two stops is not: the loop does not look at its result.
-/

namespace Vock.Ptrace

/-! ## Stops -/

/-- A signal. -/
abbrev Signal := { n : Nat // 0 < n ∧ n ≤ 64 }

/-- A stop of a tracee: at the entry or the exit of a call, by turns, or for a signal. -/
inductive Stop (ρ : Type) where
  | syscall (regs : ρ)
  | signal (sig : Signal)

/-- How a tracee ends. -/
inductive End where
  | exited (code : BitVec 8)
  | killed (sig : Signal) (core : Bool)

variable {ρ : Type}

/-- The status of a stop for a signal number, and of one at a call: `SIGTRAP | 0x80`. -/
def stopStatus (sig : Nat) : BitVec 32 := BitVec.ofNat 32 (sig * 256 + 0x7f)

def Stop.wait : Stop ρ → Wait ρ
  | .syscall regs => (stopStatus 0x85, some regs)
  | .signal sig => (stopStatus sig, none)

def End.status : End → BitVec 32
  | .exited code => code.setWidth 32 <<< 8
  | .killed sig core => BitVec.ofNat 32 (sig + if core then 0x80 else 0)

/-- What the kernel reports of a tracee. -/
def waits (stops : List (Stop ρ)) (fin : End) : List (Wait ρ) := stops.map Stop.wait ++ [(fin.status, none)]

/-- The registers of a stop at a call. -/
def Stop.regs? : Stop ρ → Option ρ
  | .syscall regs => some regs
  | .signal _ => none

/-- The signal that a stop keeps from the tracee until it is resumed with it. -/
def Stop.pending : Stop ρ → Nat
  | .syscall _ => 0
  | .signal sig => sig

/-- One record for each entry with its exit. -/
def completed (m : Machine ρ) : List ρ → List Syscall
  | entry :: exit :: rest => { m.regsSyscall entry with ret := m.regsRet exit } :: completed m rest
  | _ => []

/-! ## Statuses -/

theorem wifexited_exited : ∀ n < 256, wifexited (BitVec.ofNat 32 n <<< 8) = true := by decide +kernel

theorem wifsignaled_killed :
    ∀ n < 65, 0 < n → wifsignaled (BitVec.ofNat 32 n) = true ∧ wifsignaled (BitVec.ofNat 32 (n + 0x80)) = true := by
  decide

theorem signal_passes : ∀ n < 65, 0 < n → (wifexited (stopStatus n) || wifsignaled (stopStatus n)) = false ∧
    (!wifstopped (stopStatus n) || wstopsig (stopStatus n) &&& 0x80#32 == 0#32) = true := by
  decide

theorem End.status_ends (fin : End) : (wifexited fin.status || wifsignaled fin.status) = true := by
  cases fin with
  | exited code =>
    have hexited := wifexited_exited code.toNat code.isLt
    rw [BitVec.ofNat_toNat] at hexited
    rw [End.status, hexited, Bool.true_or]
  | killed sig core =>
    obtain ⟨hplain, hcore⟩ := wifsignaled_killed sig.1 (Nat.lt_succ_of_le sig.2.2) sig.2.1
    rw [Bool.or_eq_true]
    cases core with
    | true => exact Or.inr hcore
    | false => exact Or.inr hplain

/-! ## Calls -/

/-- The records from a stop on, where the entry of a call may be pending. -/
def pairs (m : Machine ρ) : Option Syscall → List ρ → List Syscall
  | _, [] => []
  | none, entry :: rest => pairs m (some (m.regsSyscall entry)) rest
  | some pending, exit :: rest => { pending with ret := m.regsRet exit } :: pairs m none rest

theorem pairs_none (m : Machine ρ) (regs : List ρ) : pairs m none regs = completed m regs := by
  induction regs using completed.induct with
  | case1 entry exit rest ih => rw [completed, pairs, pairs, ih]
  | case2 regs hshort =>
    rw [completed]
    · cases regs with
      | nil => rfl
      | cons entry rest =>
        cases rest with
        | nil => rfl
        | cons exit rest => exact (hshort entry exit rest rfl).elim
    · exact hshort

/-- The calls from within one: the rest of it, and then at most so many. -/
def drain (m : Machine ρ) (fuel : Nat) (pending : Syscall) (inSyscall : Bool) (resumed : List Nat) (waits : List (Wait ρ)) :
    List Syscall × Tracer ρ :=
  match nextFrom m pending inSyscall resumed waits with
  | (none, t) => ([], t)
  | (some sc, t) => (sc :: (records m fuel t).1, (records m fuel t).2)

section

variable (m : Machine ρ) (fuel : Nat) (pending : Syscall) (resumed : List Nat) (waits : List (Wait ρ))

theorem drain_end (inSyscall : Bool) (fin : End) :
    drain m fuel pending inSyscall resumed [(fin.status, none)] = ([], ⟨inSyscall, [], resumed⟩) := by
  rw [drain, nextFrom, fin.status_ends]
  rfl

theorem drain_signal (inSyscall : Bool) (sig : Signal) :
    drain m fuel pending inSyscall resumed ((Stop.signal sig).wait :: waits) =
      drain m fuel pending inSyscall (resumed ++ [0]) waits := by
  obtain ⟨hends, hpasses⟩ := signal_passes sig.1 (Nat.lt_succ_of_le sig.2.2) sig.2.1
  rw [drain, Stop.wait, nextFrom, hends, hpasses]
  rfl

theorem drain_entry (regs : ρ) :
    drain m fuel pending false resumed ((Stop.syscall regs).wait :: waits) =
      drain m fuel (m.regsSyscall regs) true (resumed ++ [0]) waits := rfl

theorem drain_exit (regs : ρ) :
    drain m (fuel + 1) pending true resumed ((Stop.syscall regs).wait :: waits) =
      ({ pending with ret := m.regsRet regs } ::
          (drain m fuel ⟨0#64, Vector.replicate 6 0#64, 0#64⟩ false (resumed ++ [0]) waits).1,
        (drain m fuel ⟨0#64, Vector.replicate 6 0#64, 0#64⟩ false (resumed ++ [0]) waits).2) := rfl

end

/-- The records of the calls, and the signals the tracee is resumed with, from any point of a run. -/
theorem drain_eq (m : Machine ρ) (fin : End) (stops : List (Stop ρ)) {fuel : Nat} (hfuel : stops.length ≤ fuel)
    (pending : Syscall) (inSyscall : Bool) (resumed : List Nat) :
    (drain m fuel pending inSyscall resumed (waits stops fin)).1 =
        pairs m (if inSyscall then some pending else none) (stops.filterMap Stop.regs?) ∧
      (drain m fuel pending inSyscall resumed (waits stops fin)).2.resumed = resumed ++ stops.map fun _ => 0 := by
  induction stops generalizing fuel pending inSyscall resumed with
  | nil =>
    rw [show waits [] fin = [(fin.status, none)] from rfl, drain_end]
    refine ⟨?_, (List.append_nil _).symm⟩
    cases inSyscall <;> rfl
  | cons stop stops ih =>
    have hcons : waits (stop :: stops) fin = stop.wait :: waits stops fin := rfl
    have happend : resumed ++ (stop :: stops).map (fun _ => 0) = resumed ++ [0] ++ stops.map fun _ => 0 :=
      List.append_cons _ _ _
    rw [hcons, happend]
    cases stop with
    | signal sig =>
      rw [drain_signal]
      exact ih (Nat.le_of_succ_le hfuel) pending inSyscall (resumed ++ [0])
    | syscall regs =>
      cases inSyscall with
      | false =>
        rw [drain_entry]
        exact ih (Nat.le_of_succ_le hfuel) (m.regsSyscall regs) true (resumed ++ [0])
      | true =>
        cases fuel with
        | zero => exact absurd hfuel (Nat.not_succ_le_zero _)
        | succ fuel =>
          obtain ⟨hrecords, hresumed⟩ := ih (Nat.le_of_succ_le_succ hfuel) ⟨0#64, Vector.replicate 6 0#64, 0#64⟩ false
            (resumed ++ [0])
          rw [drain_exit]
          exact ⟨congrArg ({ pending with ret := m.regsRet regs } :: ·) hrecords, hresumed⟩

theorem records_waits (m : Machine ρ) (stops : List (Stop ρ)) (fin : End) (resumed : List Nat) (more : Nat) :
    (records m (stops.length + 1 + more) ⟨false, waits stops fin, resumed⟩).1 =
        completed m (stops.filterMap Stop.regs?) ∧
      (records m (stops.length + 1 + more) ⟨false, waits stops fin, resumed⟩).2.resumed =
        resumed ++ stops.map fun _ => 0 := by
  obtain ⟨hrecords, hresumed⟩ := drain_eq m fin stops (Nat.le_add_right stops.length more)
    ⟨0#64, Vector.replicate 6 0#64, 0#64⟩ false resumed
  have hfuel : stops.length + 1 + more = stops.length + more + 1 := Nat.add_right_comm _ _ _
  rw [hfuel]
  exact ⟨hrecords.trans (pairs_none m _), hresumed⟩

/-- Whatever a tracee does, every completed call has its record, in order; and it gets its signals exactly if there are
none. -/
theorem transparent_iff (m : Machine ρ) (stops : List (Stop ρ)) (fin : End) (resumed : List Nat) (more : Nat) :
    let r := records m (stops.length + 1 + more) ⟨false, waits stops fin, resumed⟩
    (r.1 = completed m (stops.filterMap Stop.regs?) ∧ r.2.resumed = resumed ++ stops.map Stop.pending) ↔
      ∀ stop ∈ stops, stop.pending = 0 := by
  obtain ⟨hrecords, hresumed⟩ := records_waits m stops fin resumed more
  intro r
  refine (and_iff_right hrecords).trans ?_
  rw [show r.2.resumed = resumed ++ stops.map fun _ => 0 from hresumed, List.append_right_inj, List.map_inj_left]
  exact forall₂_congr fun _ _ => eq_comm

/-- `SIGUSR1` is kept from the tracee. -/
theorem signal_suppressed :
    let stops : List (Stop X86Regs) := [.signal ⟨10, by decide⟩]
    (records x86 2 ⟨false, waits stops (.exited 0#8), []⟩).2.resumed = [0] ∧ stops.map Stop.pending = [10] :=
  ⟨rfl, rfl⟩

/-! ## From the first stop -/

theorem Stop.goes_on (stop : Stop ρ) : (wifexited stop.wait.1 || wifsignaled stop.wait.1) = false := by
  cases stop with
  | syscall regs => exact (by decide : (wifexited (stopStatus 0x85) || wifsignaled (stopStatus 0x85)) = false)
  | signal sig => exact (signal_passes sig.1 (Nat.lt_succ_of_le sig.2.2) sig.2.1).1

theorem start_ended (fin : End) : start (waits ([] : List (Stop ρ)) fin) = none := by
  rw [show waits [] fin = [(fin.status, (none : Option ρ))] from rfl, start, fin.status_ends]
  rfl

/-- A child that stops is traced from there on: the calls behind its first stop are recorded, and it is resumed once
for each stop. -/
theorem start_stopped (m : Machine ρ) (first : Stop ρ) (stops : List (Stop ρ)) (fin : End) (more : Nat) :
    ∃ t, start (waits (first :: stops) fin) = some t ∧
      (records m (stops.length + 1 + more) t).1 = completed m (stops.filterMap Stop.regs?) ∧
      (records m (stops.length + 1 + more) t).2.resumed = (first :: stops).map fun _ => 0 := by
  refine ⟨⟨false, waits stops fin, [0]⟩, ?_, records_waits m stops fin [0] more⟩
  rw [show waits (first :: stops) fin = (first.wait.1, first.wait.2) :: waits stops fin from rfl, start, first.goes_on]
  rfl

end Vock.Ptrace
