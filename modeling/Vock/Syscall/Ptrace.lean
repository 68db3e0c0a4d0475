import Vock.Syscall

/-!
# The tracer

`Tracer` of `vock/src/syscall/ptrace.rs`. What the kernel reports is a list: a wait status for each `waitpid`, with the
registers where they can be read; behind its end `waitpid` fails. The signals that the tracee is resumed with are
collected. The registers are those of either machine.
-/

namespace Vock.Ptrace

/-! ## Registers -/

/-- The reading of a `user_regs_struct`. -/
structure Machine (ρ : Type) where
  regsSyscall : ρ → Syscall
  regsRet : ρ → U64

/-- `user_regs_struct` on `x86_64`, as far as it is read. -/
structure X86Regs where
  origRax : U64
  rax : U64
  rdi : U64
  rsi : U64
  rdx : U64
  r10 : U64
  r8 : U64
  r9 : U64

def x86 : Machine X86Regs where
  regsSyscall r := ⟨r.origRax, #v[r.rdi, r.rsi, r.rdx, r.r10, r.r8, r.r9], 0#64⟩
  regsRet r := r.rax

/-- `user_regs_struct` on `aarch64`, as far as it is read. -/
abbrev Aarch64Regs := Vector U64 31

def aarch64 : Machine Aarch64Regs where
  regsSyscall r := ⟨r[8], #v[r[0], r[1], r[2], r[3], r[4], r[5]], 0#64⟩
  regsRet r := r[0]

/-! ## Wait statuses -/

def wifexited (status : BitVec 32) : Bool := status &&& 0x7f#32 == 0#32

def wifsignaled (status : BitVec 32) : Bool := 2 ≤ (((status &&& 0x7f#32) + 1#32).setWidth 8).toInt

def wifstopped (status : BitVec 32) : Bool := status &&& 0xff#32 == 0x7f#32

def wstopsig (status : BitVec 32) : BitVec 32 := (status >>> 8) &&& 0xff#32

/-! ## Tracing -/

variable {ρ : Type}

/-- A result of `waitpid`, with that of `get_regs`. -/
abbrev Wait (ρ : Type) := BitVec 32 × Option ρ

/-- The flag of a `Tracer`, what the kernel will report, and the signals the tracee was resumed with. -/
structure Tracer (ρ : Type) where
  inSyscall : Bool
  waits : List (Wait ρ)
  resumed : List Nat

/-- `PTRACE_SYSCALL`, with the signal it injects. -/
def resume (sig : Nat) (t : Tracer ρ) : Tracer ρ := { t with resumed := t.resumed ++ [sig] }

/-- `Tracer::start`: the first stop of the child. -/
def start : List (Wait ρ) → Option (Tracer ρ)
  | [] => none
  | (status, _) :: waits =>
    -- a child that has ended is reaped by the `waitpid`, and `PTRACE_SETOPTIONS` fails
    if wifexited status || wifsignaled status then none else some (resume 0 ⟨false, waits, []⟩)

/-- The loop of `next_syscall`. -/
def nextFrom (m : Machine ρ) (pending : Syscall) (inSyscall : Bool) (resumed : List Nat) :
    List (Wait ρ) → Option Syscall × Tracer ρ
  | [] => (none, ⟨inSyscall, [], resumed⟩)
  | (status, regs) :: waits =>
    if wifexited status || wifsignaled status then (none, ⟨inSyscall, waits, resumed⟩)
    else if !wifstopped status || wstopsig status &&& 0x80#32 == 0#32 then
      nextFrom m pending inSyscall (resumed ++ [0]) waits
    else
      match regs with
      | none => (none, ⟨inSyscall, waits, resumed⟩)
      | some regs =>
        if inSyscall then (some { pending with ret := m.regsRet regs }, ⟨false, waits, resumed ++ [0]⟩)
        else nextFrom m (m.regsSyscall regs) true (resumed ++ [0]) waits

/-- `next_syscall`. -/
def nextSyscall (m : Machine ρ) (t : Tracer ρ) : Option Syscall × Tracer ρ :=
  nextFrom m ⟨0#64, Vector.replicate 6 0#64, 0#64⟩ t.inSyscall t.resumed t.waits

/-- `while let Some(sc) = tracer.next_syscall()`, for at most so many calls. -/
def records (m : Machine ρ) : Nat → Tracer ρ → List Syscall × Tracer ρ
  | 0, t => ([], t)
  | fuel + 1, t =>
    match nextSyscall m t with
    | (none, t) => ([], t)
    | (some sc, t) => (sc :: (records m fuel t).1, (records m fuel t).2)

end Vock.Ptrace
