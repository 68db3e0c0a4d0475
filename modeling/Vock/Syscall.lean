import Vock.Word

/-!
# System calls

The record of `vock/src/syscall/mod.rs` that the tracers fill and the writers print. An `i64` is the
word of its bits.
-/

namespace Vock

/-- `[i64; 6]`, the arguments of a call. -/
abbrev Args := Vector U64 6

/-- `Syscall`. -/
structure Syscall where
  nr : U64
  args : Args
  ret : U64
  deriving Repr, DecidableEq

end Vock
