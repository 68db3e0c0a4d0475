import Mathlib.Data.Nat.Sqrt
import Vock.Syscall

/-!
# Mutation of traces

`biased_idx` and `minimize_trace` of `vock/src/fuzz/mutate.rs`, with the generator of `vock/src/fuzz/rng.rs`. The square root
of an `f64` is taken as exact.
-/

namespace Vock.Fuzz.Mutate

/-- `Rng`: xorshift64. -/
structure Rng where
  state : U64

namespace Rng

def new (seed : U64) : Rng := ⟨seed ^^^ 0x9e3779b97f4a7c15#64⟩

def nextU64 (rng : Rng) : U64 × Rng :=
  let x := rng.state
  let x := x ^^^ (x <<< 13)
  let x := x ^^^ (x >>> 7)
  let x := x ^^^ (x <<< 17)
  (x, ⟨x⟩)

def rand (rng : Rng) : U64 × Rng := (rng.nextU64.1 >>> 33, rng.nextU64.2)

/-- `below`; of a number that is not positive it is 0. -/
def below (rng : Rng) (n : Int) : Nat × Rng := if n ≤ 0 then (0, rng) else rng.rand.map (·.toNat % n.toNat) id

end Rng

/-- The index that `biased_idx` takes for a random number `r`. -/
def biasedAt (n : Int) (r : Nat) : Nat :=
  let idx := (n - 1) - r.sqrt
  if idx < 0 then 0 else idx.toNat

/-- `biased_idx`; the product is one of `i64`. -/
def biasedIdx (n : Int) (rng : Rng) : Nat × Rng :=
  if n ≤ 0 then (0, rng) else (rng.below ((n * n).bmod (2 ^ 64))).map (biasedAt n) id

/-- Whether a later call has the value `ret` of a call, if that is below 256. -/
def needed (ret : U64) (later : List Syscall) : Bool :=
  0 ≤ ret.toInt && ret.toInt < 256 && later.any fun c => c.args.contains ret

/-- The loop of `minimize_trace`, from index `i` down. -/
def minimizeFrom : Nat → List Syscall → Rng → List Syscall × Rng
  | 0, trace, rng => (trace, rng)
  | i + 1, trace, rng =>
    if 3 < trace.length then
      match trace.drop (i + 1) with
      | [] => (trace, rng) -- the index is in the trace
      | c :: later =>
        if needed c.ret later then minimizeFrom i trace rng
        else
          let (k, rng) := rng.below 3
          minimizeFrom i (if k = 0 then trace.take (i + 1) ++ later else trace) rng
    else (trace, rng)

/-- `minimize_trace`. -/
def minimizeTrace (trace : List Syscall) (rng : Rng) : List Syscall × Rng :=
  if trace.length ≤ 3 then (trace, rng) else minimizeFrom (trace.length - 1) trace rng

end Vock.Fuzz.Mutate
