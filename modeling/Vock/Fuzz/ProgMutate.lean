import Vock.Fuzz.Prog

/-!
# Mutation

`vock/src/fuzz/prog_mutate.rs`: one round of mutation edits a program in place and advances a
generator. Both are passed along here; an index the source would panic on cannot come up, since
`below` stays below the length it is given.
-/

namespace Vock.Fuzz

/-! ## The generator -/

/-- `Rng`: xorshift64*. -/
structure Rng where
  state : U64
  deriving Repr, DecidableEq

namespace Rng

def new (seed : U64) : Rng := ⟨if seed = 0#64 then 0x9E3779B97F4A7C15#64 else seed⟩

def next (rng : Rng) : U64 × Rng :=
  let x := rng.state
  let x := x ^^^ (x >>> 12)
  let x := x ^^^ (x <<< 25)
  let x := x ^^^ (x >>> 27)
  (x * 0x2545F4914F6CDD1D#64, ⟨x⟩)

def below (rng : Rng) (n : Nat) : Nat × Rng :=
  if n = 0 then (0, rng) else (rng.next.1.toNat % n, rng.next.2)

def chance (rng : Rng) (oneIn : Nat) : Bool × Rng :=
  let (k, rng) := rng.below (max oneIn 1)
  (k == 0, rng)

end Rng

/-! ## Leaves -/

/-- `INTERESTING`. -/
def interesting : List U64 :=
  [0#64, 1#64, 0xffffffffffffffff#64, 0x7fffffffffffffff#64, 0x8000000000000000#64, 0xffffffff#64,
    0x7fffffff#64, 0x80000000#64, 0xffff#64, 0x8000#64, 0x7f#64, 0x80#64, 0x100#64, 0x1000#64,
    0x4000#64, 0xffffff00#64]

/-- `INTERESTING[rng.below(INTERESTING.len())]`. -/
def pickInteresting (rng : Rng) : U64 × Rng :=
  let (i, rng) := rng.below interesting.length
  (interesting.getD i 0#64, rng)

def mutateInt (v : U64) (rng : Rng) : U64 × Rng :=
  let (k, rng) := rng.below 4
  match k with
  | 0 => pickInteresting rng
  | 1 =>
    let (bit, rng) := rng.below 64
    (v ^^^ (1#64 <<< bit), rng)
  | 2 =>
    let (d, rng) := rng.below 4
    (v + (1#64 + BitVec.ofNat 64 d), rng)
  | _ =>
    let (d, rng) := rng.below 4
    (v - (1#64 + BitVec.ofNat 64 d), rng)

/-- The size at which buffers stop growing. -/
def maxData : Nat := 64 <<< 10

def mutateData (d : List U8) (rng : Rng) : List U8 × Rng :=
  if d.isEmpty then
    let (v, rng) := rng.next
    (d ++ [v.setWidth 8], rng)
  else
    let (k, rng) := rng.below 4
    if k = 0 then
      let (i, rng) := rng.below d.length
      let (bit, rng) := rng.below 8
      (d.modify i (· ^^^ (1#8 <<< bit)), rng)
    else if k = 1 then
      let (i, rng) := rng.below d.length
      let (v, rng) := pickInteresting rng
      (d.set i (v.setWidth 8), rng)
    else if k = 2 ∧ d.length < maxData then
      let (v, rng) := rng.next
      (d ++ [v.setWidth 8], rng)
    else (if 1 < d.length then d.take (d.length - 1) else d, rng)

mutual

def countLeaves : Arg → Nat
  | .int _ | .data _ => 1
  | .ptr _ (some inner) => countLeaves inner
  | .union inner | .out _ inner => countLeaves inner
  | .struct fields | .array fields => countLeavesAll fields
  | _ => 0

def countLeavesAll : List Arg → Nat
  | [] => 0
  | f :: fs => countLeaves f + countLeavesAll fs

end

/-- How a descent to a leaf stands: whether it got there, the leaves still to pass, the generator. -/
structure Descent where
  found : Bool
  n : Nat
  rng : Rng

mutual

def mutateNth : Arg → Nat → Rng → Arg × Descent
  | .int v, n, rng =>
    if n = 0 then (.int (mutateInt v rng).1, ⟨true, n, (mutateInt v rng).2⟩)
    else (.int v, ⟨false, n - 1, rng⟩)
  | .data d, n, rng =>
    if n = 0 then (.data (mutateData d rng).1, ⟨true, n, (mutateData d rng).2⟩)
    else (.data d, ⟨false, n - 1, rng⟩)
  | .ptr addr (some inner), n, rng => (mutateNth inner n rng).map (.ptr addr ∘ some) id
  | .union inner, n, rng => (mutateNth inner n rng).map .union id
  | .out slot inner, n, rng => (mutateNth inner n rng).map (.out slot) id
  | .struct fields, n, rng => (mutateNthAll fields n rng).map .struct id
  | .array fields, n, rng => (mutateNthAll fields n rng).map .array id
  | a, n, rng => (a, ⟨false, n, rng⟩)

/-- The loop over fields or arguments: it stops at the tree that has the leaf. -/
def mutateNthAll : List Arg → Nat → Rng → List Arg × Descent
  | [], n, rng => ([], ⟨false, n, rng⟩)
  | f :: fs, n, rng =>
    let (f, st) := mutateNth f n rng
    if st.found then (f :: fs, st)
    else (mutateNthAll fs st.n st.rng).map (f :: ·) id

end

/-! ## One round -/

/-- The number of edits made, and the calls and the generator after them. -/
structure Edit where
  edits : Nat
  calls : List Call
  rng : Rng

/-- One edit after another; the edits are counted together. -/
def Edit.andThen (e : Edit) (f : List Call → Rng → Edit) : Edit :=
  ⟨e.edits + (f e.calls e.rng).edits, (f e.calls e.rng).calls, (f e.calls e.rng).rng⟩

@[simp] theorem Edit.andThen_calls (e : Edit) (f : List Call → Rng → Edit) :
    (e.andThen f).calls = (f e.calls e.rng).calls := rfl

/-- What `mutate` returns and leaves behind. -/
def Edit.result (e : Edit) : Nat × Prog × Rng := (e.edits, ⟨e.calls⟩, e.rng)

@[simp] theorem Edit.result_calls (e : Edit) : e.result.2.1.calls = e.calls := rfl

/-- "Drop a call." -/
def dropCall (calls : List Call) (rng : Rng) : Edit :=
  if 1 < calls.length then
    let (hit, rng) := rng.chance 10
    if hit then
      let (i, rng) := rng.below calls.length
      ⟨1, calls.eraseIdx i, rng⟩
    else ⟨0, calls, rng⟩
  else ⟨0, calls, rng⟩

/-- "Duplicate a call." -/
def duplicateCall (calls : List Call) (rng : Rng) : Edit :=
  if calls.length < 512 then
    let (hit, rng) := rng.chance 10
    if hit then
      let (i, rng) := rng.below calls.length
      match calls[i]? with
      | some c => ⟨1, calls.insertIdx i c, rng⟩
      | none => ⟨0, calls, rng⟩
    else ⟨0, calls, rng⟩
  else ⟨0, calls, rng⟩

/-- One turn of the loop over leaves. -/
def mutateLeaf (calls : List Call) (rng : Rng) : Edit :=
  let (ci, rng) := rng.below calls.length
  match calls[ci]? with
  | none => ⟨0, calls, rng⟩
  | some c =>
    let total := countLeavesAll c.args
    if total = 0 then ⟨0, calls, rng⟩
    else
      let (n, rng) := rng.below total
      let (args, st) := mutateNthAll c.args n rng
      ⟨if st.found then 1 else 0, calls.set ci { c with args := args }, st.rng⟩

/-- `rounds` turns of it. -/
def mutateLeaves : Nat → List Call → Rng → Edit
  | 0, calls, rng => ⟨0, calls, rng⟩
  | rounds + 1, calls, rng => (mutateLeaf calls rng).andThen (mutateLeaves rounds)

/-- "Mutate one to three argument leaves." -/
def mutateArgs (calls : List Call) (rng : Rng) : Edit :=
  let (k, rng) := rng.below 3
  mutateLeaves (1 + k) calls rng

/-- `mutate`: the number of edits, and the program and the generator after them. -/
def mutate (prog : Prog) (rng : Rng) : Nat × Prog × Rng :=
  if prog.calls.isEmpty then (0, prog, rng)
  else (((dropCall prog.calls rng).andThen duplicateCall).andThen mutateArgs).result

/-- `n` rounds, one after the other. -/
def mutateRounds : Nat → Prog → Rng → Prog × Rng
  | 0, prog, rng => (prog, rng)
  | n + 1, prog, rng => mutateRounds n (mutate prog rng).2.1 (mutate prog rng).2.2

end Vock.Fuzz
