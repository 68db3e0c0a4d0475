import Vock.Fuzz.ProgText

/-!
# Coverage sets

`Covset` of `vock/src/fuzz/covset.rs`. A file that cannot be read is `none`.
-/

namespace Vock.Fuzz

/-- `Covset`. -/
structure Covset where
  pcs : List U64
  cap : Nat

namespace Covset

def new (cap : Nat) : Covset := ⟨[], cap⟩

def add (c : Covset) (pc : U64) : Covset := if c.pcs.length < c.cap then { c with pcs := c.pcs ++ [pc] } else c

/-- `sort_dedup`. -/
def sortDedup (c : Covset) : Covset :=
  if c.pcs.length ≤ 1 then c else { c with pcs := (c.pcs.mergeSort fun a b => a ≤ b).destutter (· ≠ ·) }

/-- The loop of `intersect` and `novel` on what is left of the two lists: `both` is added for a PC of both of them and
`first` for one of the first only. What is left of the first list comes with the count. -/
def mergeLoop (both first : BitVec 32) (n : BitVec 32) : List U64 → List U64 → BitVec 32 × List U64
  | a :: as, b :: bs =>
    if a = b then mergeLoop both first (n + both) as bs
    else if a < b then mergeLoop both first (n + first) as (b :: bs)
    else mergeLoop both first n (a :: as) bs
  | as, _ => (n, as)
termination_by as bs => as.length + bs.length

/-- `intersect`; an `i32` is the word of its bits. -/
def intersect (c other : Covset) : BitVec 32 := (mergeLoop 1#32 0#32 0#32 c.pcs other.pcs).1

/-- `novel`. -/
def novel (c other : Covset) : BitVec 32 :=
  let (n, rest) := mergeLoop 0#32 1#32 0#32 c.pcs other.pcs
  n + BitVec.ofNat 32 rest.length

/-- The PC of a line, where it is one and not 0. -/
def linePc (line : List U8) : Option U64 :=
  let s := trim line
  let hex := ((s.dropPrefix? (ascii ['0', 'x'])).or (s.dropPrefix? (ascii ['0', 'X']))).getD s
  (fromStrRadix 16 hex).filter (· ≠ 0#64)

/-- `load_file`. -/
def loadFile (c : Covset) (data : Option (List U8)) : Bool × Covset :=
  match data with
  | none => (false, c)
  | some data => (true, ((lines data).foldl (fun c line => (linePc line).elim c c.add) c).sortDedup)

end Covset

end Vock.Fuzz
