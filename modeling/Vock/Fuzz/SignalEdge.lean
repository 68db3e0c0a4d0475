import Vock.Library.Bitmap
import Vock.Library.Family
import Vock.Word

/-!
# The signal corpus

`SignalCorpus` of `vock/src/fuzz/signal_edge.rs`. A vector of the size of the map is a function that is read and
written below that size only; an index behind it, and a reference count below 0, stop the program (`none`).
-/

namespace Vock.Fuzz.SignalEdge

open Library

/-- `SIGNAL_MAP_SIZE`. -/
def signalMapSize : Nat := 2 ^ 16

/-- `v[e]`. -/
def bucket {α : Type} (v : Nat → α) (e : Nat) : Option α := if e < signalMapSize then some (v e) else none

/-! ## Edges -/

/-- `edge_hash`. -/
def edgeHash (pc prev : U64) : Nat :=
  let h := pc ^^^ prev
  let h := h ^^^ (h >>> 33)
  let h := h * 0xff51afd7ed558ccd#64
  let h := h ^^^ (h >>> 33)
  let h := h * 0xc4ceb9fe1a85ec53#64
  let h := h ^^^ (h >>> 33)
  (h &&& 0xffff#64).toNat

/-- The loop of `edge_signal_from_pcs`; a bit of `seen` is set for each of the edges so far. -/
def newEdges (seen : Bitmap (signalMapSize / 64 + 1)) (prev : U64) : List U64 → List Nat
  | [] => []
  | pc :: pcs =>
    if seen.test (edgeHash pc prev) then newEdges seen pc pcs
    else edgeHash pc prev :: newEdges (seen.mark (edgeHash pc prev)) pc pcs

/-- `edge_signal_from_pcs`. -/
def edgeSignalFromPcs (pcs : List U64) : List Nat := (newEdges (.empty _) 0#64 pcs).mergeSort fun a b => a ≤ b

/-! ## The corpus -/

/-- `EdgeSignal`. -/
structure EdgeSignal where
  map : Nat → U8
  totalEdges : Nat

/-- `SignalCorpusEntry`, with the edges of its `ProgSignal`. -/
structure SignalCorpusEntry where
  progId : Int
  edges : List Nat
  uniqueEdges : Nat
  deriving Repr, DecidableEq

/-- `SignalCorpus`. -/
structure SignalCorpus where
  entries : List SignalCorpusEntry
  maxSignal : EdgeSignal

/-- `SignalCorpus::new`. -/
def SignalCorpus.new : SignalCorpus := ⟨[], fun _ => 0#8, 0⟩

/-- `new_count`. -/
def SignalCorpus.newCount (c : SignalCorpus) (edges : List Nat) : Option Nat :=
  edges.foldlM (fun n e => (bucket c.maxSignal.map e).map fun v => if v = 0#8 then n + 1 else n) 0

/-- One more hit of an edge. -/
def EdgeSignal.hit (s : EdgeSignal) (e : Nat) : Option EdgeSignal :=
  (bucket s.map e).map fun v =>
    let v := if v < 255#8 then v + 1#8 else v
    ⟨Function.update s.map e v, if v = 1#8 then s.totalEdges + 1 else s.totalEdges⟩

/-- `add`. -/
def SignalCorpus.add (c : SignalCorpus) (progId : Int) (edges : List Nat) : Option (Bool × SignalCorpus) := do
  let newEdges ← c.newCount edges
  if newEdges = 0 then some (false, c)
  else
    let maxSignal ← edges.foldlM EdgeSignal.hit c.maxSignal
    some (true, ⟨c.entries ++ [⟨progId, edges, newEdges⟩], maxSignal⟩)

/-! ## Minimizing -/

/-- `edge_refcount`. -/
abbrev Counts := Nat → BitVec 16

/-- One more reference to an edge. -/
def Counts.refer (r : Counts) (e : Nat) : Option Counts :=
  (bucket r e).map fun n => if n < 0xffff#16 then Function.update r e (n + 1#16) else r

/-- One reference to an edge less. -/
def Counts.release (r : Counts) (e : Nat) : Option Counts :=
  (bucket r e).bind fun n => if n = 0#16 then none else some (Function.update r e (n - 1#16))

/-- The references of all entries. -/
def countAll (entries : List SignalCorpusEntry) : Option Counts :=
  entries.foldlM (fun r x => x.edges.foldlM Counts.refer r) fun _ => 0#16

/-- The loop of `minimize`, with the number of entries removed so far. Each round moves on or removes an entry. -/
def sweep : Nat → Nat → List SignalCorpusEntry → Counts → Nat → Option (List SignalCorpusEntry × Counts × Nat)
  | 0, _, entries, r, removed => some (entries, r, removed)
  | fuel + 1, i, entries, r, removed =>
    match entries[i]? with
    | none => some (entries, r, removed)
    | some x => do
      let hasUnique ← x.edges.anyM fun e => (bucket r e).map fun n => decide (n = 1#16)
      if hasUnique then sweep fuel (i + 1) entries r removed
      else
        let r ← x.edges.foldlM Counts.release r
        sweep fuel i (swapRemove entries i) r (removed + 1)

/-- An entry with the number of its edges that are referred to once. -/
def countUnique (r : Counts) (x : SignalCorpusEntry) : Option SignalCorpusEntry :=
  (x.edges.foldlM (fun n e => (bucket r e).map fun k => if k = 1#16 then n + 1 else n) 0).map fun n =>
    { x with uniqueEdges := n }

/-- `minimize`. -/
def SignalCorpus.minimize (c : SignalCorpus) : Option (Nat × SignalCorpus) :=
  if c.entries.length ≤ 1 then some (0, c)
  else do
    let r ← countAll c.entries
    let (entries, r, removed) ← sweep (c.entries.length + 1) 0 c.entries r 0
    let entries ← entries.mapM (countUnique r)
    some (removed, ⟨entries, c.maxSignal⟩)

end Vock.Fuzz.SignalEdge
