import Vock.Word

/-!
# Programs

The decoded program of `vock/src/fuzz/prog_decode.rs`: calls with argument trees. A `usize` that is
a resource slot is a `u64`; texts are their bytes.
-/

namespace Vock.Fuzz

/-- `Arg`. -/
inductive Arg where
  | int (v : U64)
  | res (idx : U64) (div add : U64)
  | ptr (addr : U64) (inner : Option Arg)
  | data (bytes : List U8)
  | struct (fields : List Arg)
  | array (fields : List Arg)
  | union (inner : Arg)
  | csum
  | out (slot : U64) (inner : Arg)
  | nil
  deriving Repr

/-- `Call`. -/
structure Call where
  name : List U8
  base : List U8
  nr : Option Int
  args : List Arg
  res : Option U64
  failNth : Option (BitVec 32)
  isAsync : Bool
  deriving Repr

/-- `Prog`. -/
structure Prog where
  calls : List Call
  deriving Repr

/-- Induction over argument trees: the fields of a struct or an array are taken together. -/
@[elab_as_elim, induction_eliminator]
theorem Arg.inductTree {P : Arg → Prop}
    (int : ∀ v, P (.int v)) (res : ∀ idx div add, P (.res idx div add))
    (ptrNone : ∀ addr, P (.ptr addr none))
    (ptrSome : ∀ addr inner, P inner → P (.ptr addr (some inner)))
    (data : ∀ bytes, P (.data bytes))
    (struct : ∀ fields, (∀ f ∈ fields, P f) → P (.struct fields))
    (array : ∀ fields, (∀ f ∈ fields, P f) → P (.array fields))
    (union : ∀ inner, P inner → P (.union inner)) (csum : P .csum)
    (out : ∀ slot inner, P inner → P (.out slot inner)) (nil : P .nil) : ∀ a, P a := by
  refine @Arg.rec P (fun o => ∀ i ∈ o, P i) (fun fs => ∀ f ∈ fs, P f) int res ?_ data struct array union
    csum out nil nofun ?_ nofun ?_
  · intro addr inner ih
    cases inner with
    | none => exact ptrNone addr
    | some i => exact ptrSome addr i (ih i rfl)
  · rintro i ih j ⟨⟩
    exact ih
  · intro f fs ihf ihfs g hg
    rcases List.mem_cons.mp hg with rfl | hg
    · exact ihf
    · exact ihfs g hg

namespace Arg

/-! ## The nodes of a tree -/

mutual

/-- The tree and its subtrees, each before its own. -/
def nodes : Arg → List Arg
  | .ptr addr (some inner) => .ptr addr (some inner) :: nodes inner
  | .struct fields => .struct fields :: nodesAll fields
  | .array fields => .array fields :: nodesAll fields
  | .union inner => .union inner :: nodes inner
  | .out slot inner => .out slot inner :: nodes inner
  | a => [a]

def nodesAll : List Arg → List Arg
  | [] => []
  | f :: fs => nodes f ++ nodesAll fs

end

@[simp] theorem nodesAll_eq (fs : List Arg) : nodesAll fs = fs.flatMap nodes := by
  induction fs with
  | nil => rfl
  | cons f fs ih => rw [nodesAll, ih, List.flatMap_cons]

/-- The slot of a reference. -/
def ref? : Arg → Option U64
  | .res idx _ _ => some idx
  | _ => none

/-- The slot of a produced field. -/
def slot? : Arg → Option U64
  | .out slot _ => some slot
  | _ => none

/-- The size of a buffer. -/
def size? : Arg → Option Nat
  | .data bytes => some bytes.length
  | _ => none

end Arg

/-- The nodes of a call's arguments. -/
def Call.nodes (c : Call) : List Arg := c.args.flatMap Arg.nodes

/-- The slots a call refers to. -/
def Call.refs (c : Call) : List U64 := c.nodes.filterMap Arg.ref?

/-- The slots a call fills: that of its return value and those of its `<rN=>` fields. -/
def Call.slots (c : Call) : List U64 := c.res.toList ++ c.nodes.filterMap Arg.slot?

end Vock.Fuzz
