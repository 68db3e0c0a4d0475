import Vock.Laws.Fuzz.Encode

/-!
# Fields in place

The image of a value is the images of its fields one after the other, where a field is what is left of structs, arrays
and unions (`encode_eq_flatMap`); so every field has a place (`Arg.placed`). `collect_copyouts` and `csum_offset`, which
count the places themselves, agree with it (`layout_agrees`).
-/

namespace Vock.Fuzz

open List

variable {a f : Arg} {e : Nat} {inner : Arg}

/-! ## Places -/

mutual

/-- The fields of a value. -/
def Arg.leaves : Arg → List Arg
  | .struct fields => Arg.leavesAll fields
  | .array fields => Arg.leavesAll fields
  | .union inner => inner.leaves
  | a => [a]

def Arg.leavesAll : List Arg → List Arg
  | [] => []
  | f :: fs => f.leaves ++ Arg.leavesAll fs

end

/-- The fields with their places, the first of them at `d`. -/
def placedFrom (ctx : Ctx) (w : Nat) : Nat → List Arg → List (Arg × Nat)
  | _, [] => []
  | d, f :: fs => (f, d) :: placedFrom ctx w (d + (encode ctx f w).length) fs

/-- The fields of a value with their places in its image. -/
def Arg.placed (ctx : Ctx) (w : Nat) (a : Arg) : List (Arg × Nat) := placedFrom ctx w 0 a.leaves

section

variable {ctx : Ctx} {w : Nat} {fs : List Arg}

mutual

/-- The image is the images of the fields. -/
theorem encode_eq_flatMap : ∀ a : Arg, encode ctx a w = a.leaves.flatMap (encode ctx · w)
  | .struct fs | .array fs => by rw [encode, encodeAll_eq_flatMap fs, Arg.leaves]
  | .union inner => by rw [encode_union, encode_eq_flatMap inner, Arg.leaves]
  | .int _ | .res .. | .ptr .. | .data _ | .csum | .out .. | .nil => by
    simp only [Arg.leaves, flatMap_cons, flatMap_nil, append_nil]

theorem encodeAll_eq_flatMap : ∀ fs : List Arg, encodeAll ctx fs w = (Arg.leavesAll fs).flatMap (encode ctx · w)
  | [] => rfl
  | f :: fs => by rw [encodeAll, encode_eq_flatMap f, encodeAll_eq_flatMap fs, Arg.leavesAll, flatMap_append]

end

theorem placedFrom_append (d : Nat) (fs gs : List Arg) :
    placedFrom ctx w d (fs ++ gs) =
      placedFrom ctx w d fs ++ placedFrom ctx w (d + (fs.flatMap (encode ctx · w)).length) gs := by
  induction fs generalizing d with
  | nil => rfl
  | cons f fs ih =>
    rw [cons_append, placedFrom, ih, placedFrom, cons_append, flatMap_cons, length_append,
      Nat.add_assoc]

/-- The place of a field is behind the images of those in front of it. -/
theorem mem_placedFrom {d : Nat} (h : (f, e) ∈ placedFrom ctx w d fs) :
    ∃ before behind, fs = before ++ f :: behind ∧ e = d + (before.flatMap (encode ctx · w)).length := by
  induction fs generalizing d with
  | nil => cases h
  | cons g fs ih =>
    rcases mem_cons.mp h with heq | h
    · cases heq
      exact ⟨[], fs, rfl, rfl⟩
    · obtain ⟨before, behind, rfl, rfl⟩ := ih h
      refine ⟨g :: before, behind, rfl, ?_⟩
      rw [flatMap_cons, length_append, Nat.add_assoc]

theorem mem_placed (h : (f, e) ∈ a.placed ctx w) :
    ∃ before behind, a.leaves = before ++ f :: behind ∧ e = (before.flatMap (encode ctx · w)).length := by
  obtain ⟨before, behind, hleaves, he⟩ := mem_placedFrom h
  exact ⟨before, behind, hleaves, by rw [he, Nat.zero_add]⟩

/-- At its place the image has the own bytes of the field. -/
theorem bytes_of_mem_placed (h : (f, e) ∈ a.placed ctx w) :
    ((encode ctx a w).drop e).take (encode ctx f w).length = encode ctx f w := by
  obtain ⟨before, behind, hleaves, rfl⟩ := mem_placed h
  rw [encode_eq_flatMap a, hleaves, flatMap_append, drop_left, flatMap_cons, take_left]

end

/-! ## Recorded fields -/

/-- What a `<rN=>` field wraps: an integer, a resource, nothing or a pointer. -/
def Arg.isPlain : Arg → Bool
  | .int _ | .res _ _ _ | .nil | .ptr _ _ => true
  | _ => false

/-- Every `<rN=>` field of the tree wraps a plain value. -/
def Arg.PlainOuts (a : Arg) : Prop := ∀ slot inner, .out slot inner ∈ a.nodes → inner.isPlain = true

/-- The record of a field, if it is a `<rN=>`. -/
def copyoutOf (base : U64) : Arg × Nat → Option Copyout
  | (.out slot _, d) => some ⟨slot, base + BitVec.ofNat 64 d, resWidth⟩
  | _ => none

def Arg.isCsum : Arg → Bool
  | .csum => true
  | _ => false

theorem collectCopyouts_of_isPlain (h : inner.isPlain = true) (w : Nat) (base : U64) :
    collectCopyouts w inner base = [] := by
  cases inner <;> simp_all [Arg.isPlain, collectCopyouts]

theorem csumOffset_of_isPlain (h : inner.isPlain = true) (w d : Nat) : csumOffset w inner d = none := by
  cases inner <;> simp_all [Arg.isPlain, csumOffset]

mutual

/-- The trees of the fields are parts of the tree. -/
theorem flatMap_nodes_leaves_sublist : ∀ a : Arg, (a.leaves.flatMap Arg.nodes).Sublist a.nodes
  | .struct fs | .array fs => (flatMap_nodes_leavesAll_sublist fs).cons _
  | .union inner => (flatMap_nodes_leaves_sublist inner).cons _
  | .int _ | .res .. | .ptr .. | .data _ | .csum | .out .. | .nil => by rw [Arg.leaves] <;> simp

theorem flatMap_nodes_leavesAll_sublist : ∀ fs : List Arg, ((Arg.leavesAll fs).flatMap Arg.nodes).Sublist (Arg.nodesAll fs)
  | [] => Sublist.refl _
  | f :: fs => by
    rw [Arg.leavesAll, flatMap_append]
    exact (flatMap_nodes_leaves_sublist f).append (flatMap_nodes_leavesAll_sublist fs)

end

theorem Arg.mem_nodes_self (a : Arg) : a ∈ a.nodes := by
  cases a with
  | ptr addr inner => cases inner <;> exact mem_cons_self
  | _ => exact mem_cons_self

theorem mem_nodes_of_mem_leaves (h : f ∈ a.leaves) : f ∈ a.nodes :=
  (flatMap_nodes_leaves_sublist a).subset (mem_flatMap.mpr ⟨f, h, f.mem_nodes_self⟩)

section

variable (ctx : Ctx) {w : Nat}

mutual

/-- What is recorded are the `<rN=>` fields at their places, where none is inside another. -/
theorem collectCopyouts_eq_placed (base : U64) : ∀ a : Arg,
    (∀ slot inner, .out slot inner ∈ a.leaves → ∀ b, collectCopyouts w inner b = []) → ∀ d,
      collectCopyouts w a (base + BitVec.ofNat 64 d) = (placedFrom ctx w d a.leaves).filterMap (copyoutOf base)
  | .struct fs, houts, d | .array fs, houts, d => collectCopyoutsAll_eq_placed base fs houts d
  | .union inner, houts, d => collectCopyouts_eq_placed base inner houts d
  | .out slot inner, houts, d => by
    rw [collectCopyouts, houts slot inner mem_cons_self]
    rfl
  | .int _, _, _ | .res .., _, _ | .ptr .., _, _ | .data _, _, _ | .csum, _, _ | .nil, _, _ => rfl

theorem collectCopyoutsAll_eq_placed (base : U64) : ∀ fs : List Arg,
    (∀ slot inner, .out slot inner ∈ Arg.leavesAll fs → ∀ b, collectCopyouts w inner b = []) → ∀ d,
      collectCopyoutsAll w fs (base + BitVec.ofNat 64 d) =
        (placedFrom ctx w d (Arg.leavesAll fs)).filterMap (copyoutOf base)
  | [], _, _ => rfl
  | f :: fs, houts, d => by
    have hf := collectCopyouts_eq_placed base f (fun slot inner h => houts slot inner (mem_append_left _ h)) d
    have hfs := collectCopyoutsAll_eq_placed base fs (fun slot inner h => houts slot inner (mem_append_right _ h))
      (d + encodedLen f w)
    rw [BitVec.ofNat_add, ← BitVec.add_assoc] at hfs
    rw [collectCopyoutsAll, hf, hfs, Arg.leavesAll, placedFrom_append, filterMap_append, ← encode_eq_flatMap,
      length_encode]

end

mutual

/-- The place of the checksum is that of the first field that is one, where none is inside a `<rN=>`. -/
theorem csumOffset_eq_placed : ∀ a : Arg,
    (∀ slot inner, .out slot inner ∈ a.leaves → ∀ d, csumOffset w inner d = none) → ∀ d,
      csumOffset w a d = ((placedFrom ctx w d a.leaves).find? (·.1.isCsum)).map Prod.snd
  | .struct fs, houts, d | .array fs, houts, d => csumOffsetAll_eq_placed fs houts d
  | .union inner, houts, d => csumOffset_eq_placed inner houts d
  | .out slot inner, houts, d => by
    rw [csumOffset, houts slot inner mem_cons_self]
    rfl
  | .int _, _, _ | .res .., _, _ | .ptr .., _, _ | .data _, _, _ | .csum, _, _ | .nil, _, _ => rfl

theorem csumOffsetAll_eq_placed : ∀ fs : List Arg,
    (∀ slot inner, .out slot inner ∈ Arg.leavesAll fs → ∀ d, csumOffset w inner d = none) → ∀ d,
      csumOffsetAll w fs d = ((placedFrom ctx w d (Arg.leavesAll fs)).find? (·.1.isCsum)).map Prod.snd
  | [], _, _ => rfl
  | f :: fs, houts, d => by
    have hf := csumOffset_eq_placed f (fun slot inner h => houts slot inner (mem_append_left _ h)) d
    have hfs := csumOffsetAll_eq_placed fs (fun slot inner h => houts slot inner (mem_append_right _ h))
      (d + encodedLen f w)
    rw [csumOffsetAll, hf, hfs, Arg.leavesAll, placedFrom_append, find?_append, ← encode_eq_flatMap, length_encode]
    cases (placedFrom ctx w d f.leaves).find? (·.1.isCsum) with
    | none | some p => rfl

end

end

/-- The helpers of the layout agree with the encoder: the length of the image, the own bytes of every field at its
place, and the places of the `<rN=>` fields and of the checksum. -/
theorem layout_agrees (ctx : Ctx) (w : Nat) (a : Arg) :
    encodedLen a w = (encode ctx a w).length ∧
      (∀ f d, (f, d) ∈ a.placed ctx w → ((encode ctx a w).drop d).take (encode ctx f w).length = encode ctx f w) ∧
      (a.PlainOuts → ∀ base : U64, collectCopyouts w a base = (a.placed ctx w).filterMap (copyoutOf base)) ∧
      (a.PlainOuts → csumOffset w a 0 = ((a.placed ctx w).find? (·.1.isCsum)).map Prod.snd) := by
  refine ⟨(length_encode ctx a w).symm, fun f d => bytes_of_mem_placed, ?_, ?_⟩
  · intro hplain base
    have hplaced := collectCopyouts_eq_placed ctx base a
      (fun slot inner h b => collectCopyouts_of_isPlain (hplain slot inner (mem_nodes_of_mem_leaves h)) w b) 0
    rwa [BitVec.add_zero] at hplaced
  · intro hplain
    exact csumOffset_eq_placed ctx a
      (fun slot inner h d => csumOffset_of_isPlain (hplain slot inner (mem_nodes_of_mem_leaves h)) w d) 0

/-- A struct with an integer, a `<r3=>` field and a checksum. -/
def mixedFields : Arg := .struct [.int 1#64, .union (.out 3#64 (.int 0#64)), .array [.data [7#8, 7#8], .csum]]

theorem mixedFields_plainOuts : mixedFields.PlainOuts := by
  intro slot inner h
  simp only [mixedFields, Arg.nodes, Arg.nodesAll, mem_cons, mem_append, not_mem_nil, reduceCtorEq,
    Arg.out.injEq, false_or, or_false] at h
  rw [h.2]
  rfl

/-- Behind the eight bytes of the integer is the `<r3=>` field, and behind its four and two more the checksum. -/
theorem layout_agrees_mixed :
    collectCopyouts 8 mixedFields 100#64 = [⟨3#64, 108#64, 4⟩] ∧ csumOffset 8 mixedFields 0 = some 14 := by
  obtain ⟨-, -, hcopyouts, hcsum⟩ := layout_agrees Ctx.new 8 mixedFields
  exact ⟨(hcopyouts mixedFields_plainOuts 100#64).trans (by decide), (hcsum mixedFields_plainOuts).trans (by decide)⟩

end Vock.Fuzz
