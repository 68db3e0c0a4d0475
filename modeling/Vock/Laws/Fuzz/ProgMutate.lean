import Vock.Fuzz.ProgMutate
import Mathlib.Data.List.InsertIdx
import Mathlib.Order.Nat

/-!
# What mutation keeps

A round of `mutate` drops a call, doubles a call and edits leaves. A tree with its leaf values blanked
(`Arg.blank`) is what an edit leaves alone, so every call of a mutated program is some call of the
first one up to leaf values, over any number of rounds (`mutateRounds_stable`). The references and the
produced slots of a call are those of its blanked form: edits keep the wiring of a program, doubling
keeps it too, and dropping a call keeps it exactly when no later call needs the dropped one
(`mutate_wired_iff`).

Not established: how often a round drops a call that is needed.
-/

namespace Vock.Fuzz

open List

variable {bound i : Nat} {calls : List Call} {c : Call} {prog : Prog} {fs : List Arg}

/-! ## Trees up to leaf values -/

namespace Arg

mutual

/-- The tree with the values of its `Int` and `Data` leaves blanked. -/
def blank : Arg → Arg
  | .int _ => .int 0#64
  | .data _ => .data []
  | .ptr addr (some inner) => .ptr addr (some (blank inner))
  | .struct fields => .struct (blankAll fields)
  | .array fields => .array (blankAll fields)
  | .union inner => .union (blank inner)
  | .out slot inner => .out slot (blank inner)
  | a => a

def blankAll : List Arg → List Arg
  | [] => []
  | f :: fs => blank f :: blankAll fs

end

@[simp] theorem blankAll_eq (fs : List Arg) : blankAll fs = fs.map blank := by
  induction fs with
  | nil => rfl
  | cons f fs ih => rw [blankAll, ih, map_cons]

private theorem flatMap_nodes_blank
    (h : ∀ f ∈ fs, (blank f).nodes = f.nodes.map blank) :
    (fs.map blank).flatMap nodes = (fs.flatMap nodes).map blank := by
  rw [flatMap_map, map_flatMap]
  exact flatMap_congr h

/-- Blanking goes node by node. -/
theorem nodes_blank (a : Arg) : (blank a).nodes = a.nodes.map blank := by
  induction a with
  | struct fs ih | array fs ih =>
    simp [blank, nodes, flatMap_nodes_blank ih]
  | ptrSome addr inner ih | union inner ih | out slot inner ih => simp [blank, nodes, ih]
  | int | data | res | ptrNone | csum | nil => rfl

@[simp] theorem ref?_blank (a : Arg) : (blank a).ref? = a.ref? := by
  induction a <;> rfl

@[simp] theorem slot?_blank (a : Arg) : (blank a).slot? = a.slot? := by
  induction a <;> rfl

end Arg

/-- The call with the values of its leaves blanked. -/
def Call.blank (c : Call) : Call := { c with args := c.args.map Arg.blank }

/-- The sizes of a call's buffers. -/
def Call.sizes (c : Call) : List Nat := c.nodes.filterMap Arg.size?

theorem Call.nodes_blank (c : Call) : c.blank.nodes = c.nodes.map Arg.blank := by
  simp [Call.nodes, Call.blank, flatMap_map, map_flatMap, Arg.nodes_blank]

@[simp] theorem Call.refs_blank (c : Call) : c.blank.refs = c.refs := by
  simp [Call.refs, Call.nodes_blank]

@[simp] theorem Call.slots_blank (c : Call) : c.blank.slots = c.slots := by
  simp only [Call.slots, Call.nodes_blank, filterMap_map, Function.comp_def, Arg.slot?_blank]
  rfl

/-! ## Edits of leaves -/

theorem mutateData_length (d : List U8) (rng : Rng) :
    (mutateData d rng).1.length ≤ max maxData d.length := by
  unfold mutateData
  split
  next he =>
    simp only [length_append, length_singleton, isEmpty_iff.mp he, length_nil, maxData]
    decide
  next =>
    dsimp only
    split
    next => simp only [length_modify]; exact Nat.le_max_right ..
    next =>
      split
      next => simp only [length_set]; exact Nat.le_max_right ..
      next =>
        split
        next h => simp only [length_append, length_singleton]; omega
        next => split <;> simp only [length_take] <;> omega

/-- What an edit of leaves keeps of a list of trees: the blanked trees, and a bound on the buffers. -/
structure Edited (bound : Nat) (as as' : List Arg) : Prop where
  blank : as'.map Arg.blank = as.map Arg.blank
  bounded : (∀ s ∈ (as.flatMap Arg.nodes).filterMap Arg.size?, s ≤ bound) →
    ∀ s ∈ (as'.flatMap Arg.nodes).filterMap Arg.size?, s ≤ bound

namespace Edited

variable {bound : Nat} {as as' : List Arg} {a a' : Arg}

theorem refl (bound : Nat) (as : List Arg) : Edited bound as as := ⟨rfl, fun h => h⟩

theorem cons (h : Edited bound [a] [a']) (hs : Edited bound as as') : Edited bound (a :: as) (a' :: as') := by
  obtain ⟨hb, hn⟩ := h
  obtain ⟨hbs, hns⟩ := hs
  simp only [map_cons, cons.injEq, and_true] at hb
  simp only [flatMap_cons, flatMap_nil, append_nil] at hn
  refine ⟨by rw [map_cons, map_cons, hb, hbs], fun hall => ?_⟩
  simp only [flatMap_cons, filterMap_append, mem_append] at hall ⊢
  rintro s (hs | hs)
  · exact hn (fun s hs => hall s (.inl hs)) s hs
  · exact hns (fun s hs => hall s (.inr hs)) s hs

/-- A node that is no buffer passes on what its subtrees keep. -/
theorem wrap (h : Edited bound as as') (hb : a'.blank = a.blank)
    (hn : a.nodes = a :: as.flatMap Arg.nodes) (hn' : a'.nodes = a' :: as'.flatMap Arg.nodes)
    (hs : a.size? = none) (hs' : a'.size? = none) : Edited bound [a] [a'] := by
  refine ⟨by rw [map_singleton, map_singleton, hb], ?_⟩
  simpa only [flatMap_cons, flatMap_nil, append_nil, hn, hn', filterMap_cons, hs, hs']
    using h.bounded

/-- The same for a node with one subtree. -/
theorem node (h : Edited bound [a] [a']) (f : Arg → Arg) (hb : ∀ i, (f i).blank = f i.blank)
    (hn : ∀ i, (f i).nodes = f i :: i.nodes) (hs : ∀ i, (f i).size? = none) :
    Edited bound [f a] [f a'] := by
  refine h.wrap ?_ ?_ ?_ (hs a) (hs a')
  · rw [hb, hb, singleton_inj.mp h.blank]
  · rw [hn, flatMap_singleton]
  · rw [hn, flatMap_singleton]

theorem data {d d' : List U8} (h : d'.length ≤ max bound d.length) : Edited bound [.data d] [.data d'] := by
  refine ⟨rfl, fun hall s hs => ?_⟩
  obtain rfl : s = d'.length := mem_singleton.mp hs
  have := hall d.length (mem_singleton.mpr rfl)
  omega

end Edited

mutual

/-- An edit changes leaf values only, and a buffer grows past no bound above the source's own. -/
theorem mutateNth_edited (hbound : maxData ≤ bound) : ∀ (a : Arg) (n : Nat) (rng : Rng),
    Edited bound [a] [(mutateNth a n rng).1]
  | .int v, n, rng => by
    unfold mutateNth
    split
    · exact (Edited.refl bound []).wrap (by simp [Arg.blank]) rfl rfl rfl rfl
    · exact .refl bound _
  | .data d, n, rng => by
    unfold mutateNth
    split
    · have := mutateData_length d rng
      exact .data (by omega)
    · exact .refl bound _
  | .ptr addr (some inner), n, rng =>
    (mutateNth_edited hbound inner n rng).node (.ptr addr ∘ some) (fun _ => rfl) (fun _ => rfl) (fun _ => rfl)
  | .union inner, n, rng => (mutateNth_edited hbound inner n rng).node .union (fun _ => rfl) (fun _ => rfl) (fun _ => rfl)
  | .out slot inner, n, rng =>
    (mutateNth_edited hbound inner n rng).node (.out slot) (fun _ => rfl) (fun _ => rfl) (fun _ => rfl)
  | .struct fs, n, rng | .array fs, n, rng => by
    have h := mutateNthAll_edited hbound fs n rng
    unfold mutateNth
    refine h.wrap ?_ ?_ ?_ rfl rfl
    · simp [Arg.blank, h.blank]
    · simp [Arg.nodes]
    · simp [Arg.nodes]
  | .res .., _, _ | .ptr _ none, _, _ | .csum, _, _ | .nil, _, _ => .refl bound _

theorem mutateNthAll_edited (hbound : maxData ≤ bound) : ∀ (fs : List Arg) (n : Nat) (rng : Rng),
    Edited bound fs (mutateNthAll fs n rng).1
  | [], _, _ => .refl bound []
  | f :: fs, n, rng => by
    have hf := mutateNth_edited hbound f n rng
    unfold mutateNthAll
    dsimp only
    split
    next => exact hf.cons (.refl bound fs)
    next => exact hf.cons (mutateNthAll_edited hbound fs _ _)

end

/-- The same of a list of calls. -/
structure EditedCalls (bound : Nat) (calls calls' : List Call) : Prop where
  blank : calls'.map Call.blank = calls.map Call.blank
  bounded : (∀ c ∈ calls, ∀ s ∈ c.sizes, s ≤ bound) → ∀ c ∈ calls', ∀ s ∈ c.sizes, s ≤ bound

namespace EditedCalls

variable {bound : Nat} {calls calls' calls'' : List Call}

theorem refl (bound : Nat) (calls : List Call) : EditedCalls bound calls calls := ⟨rfl, fun h => h⟩

theorem trans (h : EditedCalls bound calls calls') (h' : EditedCalls bound calls' calls'') :
    EditedCalls bound calls calls'' :=
  ⟨h'.blank.trans h.blank, fun hall => h'.bounded (h.bounded hall)⟩

theorem set {args : List Arg} (hc : calls[i]? = some c) (h : Edited bound c.args args) :
    EditedCalls bound calls (calls.set i { c with args := args }) := by
  obtain ⟨hi, rfl⟩ := List.getElem?_eq_some_iff.mp hc
  refine ⟨?_, fun hall c' hc' => ?_⟩
  · have hb : Call.blank { calls[i] with args := args } = calls[i].blank := by
      simp [Call.blank, h.blank]
    have hi' : i < (calls.map Call.blank).length := by simpa using hi
    rw [map_set, hb, ← getElem_map Call.blank (h := hi'), set_getElem_self]
  · rcases mem_or_eq_of_mem_set hc' with hc' | rfl
    · exact hall c' hc'
    · exact h.bounded (hall _ (getElem_mem hi))

end EditedCalls

theorem mutateLeaf_edited (hbound : maxData ≤ bound) (calls : List Call) (rng : Rng) :
    EditedCalls bound calls (mutateLeaf calls rng).calls := by
  unfold mutateLeaf
  dsimp only
  split
  next => exact .refl bound calls
  next c hc =>
    split
    next => exact .refl bound calls
    next => exact .set hc (mutateNthAll_edited hbound c.args _ _)

theorem mutateLeaves_edited (hbound : maxData ≤ bound) (rounds : Nat) (calls : List Call)
    (rng : Rng) : EditedCalls bound calls (mutateLeaves rounds calls rng).calls := by
  induction rounds generalizing calls rng with
  | zero => exact .refl bound calls
  | succ rounds ih => exact (mutateLeaf_edited hbound calls rng).trans (ih _ _)

theorem mutateArgs_edited (hbound : maxData ≤ bound) (calls : List Call) (rng : Rng) :
    EditedCalls bound calls (mutateArgs calls rng).calls := mutateLeaves_edited hbound _ calls _

/-! ## The leaf of a number -/

/-- An integer or a buffer. -/
def Arg.isValue : Arg → Bool
  | .int _ | .data _ => true
  | _ => false

/-- The leaves, from left to right. -/
def Arg.values (a : Arg) : List Arg := a.nodes.filter isValue

theorem filter_nodesAll (fs : List Arg) : (Arg.nodesAll fs).filter Arg.isValue = fs.flatMap Arg.values := by
  rw [Arg.nodesAll_eq, filter_flatMap]
  rfl

mutual

theorem countLeaves_eq : ∀ a : Arg, countLeaves a = a.values.length
  | .ptr _ (some inner) | .union inner | .out _ inner => countLeaves_eq inner
  | .struct fs | .array fs => (countLeavesAll_eq fs).trans (congrArg length (filter_nodesAll fs)).symm
  | .int _ | .data _ | .res .. | .ptr _ none | .csum | .nil => rfl

theorem countLeavesAll_eq : ∀ fs : List Arg, countLeavesAll fs = (fs.flatMap Arg.values).length
  | [] => rfl
  | f :: fs => by rw [countLeavesAll, countLeaves_eq f, countLeavesAll_eq fs, flatMap_cons, length_append]

end

section

variable {α β : Type} {leaves : α → List Arg} {n : Nat} {rng : Rng}

/-- A descent to the leaf `n`: it changes no other one; if there is none it passes all leaves and changes nothing. -/
def Addresses (leaves : α → List Arg) (a : α) (n : Nat) (rng : Rng) (r : α × Descent) : Prop :=
  if n < (leaves a).length then r.2.found = true ∧ ∃ x, leaves r.1 = (leaves a).set n x
  else r = (a, ⟨false, n - (leaves a).length, rng⟩)

/-- A node around what has the leaves passes the descent on. -/
theorem Addresses.map {a : α} {r : α × Descent} (h : Addresses leaves a n rng r) {leaves' : β → List Arg} (g : α → β)
    (hg : ∀ a, leaves' (g a) = leaves a) : Addresses leaves' (g a) n rng (r.map g id) := by
  rw [Addresses] at h ⊢
  rw [hg]
  split at h
  next hn =>
    obtain ⟨hfound, x, hx⟩ := h
    rw [if_pos hn]
    exact ⟨hfound, x, (hg r.1).trans hx⟩
  next hn =>
    rw [if_neg hn, h]
    rfl

mutual

/-- `mutate_nth` counts the leaves that the tree has. -/
theorem addresses_mutateNth : ∀ (a : Arg) (n : Nat) (rng : Rng), Addresses Arg.values a n rng (mutateNth a n rng)
  | .int v, n, rng | .data d, n, rng => by
    rw [Addresses, mutateNth]
    cases n with
    | zero => exact ⟨rfl, _, rfl⟩
    | succ n => simp [Arg.values, Arg.nodes, filter_cons, Arg.isValue]
  | .ptr addr (some inner), n, rng => (addresses_mutateNth inner n rng).map (Arg.ptr addr ∘ some) fun _ => rfl
  | .union inner, n, rng => (addresses_mutateNth inner n rng).map Arg.union fun _ => rfl
  | .out slot inner, n, rng => (addresses_mutateNth inner n rng).map (Arg.out slot) fun _ => rfl
  | .struct fs, n, rng => (addresses_mutateNthAll fs n rng).map Arg.struct filter_nodesAll
  | .array fs, n, rng => (addresses_mutateNthAll fs n rng).map Arg.array filter_nodesAll
  | .res .., n, rng | .ptr _ none, n, rng | .csum, n, rng | .nil, n, rng => by
    simp [Addresses, Arg.values, Arg.nodes, Arg.isValue, mutateNth]

theorem addresses_mutateNthAll : ∀ (fs : List Arg) (n : Nat) (rng : Rng),
    Addresses (·.flatMap Arg.values) fs n rng (mutateNthAll fs n rng)
  | [], n, rng => by simp [Addresses, mutateNthAll]
  | f :: fs, n, rng => by
    have hf := addresses_mutateNth f n rng
    have hrest := addresses_mutateNthAll fs (n - f.values.length) rng
    simp only [Addresses] at hf hrest ⊢
    rw [flatMap_cons, length_append, mutateNthAll]
    generalize mutateNth f n rng = r at hf
    split at hf
    next hn =>
      obtain ⟨hfound, x, hx⟩ := hf
      rw [if_pos (by omega)]
      dsimp only
      rw [if_pos hfound]
      exact ⟨hfound, x, by rw [flatMap_cons, hx, set_append_left _ _ hn]⟩
    next hn =>
      rw [hf]
      dsimp only
      split at hrest
      next hlt =>
        obtain ⟨hfound, x, hx⟩ := hrest
        rw [if_pos (by omega)]
        refine ⟨hfound, x, ?_⟩
        rw [set_append_right _ _ (by omega), ← hx]
        rfl
      next hge =>
        rw [if_neg (by omega), hrest, ← Nat.sub_sub]
        rfl

end

end

/-- `mutate_nth` finds a leaf exactly if there are as many, and then changes at most that one; otherwise it takes off the
number of leaves. The leaf that `mutate` chooses is always there. -/
theorem mutateNth_nth (a : Arg) (n : Nat) (rng : Rng) :
    ((mutateNth a n rng).2.found = true ↔ n < countLeaves a) ∧
    (n < countLeaves a → (mutateNth a n rng).1.blank = a.blank ∧ ∃ x, (mutateNth a n rng).1.values = a.values.set n x) ∧
    (countLeaves a ≤ n → mutateNth a n rng = (a, ⟨false, n - countLeaves a, rng⟩)) ∧
    ∀ (calls : List Call) (c : Call), calls[(rng.below calls.length).1]? = some c → 0 < countLeavesAll c.args →
      (mutateLeaf calls rng).edits = 1 := by
  have hspec := addresses_mutateNth a n rng
  rw [Addresses, ← countLeaves_eq] at hspec
  refine ⟨?_, fun hn => ?_, fun hn => ?_, fun calls c hc hpos => ?_⟩
  · split at hspec
    next hn => exact iff_of_true hspec.1 hn
    next hn => exact iff_of_false (by rw [hspec]; exact Bool.false_ne_true) hn
  · rw [if_pos hn] at hspec
    exact ⟨singleton_inj.mp (mutateNth_edited (Nat.le_refl maxData) a n rng).blank, hspec.2⟩
  · rwa [if_neg (Nat.not_lt.mpr hn)] at hspec
  · have hlt : ∀ rng : Rng, (rng.below (countLeavesAll c.args)).1 < countLeavesAll c.args := by
      intro rng
      rw [Rng.below, if_neg (Nat.ne_of_gt hpos)]
      exact Nat.mod_lt _ hpos
    have hfound : ∀ n rng, n < countLeavesAll c.args → (mutateNthAll c.args n rng).2.found = true := by
      intro n rng hn
      have hall := addresses_mutateNthAll c.args n rng
      rw [Addresses, ← countLeavesAll_eq, if_pos hn] at hall
      exact hall.1
    rw [mutateLeaf]
    simp only [hc, Nat.ne_of_gt hpos, if_false, hfound _ _ (hlt _), if_true]

/-- The buffer behind a pointer is the leaf of number 1 of the three, a checksum is none. -/
theorem mutateNth_nth_ptr :
    let a : Arg := .struct [.int 7#64, .ptr 0#64 (some (.data [])), .csum, .union (.int 9#64)]
    (mutateNth a 1 ⟨1#64⟩).1.blank = a.blank ∧ (mutateNth a 2 ⟨1#64⟩).2.found = true ∧
      mutateNth a 5 ⟨1#64⟩ = (a, ⟨false, 2, ⟨1#64⟩⟩) :=
  ⟨((mutateNth_nth _ 1 _).2.1 (by decide)).1, (mutateNth_nth _ 2 _).1.mpr (by decide),
    (mutateNth_nth _ 5 _).2.2.1 (by decide)⟩

/-! ## What a round does -/

/-- The call that a generator state makes a round drop: one time in ten, where there are two or more. -/
def dropped (calls : List Call) (rng : Rng) : Option Nat :=
  if 1 < calls.length ∧ rng.next.1.toNat % 10 = 0 then some (rng.next.2.next.1.toNat % calls.length) else none

theorem dropped_lt {rng : Rng} (h : dropped calls rng = some i) : 1 < calls.length ∧ i < calls.length := by
  unfold dropped at h
  split at h
  next hc =>
    cases h
    exact ⟨hc.1, Nat.mod_lt _ (by omega)⟩
  next => cases h

theorem dropCall_calls (calls : List Call) (rng : Rng) :
    (dropCall calls rng).calls = (dropped calls rng).elim calls calls.eraseIdx := by
  unfold dropCall dropped Rng.chance Rng.below
  by_cases hlen : 1 < calls.length
  · have h0 : calls.length ≠ 0 := by omega
    by_cases hhit : rng.next.1.toNat % 10 = 0
    · simp [hlen, hhit, h0]
    · simp [hlen, hhit]
  · simp [hlen]

theorem duplicateCall_cases (calls : List Call) (rng : Rng) :
    (duplicateCall calls rng).calls = calls ∨
      ∃ i c, calls[i]? = some c ∧ calls.length < 512 ∧
        (duplicateCall calls rng).calls = calls.insertIdx i c := by
  unfold duplicateCall
  dsimp only
  split
  next hlen =>
    split
    next =>
      split
      next c hc => exact .inr ⟨_, c, hc, hlen, rfl⟩
      next => exact .inl rfl
    next => exact .inl rfl
  next => exact .inl rfl

/-- A round drops the call the generator says, then doubles a call or none, then edits leaves. -/
theorem mutate_cases (hbound : maxData ≤ bound) (hne : prog.calls ≠ [])
    (rng : Rng) :
    ∃ rest doubled, rest = (dropped prog.calls rng).elim prog.calls prog.calls.eraseIdx ∧
      (doubled = rest ∨ ∃ i c, rest[i]? = some c ∧ rest.length < 512 ∧ doubled = rest.insertIdx i c) ∧
      EditedCalls bound doubled (mutate prog rng).2.1.calls := by
  rw [mutate, if_neg (by simpa using hne), Edit.result_calls, Edit.andThen_calls, Edit.andThen_calls]
  exact ⟨_, _, dropCall_calls prog.calls rng, duplicateCall_cases _ (dropCall prog.calls rng).rng,
    mutateArgs_edited hbound _ _⟩

/-! ## Over any number of rounds -/

/-- The size of the largest buffer. -/
def longest (calls : List Call) : Nat := (calls.flatMap Call.sizes).foldr max 0

theorem le_longest {s : Nat} (hc : c ∈ calls) (hs : s ∈ c.sizes) : s ≤ longest calls := by
  have hmem : s ∈ calls.flatMap Call.sizes := mem_flatMap.mpr ⟨c, hc, hs⟩
  unfold longest
  generalize calls.flatMap Call.sizes = ts at hmem
  induction ts with
  | nil => cases hmem
  | cons t ts ih =>
    rcases mem_cons.mp hmem with rfl | hmem
    · exact Nat.le_max_left ..
    · exact (ih hmem).trans (Nat.le_max_right ..)

/-- How the calls of a mutated program stand to those of the first one. -/
structure Descends (origin calls : List Call) : Prop where
  nonempty : calls ≠ []
  count : calls.length ≤ max 512 origin.length
  variant : ∀ c ∈ calls, ∃ o ∈ origin, c.blank = o.blank
  bounded : ∀ c ∈ calls, ∀ s ∈ c.sizes, s ≤ max maxData (longest origin)

namespace Descends

variable {origin calls calls' : List Call}

theorem refl (h : origin ≠ []) : Descends origin origin where
  nonempty := h
  count := Nat.le_max_right ..
  variant c hc := ⟨c, hc, rfl⟩
  bounded _ hc _ hs := (le_longest hc hs).trans (Nat.le_max_right ..)

section

variable (h : Descends origin calls)
include h

theorem of_subset (hne : calls' ≠ [])
    (hlen : calls'.length ≤ max 512 origin.length) (hsub : calls' ⊆ calls) : Descends origin calls' where
  nonempty := hne
  count := hlen
  variant c hc := h.variant c (hsub hc)
  bounded c hc := h.bounded c (hsub hc)

theorem eraseIdx (hlen : 1 < calls.length) : Descends origin (calls.eraseIdx i) := by
  have hle := length_eraseIdx_le calls i
  refine h.of_subset ?_ (hle.trans h.count) (eraseIdx_subset ..)
  intro he
  have hpred := length_eraseIdx (l := calls) (i := i)
  rw [he, length_nil] at hpred
  split at hpred <;> omega

theorem insertIdx (hc : calls[i]? = some c) (hlen : calls.length < 512) : Descends origin (calls.insertIdx i c) := by
  obtain ⟨hi, hget⟩ := List.getElem?_eq_some_iff.mp hc
  have hl := length_insertIdx_of_le_length hi.le c
  refine h.of_subset ?_ (by omega) ?_
  · intro he
    rw [he, length_nil] at hl
    omega
  · intro d hd
    rcases eq_or_mem_of_mem_insertIdx hd with rfl | hd
    · exact hget ▸ getElem_mem hi
    · exact hd

theorem edited (he : EditedCalls (max maxData (longest origin)) calls calls') : Descends origin calls' := by
  have hlen : calls'.length = calls.length := by simpa using congrArg length he.blank
  refine ⟨?_, hlen ▸ h.count, ?_, he.bounded h.bounded⟩
  · rw [← length_pos_iff, hlen]
    exact length_pos_iff.mpr h.nonempty
  · intro c hc
    have hmem : c.blank ∈ calls.map Call.blank := he.blank ▸ mem_map_of_mem hc
    obtain ⟨d, hd, hdc⟩ := mem_map.mp hmem
    obtain ⟨o, ho, hod⟩ := h.variant d hd
    exact ⟨o, ho, hdc.symm.trans hod⟩

end

/-- A round keeps it. -/
theorem mutate (h : Descends origin prog.calls) (rng : Rng) : Descends origin (Fuzz.mutate prog rng).2.1.calls := by
  obtain ⟨rest, doubled, rfl, hdoubled, hedit⟩ := mutate_cases (Nat.le_max_left ..) h.nonempty rng
  have hrest : Descends origin ((dropped prog.calls rng).elim prog.calls prog.calls.eraseIdx) := by
    cases hd : dropped prog.calls rng with
    | none => exact h
    | some i => exact h.eraseIdx (dropped_lt hd).1
  rcases hdoubled with rfl | ⟨i, c, hc, hlen, rfl⟩
  · exact hrest.edited hedit
  · exact (hrest.insertIdx hc hlen).edited hedit

theorem mutateRounds (h : Descends origin prog.calls) (n : Nat) (rng : Rng) :
    Descends origin (Fuzz.mutateRounds n prog rng).1.calls := by
  induction n generalizing prog rng with
  | zero => exact h
  | succ n ih => exact ih (h.mutate rng) _

end Descends

/-- `read(r0, &(0x7f0000000040)=""/1, 0x1)` as decoded, with one byte of room. -/
def readCall : Call where
  name := [0x72#8, 0x65#8, 0x61#8, 0x64#8]
  base := [0x72#8, 0x65#8, 0x61#8, 0x64#8]
  nr := some 0
  args := [.int 3#64, .ptr 0x40#64 (some (.data [0#8])), .int 1#64]
  res := none
  failNth := none
  isAsync := false

/-- A stress run stays bounded and close to the program it starts from: from any seed and after any
number of rounds there are calls, at most 512 or as many as at first, each is a first call up to the
values of its leaves, and no buffer is longer than 64 KiB or the longest there was. -/
theorem mutateRounds_stable (prog : Prog) (hne : prog.calls ≠ []) (seed : U64) (n : Nat) :
    let calls := (mutateRounds n prog (Rng.new seed)).1.calls
    calls ≠ [] ∧ calls.length ≤ max 512 prog.calls.length ∧
      (∀ c ∈ calls, ∃ o ∈ prog.calls, c.blank = o.blank) ∧
      ∀ c ∈ calls, ∀ s ∈ c.sizes, s ≤ max 65536 (longest prog.calls) := by
  have h := (Descends.refl hne).mutateRounds n (Rng.new seed)
  exact ⟨h.nonempty, h.count, h.variant, h.bounded⟩

theorem mutateRounds_stable_read :
    let calls := (mutateRounds 3 ⟨[readCall]⟩ (Rng.new 1#64)).1.calls
    calls ≠ [] ∧ calls.length ≤ max 512 1 ∧
      (∀ c ∈ calls, ∃ o ∈ [readCall], c.blank = o.blank) ∧
      ∀ c ∈ calls, ∀ s ∈ c.sizes, s ≤ max 65536 (longest [readCall]) :=
  mutateRounds_stable ⟨[readCall]⟩ (cons_ne_nil _ _) 1#64 3

/-! ## Wiring -/

/-- Some call before the `k`th fills the slot. -/
def Filled (calls : List Call) (k : Nat) (slot : U64) : Prop :=
  ∃ j < k, ∃ p, calls[j]? = some p ∧ slot ∈ p.slots

/-- Every reference has an earlier call that fills its slot. -/
def Wired (calls : List Call) : Prop :=
  ∀ k c, calls[k]? = some c → ∀ slot ∈ c.refs, Filled calls k slot

/-- Wiring does not look at leaf values. -/
theorem wired_congr {calls' : List Call} (h : calls'.map Call.blank = calls.map Call.blank)
    (hw : Wired calls) : Wired calls' := by
  -- a call of one list has its blanked twin at the same place of the other
  have twin : ∀ {as bs : List Call}, as.map Call.blank = bs.map Call.blank → ∀ {k : Nat} {c : Call},
      as[k]? = some c → ∃ d : Call, bs[k]? = some d ∧ d.refs = c.refs ∧ d.slots = c.slots := by
    intro as bs hab k c hc
    have hk : (bs.map Call.blank)[k]? = some c.blank := by
      rw [← hab, getElem?_map, hc, Option.map_some]
    rw [getElem?_map] at hk
    obtain ⟨d, hd, hdc⟩ := Option.map_eq_some_iff.mp hk
    refine ⟨d, hd, ?_, ?_⟩
    · rw [← d.refs_blank, hdc, c.refs_blank]
    · rw [← d.slots_blank, hdc, c.slots_blank]
  intro k c hc slot hslot
  obtain ⟨d, hd, hrefs, -⟩ := twin h hc
  obtain ⟨j, hj, p, hp, hps⟩ := hw k d hd slot (hrefs ▸ hslot)
  obtain ⟨q, hq, -, hslots⟩ := twin h.symm hp
  exact ⟨j, hj, q, hq, hslots ▸ hps⟩

private theorem getElem?_doubled (hc : calls[i]? = some c)
    (j : Nat) : (calls.insertIdx i c)[j]? = calls[if j ≤ i then j else j - 1]? := by
  obtain ⟨hi, -⟩ := List.getElem?_eq_some_iff.mp hc
  rw [getElem?_insertIdx]
  rcases Nat.lt_trichotomy j i with h | rfl | h
  · rw [if_pos h, if_pos h.le]
  · rw [if_neg (lt_irrefl j), if_pos rfl, if_pos hi.le, if_pos le_rfl, hc]
  · rw [if_neg (by omega), if_neg (by omega), if_neg (by omega)]

/-- A copy next to the call it copies neither serves nor needs anything new. -/
theorem wired_doubled_iff (hc : calls[i]? = some c) : Wired (calls.insertIdx i c) ↔ Wired calls := by
  have lo : ∀ j, j ≤ i → (calls.insertIdx i c)[j]? = calls[j]? := fun j hj => by
    rw [getElem?_doubled hc, if_pos hj]
  have hi : ∀ j, i ≤ j → (calls.insertIdx i c)[j + 1]? = calls[j]? := fun j hj => by
    rw [getElem?_doubled hc, if_neg (by omega), Nat.add_sub_cancel]
  constructor
  · intro hw k d hd slot hslot
    rcases Nat.lt_or_ge i k with hik | hik
    · obtain ⟨j, hj, p, hp, hps⟩ := hw (k + 1) d (by rw [hi k hik.le, hd]) slot hslot
      rcases Nat.lt_or_ge i j with hij | hij
      · obtain ⟨j, rfl⟩ : ∃ m, j = m + 1 := ⟨j - 1, by omega⟩
        exact ⟨j, by omega, p, by rw [← hp, hi j (by omega)], hps⟩
      · exact ⟨j, by omega, p, by rw [← hp, lo j hij], hps⟩
    · obtain ⟨j, hj, p, hp, hps⟩ := hw k d (by rw [lo k hik, hd]) slot hslot
      exact ⟨j, hj, p, by rw [← hp, lo j (by omega)], hps⟩
  · intro hw k d hd slot hslot
    rcases Nat.lt_or_ge i k with hik | hik
    · obtain ⟨k, rfl⟩ : ∃ m, k = m + 1 := ⟨k - 1, by omega⟩
      obtain ⟨j, hj, p, hp, hps⟩ := hw k d (by rw [← hd, hi k (by omega)]) slot hslot
      rcases Nat.lt_or_ge i j with hij | hij
      · exact ⟨j + 1, by omega, p, by rw [hi j hij.le, hp], hps⟩
      · exact ⟨j, by omega, p, by rw [lo j hij, hp], hps⟩
    · obtain ⟨j, hj, p, hp, hps⟩ := hw k d (by rw [← hd, lo k hik]) slot hslot
      exact ⟨j, hj, p, by rw [lo j (by omega), hp], hps⟩

/-- A dropped call is missed exactly by the later calls it alone served. -/
theorem wired_eraseIdx_iff (hw : Wired calls) (i : Nat) :
    Wired (calls.eraseIdx i) ↔
      ∀ k c, i < k → calls[k]? = some c → ∀ slot ∈ c.refs,
        ∃ j < k, j ≠ i ∧ ∃ p, calls[j]? = some p ∧ slot ∈ p.slots := by
  have lo : ∀ j, j < i → (calls.eraseIdx i)[j]? = calls[j]? := fun j hj => by
    rw [getElem?_eraseIdx, if_pos hj]
  have hi : ∀ j, i ≤ j → (calls.eraseIdx i)[j]? = calls[j + 1]? := fun j hj => by
    rw [getElem?_eraseIdx, if_neg (by omega)]
  constructor
  · intro he k c hik hc slot hslot
    obtain ⟨k, rfl⟩ : ∃ m, k = m + 1 := ⟨k - 1, by omega⟩
    obtain ⟨j, hj, p, hp, hps⟩ := he k c (by rw [hi k (by omega), hc]) slot hslot
    rcases Nat.lt_or_ge j i with hji | hji
    · exact ⟨j, by omega, by omega, p, by rw [← hp, lo j hji], hps⟩
    · exact ⟨j + 1, by omega, by omega, p, by rw [← hp, hi j hji], hps⟩
  · intro hother k c hc slot hslot
    rcases Nat.lt_or_ge k i with hki | hki
    · obtain ⟨j, hj, p, hp, hps⟩ := hw k c (by rw [← hc, lo k hki]) slot hslot
      exact ⟨j, hj, p, by rw [lo j (by omega), hp], hps⟩
    · obtain ⟨j, hj, hji, p, hp, hps⟩ :=
        hother (k + 1) c (by omega) (by rw [← hc, hi k hki]) slot hslot
      rcases Nat.lt_or_ge j i with hlt | hge
      · exact ⟨j, by omega, p, by rw [lo j hlt, hp], hps⟩
      · obtain ⟨j, rfl⟩ : ∃ m, j = m + 1 := ⟨j - 1, by omega⟩
        exact ⟨j, by omega, p, by rw [hi j (by omega), hp], hps⟩

/-- After a round the wiring of a wired program still holds exactly when the call that the generator
state makes it drop, if any, is not the only earlier call filling a slot that a later call refers to. -/
theorem mutate_wired_iff (prog : Prog) (rng : Rng) (hw : Wired prog.calls) :
    Wired (mutate prog rng).2.1.calls ↔
      ∀ i, dropped prog.calls rng = some i → ∀ k c, i < k → prog.calls[k]? = some c →
        ∀ slot ∈ c.refs, ∃ j < k, j ≠ i ∧ ∃ p, prog.calls[j]? = some p ∧ slot ∈ p.slots := by
  by_cases hne : prog.calls = []
  · have hsame : (mutate prog rng).2.1.calls = prog.calls := by
      rw [mutate, if_pos (by simpa using hne)]
    have hnone : dropped prog.calls rng = none := by rw [dropped, hne]; rfl
    simp only [hsame, hnone, hw, reduceCtorEq, false_implies, implies_true]
  · obtain ⟨rest, doubled, rfl, hdoubled, hedit⟩ := mutate_cases (le_refl maxData) hne rng
    have hround : Wired (mutate prog rng).2.1.calls ↔
        Wired ((dropped prog.calls rng).elim prog.calls prog.calls.eraseIdx) := by
      have h1 : Wired (mutate prog rng).2.1.calls ↔ Wired doubled :=
        ⟨wired_congr hedit.blank.symm, wired_congr hedit.blank⟩
      rcases hdoubled with rfl | ⟨i, c, hc, -, rfl⟩
      · exact h1
      · exact h1.trans (wired_doubled_iff hc)
    rw [hround]
    cases hd : dropped prog.calls rng with
    | none => simp only [Option.elim_none, hw, reduceCtorEq, false_implies, implies_true]
    | some i =>
      simp only [Option.elim_some, wired_eraseIdx_iff hw i, Option.some.injEq, forall_eq']

/-- `Wired`, call by call. -/
def wiredCheck (calls : List Call) : Bool :=
  (List.range calls.length).all fun k => (calls[k]?.elim [] Call.refs).all fun slot =>
    (List.range k).any fun j => (calls[j]?.elim [] Call.slots).contains slot

theorem wiredCheck_iff (calls : List Call) : wiredCheck calls = true ↔ Wired calls := by
  have filled : ∀ k slot, (∃ j < k, slot ∈ calls[j]?.elim [] Call.slots) ↔ Filled calls k slot := by
    intro k slot
    refine exists_congr fun j => and_congr_right fun _ => ?_
    cases calls[j]? <;> simp
  simp only [wiredCheck, all_eq_true, any_eq_true, mem_range, contains_iff_mem, filled]
  constructor
  · intro h k c hc slot hslot
    obtain ⟨hk, -⟩ := List.getElem?_eq_some_iff.mp hc
    exact h k hk slot (by rwa [hc])
  · intro h k hk slot hslot
    rw [getElem?_eq_getElem hk] at hslot
    exact h k _ (getElem?_eq_getElem hk) slot hslot

instance (calls : List Call) : Decidable (Wired calls) := decidable_of_iff _ (wiredCheck_iff calls)

/-- `r0 = socket(0x2, 0x1, 0x0)` and `close(r0)` as decoded. -/
def socketThenClose : Prog where
  calls :=
    [{ name := [0x73#8, 0x6f#8, 0x63#8, 0x6b#8, 0x65#8, 0x74#8]
       base := [0x73#8, 0x6f#8, 0x63#8, 0x6b#8, 0x65#8, 0x74#8]
       nr := some 41, args := [.int 2#64, .int 1#64, .int 0#64]
       res := some 0#64, failNth := none, isAsync := false },
     { name := [0x63#8, 0x6c#8, 0x6f#8, 0x73#8, 0x65#8], base := [0x63#8, 0x6c#8, 0x6f#8, 0x73#8, 0x65#8]
       nr := some 3, args := [.res 0#64 0#64 0#64]
       res := none, failNth := none, isAsync := false }]

/-- From seed 2 the first round drops `socket` and leaves `close(r0)` without its descriptor. -/
theorem mutate_drops_producer :
    Wired socketThenClose.calls ∧ ¬ Wired (mutate socketThenClose (Rng.new 2#64)).2.1.calls := by
  decide +kernel

/-- From seed 1 no call of it is dropped. -/
theorem mutate_wired_iff_socket :
    Wired (mutate socketThenClose (Rng.new 1#64)).2.1.calls ↔
      ∀ i, dropped socketThenClose.calls (Rng.new 1#64) = some i → ∀ k c, i < k →
        socketThenClose.calls[k]? = some c → ∀ slot ∈ c.refs,
          ∃ j < k, j ≠ i ∧ ∃ p, socketThenClose.calls[j]? = some p ∧ slot ∈ p.slots :=
  mutate_wired_iff socketThenClose (Rng.new 1#64) (by decide +kernel)

end Vock.Fuzz
