import Vock.Laws.Fuzz.Encode
import Vock.Laws.Fuzz.Placing

/-!
# Laying out a call

What `prepare_args` writes is the objects of the call, pointees of pointees before what points to
them (`prepareArgs_arena`). A write ends at the next object of the program, so objects of one call
that start at different addresses never share a byte, and each is found as far as its clipped image
goes (`prepareArgs_layout`). A literal is found whole exactly where no other object of the program
starts inside it (`literal_whole_iff`).
-/

namespace Vock.Fuzz

open Library List

variable {o : U64 × Arg} {i len : Nat} {a : Arg} {prog : Prog} {addr : U64} {fs : List Arg}

/-! ## Objects -/

namespace Arg

/-- The object of a pointer that has a pointee: its address and the pointee. -/
def object? : Arg → Option (U64 × Arg)
  | .ptr addr (some inner) => some (addr, inner)
  | _ => none

/-- The object an argument points to, through unions and `<rN=>`. -/
def target : Arg → Option (U64 × Arg)
  | .union inner => target inner
  | .out _ inner => target inner
  | .ptr addr (some inner) => some (addr, inner)
  | _ => none

/-- The objects of an argument: the one it points to and those nested in its pointee. -/
def objects (a : Arg) : List (U64 × Arg) :=
  a.target.toList.flatMap fun o => o :: o.2.nodes.filterMap object?

end Arg

/-- The objects of a call. -/
def Call.objects (c : Call) : List (U64 × Arg) := (c.args.take maxArgs).flatMap Arg.objects

/-- The addresses of a program's objects. -/
def Prog.addrs (prog : Prog) : List U64 := prog.calls.flatMap fun c => (c.nodes.filterMap Arg.object?).map Prod.fst

/-- How far an object of `len` bytes at `addr` can go before the next object of the program. -/
def Prog.reach (prog : Prog) (addr : U64) (len : Nat) : Nat :=
  ((prog.addrs.filter (addr < ·)).map fun f => f.toNat - addr.toNat).foldr min len

theorem Prog.lt_reach_iff (prog : Prog) (addr : U64) (len i : Nat) :
    i < prog.reach addr len ↔ i < len ∧ ∀ f ∈ prog.addrs, addr < f → addr.toNat + i < f.toNat := by
  have hmin : ∀ ds : List Nat, i < ds.foldr min len ↔ i < len ∧ ∀ d ∈ ds, i < d := by
    intro ds
    induction ds with
    | nil => simp
    | cons d ds ih => simp only [foldr_cons, lt_min_iff, forall_mem_cons]; tauto
  rw [Prog.reach, hmin]
  simp only [forall_mem_map, mem_filter, decide_eq_true_eq, and_imp]
  refine and_congr_right fun _ => forall₃_congr fun f _ hf => ?_
  omega

theorem Prog.reach_le (prog : Prog) (addr : U64) (len : Nat) : prog.reach addr len ≤ len := by
  by_contra hlt
  exact Nat.lt_irrefl _ ((prog.lt_reach_iff addr len _).mp (Nat.lt_of_not_le hlt)).1

/-! ## The order of the writes -/

namespace Arg

mutual

/-- The objects nested in a tree, in the order they are written. -/
def laid : Arg → List (U64 × Arg)
  | .ptr addr (some inner) => laid inner ++ [(addr, inner)]
  | .struct fields => laidAll fields
  | .array fields => laidAll fields
  | .union inner => laid inner
  | .out _ inner => laid inner
  | _ => []

def laidAll : List Arg → List (U64 × Arg)
  | [] => []
  | f :: fs => laid f ++ laidAll fs

end

mutual

/-- Every nested object is written once. -/
theorem laid_perm : ∀ a : Arg, (laid a).Perm (a.nodes.filterMap object?)
  | .ptr _ (some inner) => (perm_append_singleton _ _).trans ((laid_perm inner).cons _)
  | .struct fs | .array fs => laidAll_perm fs
  | .union inner | .out _ inner => laid_perm inner
  | .int _ | .res .. | .ptr _ none | .data _ | .csum | .nil => .refl _

theorem laidAll_perm : ∀ fs : List Arg, (laidAll fs).Perm ((nodesAll fs).filterMap object?)
  | [] => .refl _
  | f :: fs => by
    rw [laidAll, nodesAll, filterMap_append]
    exact (laid_perm f).append (laidAll_perm fs)

end

/-- The objects of an argument, in the order they are written. -/
def order (a : Arg) : List (U64 × Arg) := a.target.toList.flatMap fun o => laid o.2 ++ [o]

theorem order_perm (a : Arg) : a.order.Perm a.objects := by
  unfold order objects
  cases a.target with
  | none => exact .refl _
  | some o =>
    simp only [Option.toList_some, flatMap_cons, flatMap_nil, append_nil]
    exact (perm_append_singleton _ _).trans ((laid_perm o.2).cons _)

end Arg

/-- The objects of a call, in the order they are written. -/
def Call.order (c : Call) : List (U64 × Arg) := (c.args.take maxArgs).flatMap Arg.order

theorem Call.order_perm (c : Call) : c.order.Perm c.objects := by
  unfold Call.order Call.objects
  induction c.args.take maxArgs with
  | nil => exact .refl _
  | cons a as ih =>
    exact a.order_perm.append ih

section

variable (w : Nat) (ctx : Ctx)

/-- Objects with their images. -/
def images (os : List (U64 × Arg)) : List (U64 × List U8) := os.map fun o => (o.1, image w ctx o.2)

theorem writeAll_images_append (a : Arena) (os ps : List (U64 × Arg)) :
    a.writeAll (images w ctx (os ++ ps)) = (a.writeAll (images w ctx os)).writeAll (images w ctx ps) := by
  rw [images, map_append, Arena.writeAll, foldl_append]
  rfl

mutual

theorem layOutNested_eq : ∀ (arg : Arg) (a : Arena), layOutNested w ctx arg a = a.writeAll (images w ctx arg.laid)
  | .ptr addr (some inner), a => by
    rw [layOutNested, layOutNested_eq inner, Arg.laid, writeAll_images_append]
    rfl
  | .struct fs, a | .array fs, a => by rw [layOutNested, layOutNestedAll_eq fs, Arg.laid]
  | .union inner, a | .out _ inner, a => by rw [layOutNested, layOutNested_eq inner, Arg.laid]
  | .int _, _ | .res .., _ | .ptr _ none, _ | .data _, _ | .csum, _ | .nil, _ => rfl

theorem layOutNestedAll_eq : ∀ (fs : List Arg) (a : Arena),
    layOutNestedAll w ctx fs a = a.writeAll (images w ctx (Arg.laidAll fs))
  | [], _ => rfl
  | f :: fs, a => by
    rw [layOutNestedAll, layOutNested_eq f, layOutNestedAll_eq fs, Arg.laidAll, writeAll_images_append]

end

theorem copyin_arena (arg : Arg) (a : Arena) :
    (copyin w ctx arg a).2 = a.writeAll (images w ctx arg.order) := by
  induction arg generalizing a with
  | ptrSome addr inner =>
    rw [copyin, layOutNested_eq, Arg.order, Arg.target]
    simp only [Option.toList_some, flatMap_cons,
      writeAll_images_append]
    rfl
  | union inner ih | out slot inner ih => rw [copyin, ih, Arg.order, Arg.order, Arg.target]
  | int | res | ptrNone | data | csum | nil | struct | array => rfl

theorem prepareAll_arena (args : List Arg) (a : Arena) :
    (prepareAll w ctx args a).2 = a.writeAll (images w ctx (args.flatMap Arg.order)) := by
  induction args generalizing a with
  | nil => rfl
  | cons arg args ih =>
    rw [flatMap_cons, writeAll_images_append, ← copyin_arena, ← ih]
    rfl

/-- `prepare_args` writes the objects of the call. -/
theorem prepareArgs_arena (a : Arena) (c : Call) :
    (prepareArgs w a c ctx).2 = a.writeAll (images w ctx c.order) := prepareAll_arena w ctx _ a

end

/-! ## Objects of a placed program -/

/-- The objects of a program are its sites that have a pointee. -/
theorem mem_addrs_iff (w : Nat) (prog : Prog) (f : U64) :
    f ∈ prog.addrs ↔ ∃ t ∈ prog.sites w, t.filled = true ∧ t.addr = f := by
  simp only [Prog.addrs, Prog.sites, sitesOf, Call.nodes, mem_flatMap, mem_map, mem_filterMap]
  constructor
  · rintro ⟨c, hc, o, ⟨a, ha, hobj⟩, rfl⟩
    cases a with
    | ptr addr inner =>
      cases inner with
      | none => cases hobj
      | some inner => cases hobj; exact ⟨_, ⟨c, hc, _, ha, rfl⟩, rfl, rfl⟩
    | _ => cases hobj
  · rintro ⟨t, ⟨c, hc, a, ha, hsite⟩, hfilled, rfl⟩
    cases a with
    | ptr addr inner =>
      cases inner with
      | none => cases hsite; cases hfilled
      | some inner => cases hsite; exact ⟨c, hc, _, ⟨_, ha, rfl⟩, rfl⟩
    | _ => cases hsite

/-- In a placed program a write keeps what the next object leaves room for. -/
theorem kept_noteFixed (w : Nat) (a : Arena) (prog : Prog) (addr : U64) (bytes : List U8) :
    (noteFixed w a prog).1.kept addr bytes =
      if addr.toNat + (noteFixed w a prog).2.reach addr bytes.length ≤ arenaSize
      then bytes.take ((noteFixed w a prog).2.reach addr bytes.length) else [] := by
  -- an arena that clips at the objects alone
  let plain := a.setFixed (noteFixed w a prog).2.addrs
  have hmem : ∀ f, f ∈ plain.fixed ↔ f ∈ (noteFixed w a prog).2.addrs :=
    Arena.mem_fixed_setFixed a (noteFixed w a prog).2.addrs
  have hkept : (noteFixed w a prog).1.kept addr bytes = plain.kept addr bytes := by
    refine kept_of_fixed (noteFixed_fixed_pairwise w a prog) (Arena.fixed_setFixed_pairwise _ _) ?_ ?_ _ _
    · intro f hf
      exact (mem_noteFixed_fixed w a prog f).mpr (.inl ((mem_addrs_iff w _ f).mp ((hmem f).mp hf)))
    · intro f hf
      rcases (mem_noteFixed_fixed w a prog f).mp hf with h | ⟨h, -⟩
      · exact .inl ((hmem f).mpr ((mem_addrs_iff w _ f).mpr h))
      · exact .inr h
  have hclip : plain.clip addr bytes.length = (noteFixed w a prog).2.reach addr bytes.length := by
    refine eq_of_forall_lt_iff fun i => ?_
    rw [Arena.lt_clip_setFixed_iff, Prog.lt_reach_iff]
  rw [hkept, Arena.kept, hclip]

theorem mem_nodes_of_target (h : a.target = some o) : .ptr o.1 (some o.2) ∈ a.nodes := by
  induction a with
  | union inner ih | out slot inner ih => exact mem_cons_of_mem _ (ih h)
  | ptrSome addr inner => cases h; exact mem_cons_self
  | _ => cases h

/-- A subtree's subtrees are subtrees. -/
theorem nodes_subset {b : Arg} (h : b ∈ a.nodes) : b.nodes ⊆ a.nodes := by
  induction a with
  | struct fs ih | array fs ih =>
    simp only [Arg.nodes, Arg.nodesAll_eq, mem_cons, mem_flatMap] at h ⊢
    rcases h with rfl | ⟨f, hf, hb⟩
    · simp [Arg.nodes]
    · exact fun x hx => mem_cons_of_mem _ (mem_flatMap.mpr ⟨f, hf, ih f hf hb hx⟩)
  | ptrSome addr inner ih | union inner ih | out slot inner ih =>
    rcases mem_cons.mp h with rfl | h
    · exact Subset.refl _
    · exact fun x hx => mem_cons_of_mem _ (ih h hx)
  | int | res | ptrNone | data | csum | nil =>
    obtain rfl := mem_singleton.mp h
    exact Subset.refl _

theorem mem_nodes_of_mem_objects (h : o ∈ a.objects) : .ptr o.1 (some o.2) ∈ a.nodes := by
  obtain ⟨t, ht, ho⟩ := mem_flatMap.mp h
  have htarget := mem_nodes_of_target (Option.mem_toList.mp ht)
  rcases mem_cons.mp ho with rfl | ho
  · exact htarget
  · obtain ⟨b, hb, hobj⟩ := mem_filterMap.mp ho
    obtain rfl : b = .ptr o.1 (some o.2) := by
      cases b with
      | ptr addr inner =>
        cases inner with
        | none => cases hobj
        | some inner => cases hobj; rfl
      | _ => cases hobj
    exact nodes_subset htarget (mem_cons_of_mem _ hb)

/-- An object of a call is an object of its program. -/
theorem mem_addrs_of_mem_objects {c : Call} (hc : c ∈ prog.calls) (ha : a ∈ c.args) (ho : o ∈ a.objects) :
    o.1 ∈ prog.addrs := by
  refine mem_flatMap.mpr ⟨c, hc, mem_map.mpr ⟨o, mem_filterMap.mpr
    ⟨.ptr o.1 (some o.2), ?_, rfl⟩, rfl⟩⟩
  exact mem_flatMap.mpr ⟨a, ha, mem_nodes_of_mem_objects ho⟩

theorem Call.mem_addrs {c : Call} (hc : c ∈ prog.calls) (ho : o ∈ c.objects) : o.1 ∈ prog.addrs := by
  obtain ⟨a, ha, ho⟩ := mem_flatMap.mp ho
  exact mem_addrs_of_mem_objects hc (mem_of_mem_take ha) ho

/-! ## Where each object ends up -/

/-- The bytes an object takes in the arena: up to the next object, and none where they do not fit. -/
def Prog.Occupies (prog : Prog) (addr : U64) (len i : Nat) : Prop :=
  addr.toNat + prog.reach addr len ≤ arenaSize ∧ addr.toNat ≤ i ∧ i < addr.toNat + prog.reach addr len

theorem covers_kept_iff (w : Nat) (a : Arena) (prog : Prog) (addr : U64) (bytes : List U8) (i : Nat) :
    Covers (addr.toNat, (noteFixed w a prog).1.kept addr bytes) i ↔
      (noteFixed w a prog).2.Occupies addr bytes.length i := by
  have hle := (noteFixed w a prog).2.reach_le addr bytes.length
  rw [Covers, Prog.Occupies, kept_noteFixed]
  split
  next hfits => simp only [length_take, hfits, true_and, Nat.min_eq_left hle]
  next hfits =>
    simp only [length_nil]
    omega

/-- A byte of an object that is in the arena is taken where no other object starts up to it. -/
theorem Prog.occupies_iff (prog : Prog) (hfits : addr.toNat + len ≤ arenaSize)
    (hi : i < len) : prog.Occupies addr len (addr.toNat + i) ↔
      ¬ ∃ f ∈ prog.addrs, addr < f ∧ f.toNat ≤ addr.toNat + i := by
  have hle := prog.reach_le addr len
  have hlt := prog.lt_reach_iff addr len i
  simp only [hi] at hlt
  have hocc : prog.Occupies addr len (addr.toNat + i) ↔ i < prog.reach addr len := by
    unfold Prog.Occupies
    omega
  rw [hocc, hlt]
  simp

/-- What an object of a placed program takes ends in front of every later object. -/
theorem Prog.Occupies.lt {f : U64} (h : prog.Occupies addr len i)
    (hf : f ∈ prog.addrs) (hlt : addr < f) : i < f.toNat := by
  obtain ⟨-, hlo, hhi⟩ := h
  have := ((prog.lt_reach_iff addr len (i - addr.toNat)).mp (by omega)).2 f hf hlt
  omega

section

variable (w : Nat) (a : Arena) (prog : Prog) (mem : Nat → U8) (ctx : Ctx) (c : Call)

/-- The patch of an object of a placed program. -/
def placedPatch (o : U64 × Arg) : Nat × List U8 :=
  (o.1.toNat, (noteFixed w a prog).1.kept o.1 (image w ctx o.2))

theorem prepareArgs_mem :
    (prepareArgs w { (noteFixed w a prog).1 with mem := mem } c ctx).2.mem =
      blitAll mem (c.order.map (placedPatch w a prog ctx)) := by
  rw [prepareArgs_arena, Arena.writeAll_mem, images, map_map]
  rfl

variable {w a prog ctx}

theorem covers_placedPatch_iff :
    Covers (placedPatch w a prog ctx o) i ↔
      (noteFixed w a prog).2.Occupies o.1 (encodedLen o.2 w) i := by
  rw [placedPatch, covers_kept_iff, length_image]

/-- Inside what it takes, a patch has the bytes of the image. -/
theorem placedPatch_getElem? (h : Covers (placedPatch w a prog ctx o) i) :
    (placedPatch w a prog ctx o).2[i - o.1.toNat]? = (image w ctx o.2)[i - o.1.toNat]? := by
  have hocc := covers_placedPatch_iff.mp h
  rw [← length_image w ctx] at hocc
  obtain ⟨hfits, hlo, hhi⟩ := hocc
  rw [placedPatch, kept_noteFixed, if_pos hfits, getElem?_take_of_lt]
  omega

end

/-- For a call of a placed program whose objects start at different addresses: each object that fits as
far as the next object of the program lets it go is found there, byte by byte, and no other byte of
the arena changes. -/
theorem prepareArgs_layout (w : Nat) (a : Arena) (prog : Prog) (mem : Nat → U8) (ctx : Ctx) (c : Call)
    (hc : c ∈ (noteFixed w a prog).2.calls) (hdistinct : (c.objects.map Prod.fst).Nodup) :
    let placed := noteFixed w a prog
    let after := (prepareArgs w { placed.1 with mem := mem } c ctx).2
    (∀ o ∈ c.objects, ∀ i, placed.2.Occupies o.1 (encodedLen o.2 w) i →
      (image w ctx o.2)[i - o.1.toNat]? = some (after.mem i)) ∧
    ∀ i, (∀ o ∈ c.objects, ¬ placed.2.Occupies o.1 (encodedLen o.2 w) i) → after.mem i = mem i := by
  intro placed after
  have hafter := prepareArgs_mem w a prog mem ctx c
  have hmem : ∀ {o}, o ∈ c.order ↔ o ∈ c.objects := c.order_perm.mem_iff
  -- of two objects the one that starts first ends where the other starts
  have hapart : (c.order.map (placedPatch w a prog ctx)).Pairwise Apart := by
    rw [pairwise_map]
    have hne : c.order.Pairwise fun o p => o.1 ≠ p.1 :=
      pairwise_map.mp (((c.order_perm.map Prod.fst).nodup_iff).mpr hdistinct)
    refine hne.imp_of_mem fun {o p} ho hp hop i hoi hpi => ?_
    have hoi := covers_placedPatch_iff.mp hoi
    have hpi := covers_placedPatch_iff.mp hpi
    rcases Nat.lt_trichotomy o.1.toNat p.1.toNat with hlt | heq | hgt
    · have := hoi.lt (Call.mem_addrs hc (hmem.mp hp)) hlt
      have := hpi.2.1
      omega
    · exact hop (BitVec.eq_of_toNat_eq heq)
    · have := hpi.lt (Call.mem_addrs hc (hmem.mp ho)) hgt
      have := hoi.2.1
      omega
  refine ⟨fun o ho i hi => ?_, fun i hi => ?_⟩
  · have hcovers : Covers (placedPatch w a prog ctx o) i := covers_placedPatch_iff.mpr hi
    rw [← placedPatch_getElem? hcovers, show after.mem = _ from hafter]
    exact blitAll_of_covers hapart (mem_map_of_mem (hmem.mpr ho)) hcovers
  · rw [show after.mem = _ from hafter]
    refine blitAll_of_not_covers fun p hp hpi => ?_
    obtain ⟨o, ho, rfl⟩ := mem_map.mp hp
    exact hi o (hmem.mp ho) (covers_placedPatch_iff.mp hpi)

/-- Two objects, 32 bytes apart. -/
def twoObjects : Call where
  name := []
  base := []
  nr := none
  args := [.ptr 0x20#64 (some (.data [1#8, 2#8])), .union (.ptr 0x40#64 (some (.struct [.int 7#64, .csum])))]
  res := none
  failNth := none
  isAsync := false

theorem noteFixed_twoObjects (a : Arena) : (noteFixed 8 a ⟨[twoObjects]⟩).2 = ⟨[twoObjects]⟩ :=
  noteFixed_of_ne (by decide) a

theorem prepareArgs_layout_twoObjects :
    let placed := noteFixed 8 Arena.map ⟨[twoObjects]⟩
    let after := (prepareArgs 8 { placed.1 with mem := fun _ => 0xff#8 } twoObjects Ctx.new).2
    (∀ o ∈ twoObjects.objects, ∀ i, placed.2.Occupies o.1 (encodedLen o.2 8) i →
      (image 8 Ctx.new o.2)[i - o.1.toNat]? = some (after.mem i)) ∧
    ∀ i, (∀ o ∈ twoObjects.objects, ¬ placed.2.Occupies o.1 (encodedLen o.2 8) i) → after.mem i = 0xff#8 :=
  prepareArgs_layout 8 Arena.map ⟨[twoObjects]⟩ (fun _ => 0xff#8) Ctx.new twoObjects
    (by rw [noteFixed_twoObjects]; exact mem_cons_self) (by decide)

/-! ## Literals -/

/-- The object takes no byte of the `len` bytes at `addr`. -/
def Clear (w : Nat) (addr : U64) (len : Nat) (o : U64 × Arg) : Prop :=
  ∀ i, o.1.toNat ≤ i → i < o.1.toNat + encodedLen o.2 w → ¬ (addr.toNat ≤ i ∧ i < addr.toNat + len)

theorem Clear.not_occupies {w : Nat} (h : Clear w addr len o) (hlo : addr.toNat ≤ i) (hhi : i < addr.toNat + len) :
    ¬ prog.Occupies o.1 (encodedLen o.2 w) i := by
  rintro ⟨-, holo, hohi⟩
  have hin := (prog.lt_reach_iff o.1 (encodedLen o.2 w) (i - o.1.toNat)).mp (by omega)
  exact h i holo (by omega) ⟨hlo, hhi⟩

/-- A literal of a call of a placed program that is in the arena and clear of the call's other objects
is found whole after `prepare_args` exactly when the bytes that are not written were there before:
those from the first address on at which an object of the program starts inside the literal, and all
of them where the argument is not one of the first nine. -/
theorem literal_whole_iff (w : Nat) (a : Arena) (prog : Prog) (mem : Nat → U8) (ctx : Ctx) (c : Call)
    (k : Nat) (arg : Arg) (hk : c.args[k]? = some arg)
    (addr : U64) (d : List U8) (before behind : List (U64 × Arg))
    (hlit : arg.objects = before ++ (addr, .data d) :: behind)
    (hfits : addr.toNat + d.length ≤ arenaSize)
    (hclear : ∀ o ∈ before ++ behind, Clear w addr d.length o)
    (hothers : ∀ j < maxArgs, j ≠ k → ∀ other, c.args[j]? = some other →
      ∀ o ∈ other.objects, Clear w addr d.length o) :
    let placed := noteFixed w a prog
    let after := (prepareArgs w { placed.1 with mem := mem } c ctx).2
    (∀ i < d.length, d[i]? = some (after.mem (addr.toNat + i))) ↔
      ∀ i < d.length, (maxArgs ≤ k ∨ ∃ f ∈ placed.2.addrs, addr < f ∧ f.toNat ≤ addr.toNat + i) →
        d[i]? = some (mem (addr.toNat + i)) := by
  intro placed after
  have hafter : after.mem = _ := prepareArgs_mem w a prog mem ctx c
  -- an object of the call is the literal or clear of it
  have hobjects : ∀ o ∈ c.objects, (o = (addr, .data d) ∧ k < maxArgs) ∨ Clear w addr d.length o := by
    intro o ho
    obtain ⟨other, hother, ho⟩ := mem_flatMap.mp ho
    obtain ⟨j, hj, rfl⟩ := mem_iff_getElem.mp hother
    have hj9 : j < maxArgs := by simp only [length_take] at hj; omega
    have hget : c.args[j]? = some (c.args.take maxArgs)[j] := by
      rw [← getElem?_take_of_lt hj9, getElem?_eq_getElem hj]
    by_cases hjk : j = k
    · subst hjk
      obtain rfl : arg = (c.args.take maxArgs)[j] := Option.some.inj (hk.symm.trans hget)
      rw [hlit] at ho
      rcases mem_append.mp ho with ho | ho
      · exact .inr (hclear o (mem_append_left _ ho))
      · rcases mem_cons.mp ho with rfl | ho
        · exact .inl ⟨rfl, hj9⟩
        · exact .inr (hclear o (mem_append_right _ ho))
    · exact .inr (hothers j hj9 hjk _ hget o ho)
  have hliteral : k < maxArgs → (addr, .data d) ∈ c.objects := by
    intro hk9
    refine mem_flatMap.mpr ⟨arg, mem_of_getElem? (i := k) ?_, ?_⟩
    · rw [getElem?_take_of_lt hk9, hk]
    · rw [hlit]
      exact mem_append_right _ mem_cons_self
  -- byte by byte: written, or left as it was
  have hbyte : ∀ i < d.length, (¬ (maxArgs ≤ k ∨ ∃ f ∈ placed.2.addrs, addr < f ∧ f.toNat ≤ addr.toNat + i) →
        d[i]? = some (after.mem (addr.toNat + i))) ∧
      ((maxArgs ≤ k ∨ ∃ f ∈ placed.2.addrs, addr < f ∧ f.toNat ≤ addr.toNat + i) →
        after.mem (addr.toNat + i) = mem (addr.toNat + i)) := by
    intro i hi
    have hcovered : ∀ o ∈ c.order, Covers (placedPatch w a prog ctx o) (addr.toNat + i) →
        o = (addr, .data d) ∧ k < maxArgs := by
      intro o ho hcov
      rcases hobjects o (c.order_perm.mem_iff.mp ho) with hsame | hclearo
      · exact hsame
      · exact absurd (covers_placedPatch_iff.mp hcov) (hclearo.not_occupies (by omega) (by omega))
    have hcut := placed.2.occupies_iff hfits hi
    rw [hafter]
    constructor
    · intro hno
      have hcovers : Covers (placedPatch w a prog ctx (addr, .data d)) (addr.toNat + i) :=
        covers_placedPatch_iff.mpr (hcut.mpr fun h => hno (.inr h))
      have hvalue : ∀ o, o = (addr, .data d) → Covers (placedPatch w a prog ctx o) (addr.toNat + i) →
          (placedPatch w a prog ctx o).2[addr.toNat + i - (placedPatch w a prog ctx o).1]? = some d[i] := by
        rintro o rfl hcov
        rw [show (placedPatch w a prog ctx (addr, .data d)).1 = addr.toNat from rfl, placedPatch_getElem? hcov,
          image_data, Nat.add_sub_cancel_left, getElem?_eq_getElem hi]
      rw [getElem?_eq_getElem hi]
      refine congrArg some (blitAll_of_agree ?_ ?_).symm
      · intro p hp hcov
        obtain ⟨o, ho, rfl⟩ := mem_map.mp hp
        exact hvalue o (hcovered o ho hcov).1 hcov
      · exact ⟨_, mem_map_of_mem (c.order_perm.mem_iff.mpr (hliteral (by omega))), hcovers⟩
    · intro hcutor
      refine blitAll_of_not_covers fun p hp hcov => ?_
      obtain ⟨o, ho, rfl⟩ := mem_map.mp hp
      obtain ⟨rfl, hk9⟩ := hcovered o ho hcov
      exact hcut.mp (covers_placedPatch_iff.mp hcov) (hcutor.resolve_left (by omega))
  constructor
  · intro h i hi hcut
    rw [← (hbyte i hi).2 hcut]
    exact h i hi
  · intro h i hi
    by_cases hcut : maxArgs ≤ k ∨ ∃ f ∈ placed.2.addrs, addr < f ∧ f.toNat ≤ addr.toNat + i
    · rw [(hbyte i hi).2 hcut]
      exact h i hi hcut
    · exact (hbyte i hi).1 hcut

/-- The literal and the other objects in the arena leave each other alone in `twoObjects`. -/
theorem literal_whole_iff_twoObjects :
    let placed := noteFixed 8 Arena.map ⟨[twoObjects]⟩
    let after := (prepareArgs 8 { placed.1 with mem := fun _ => 0xff#8 } twoObjects Ctx.new).2
    (∀ i < 2, [1#8, 2#8][i]? = some (after.mem ((0x20#64).toNat + i))) ↔
      ∀ i < 2, (maxArgs ≤ 0 ∨ ∃ f ∈ placed.2.addrs, 0x20#64 < f ∧ f.toNat ≤ (0x20#64).toNat + i) →
        [1#8, 2#8][i]? = some 0xff#8 := by
  refine literal_whole_iff 8 Arena.map ⟨[twoObjects]⟩ (fun _ => 0xff#8) Ctx.new twoObjects 0
    (.ptr 0x20#64 (some (.data [1#8, 2#8]))) rfl 0x20#64 [1#8, 2#8] [] [] rfl (by decide) nofun ?_
  intro j hj hj0 other hother o ho i hlo hhi
  obtain rfl : j = 1 := by
    obtain ⟨hlen, -⟩ := List.getElem?_eq_some_iff.mp hother
    have hlen : j < 2 := hlen
    omega
  cases hother
  obtain rfl : o = (0x40#64, .struct [.int 7#64, .csum]) := mem_singleton.mp ho
  have hlo : 0x40 ≤ i := hlo
  show ¬ (0x20 ≤ i ∧ i < 0x20 + 2)
  omega

/-- `write(0x1, &(0x7f0000000000)="0102030405060708", 0x8)` and a later call with an object four bytes
on: `time(&(0x7f0000000004)=0x0)`. -/
def writeThenTime : List Call :=
  [{ name := [], base := [], nr := none
     args := [.int 1#64, .ptr 0#64 (some (.data [1#8, 2#8, 3#8, 4#8, 5#8, 6#8, 7#8, 8#8])), .int 8#64]
     res := none, failNth := none, isAsync := false },
   { name := [], base := [], nr := none
     args := [.ptr 4#64 (some (.int 0#64))]
     res := none, failNth := none, isAsync := false }]

/-- The literal of the first call is cut where the object of the second starts. -/
theorem literal_cut :
    let placed := noteFixed 8 Arena.map.reset ⟨writeThenTime⟩
    let d := [1#8, 2#8, 3#8, 4#8, 5#8, 6#8, 7#8, 8#8]
    ∃ c, placed.2.calls[0]? = some c ∧ c.args[1]?.bind Arg.target = some (0#64, .data d) ∧
      ¬ ∀ i < 8, d[i]? = some ((prepareArgs 8 placed.1 c Ctx.new).2.mem i) := by
  refine ⟨_, rfl, rfl, ?_⟩
  decide +kernel

end Vock.Fuzz
