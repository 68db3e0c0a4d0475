import Vock.Laws.Fuzz.Layout

/-!
# Reading produced fields back

Where `encode` puts the `<rN=>` fields of an object (`FieldAt`), against what `prepare_args` records of them. Recorded are the fields in the pointee of an argument that
is itself a pointer, with the bytes in front of each counted as if every integer had `w` bytes
(`HasField`, `mem_fieldsOf`); these offsets are right for every field that is written
(`FieldAt.hasField`). What is missed, doubled or out of place is said by `copyouts_exact_iff`.

A field counts as written where its four bytes are in the part of the image that `Arena::write` keeps.
Nothing is said here of what the kernel writes there, nor of the reading after the call.
-/

namespace Vock.Fuzz

open Library List

variable {d w : Nat} {a : Arg} {slot : U64} {ctx : Ctx} {fs : List Arg}

/-! ## Where fields are written -/

/-- The four bytes of a `<rN=>` field of the slot lie at this offset of the image of the value. Of a
value inside a `<rN=>` only the first four bytes are there. -/
inductive FieldAt (ctx : Ctx) : Arg → Nat → U64 → Nat → Prop
  | here {slot inner w} : FieldAt ctx (.out slot inner) w slot 0
  | inside {outer inner w slot d} : FieldAt ctx inner resWidth slot d → d + resWidth ≤ resWidth →
      FieldAt ctx (.out outer inner) w slot d
  | union {inner w slot d} : FieldAt ctx inner w slot d → FieldAt ctx (.union inner) w slot d
  | struct {pre f post w slot d} : FieldAt ctx f w slot d →
      FieldAt ctx (.struct (pre ++ f :: post)) w slot ((encodeAll ctx pre w).length + d)
  | array {pre f post w slot d} : FieldAt ctx f w slot d →
      FieldAt ctx (.array (pre ++ f :: post)) w slot ((encodeAll ctx pre w).length + d)

theorem encodeAll_append (ctx : Ctx) (fs gs : List Arg) (w : Nat) :
    encodeAll ctx (fs ++ gs) w = encodeAll ctx fs w ++ encodeAll ctx gs w := by
  induction fs with
  | nil => rfl
  | cons f fs ih => rw [cons_append, encodeAll, ih, encodeAll, append_assoc]

/-- The bytes of the field are four of the image's. -/
theorem FieldAt.bound (h : FieldAt ctx a w slot d) : d + resWidth ≤ (encode ctx a w).length := by
  induction h with
  | here => rw [encode, length_resize]; exact Nat.le_of_eq (Nat.zero_add _)
  | inside _ hd _ => rw [encode, length_resize]; exact hd
  | union _ ih => rw [encode]; exact ih
  | struct _ ih | array _ ih =>
    rw [encode, encodeAll_append, encodeAll, length_append, length_append]
    omega

/-! ## What is recorded -/

/-- A `<rN=>` field of a value: the way to it, by the number of the part at each step, its slot, the
bytes in front of it, and whether it is inside another `<rN=>`. -/
structure Field where
  path : List Nat
  slot : U64
  off : Nat
  nested : Bool

namespace Field

/-- The field, seen from one step further out. -/
def step (i front : Nat) (x : Field) : Field := { x with path := i :: x.path, off := front + x.off }

/-- The field, seen from the `<rN=>` around it. -/
def nest (x : Field) : Field := { x.step 0 0 with nested := true }

end Field

/-- The value has the field, with all integers `w` bytes long. -/
inductive HasField (w : Nat) : Arg → Field → Prop
  | here {slot inner} : HasField w (.out slot inner) ⟨[], slot, 0, false⟩
  | inside {slot inner x} : HasField w inner x → HasField w (.out slot inner) x.nest
  | union {inner x} : HasField w inner x → HasField w (.union inner) (x.step 0 0)
  | struct {pre f post x} : HasField w f x →
      HasField w (.struct (pre ++ f :: post)) (x.step pre.length (encodedLenAll pre w))
  | array {pre f post x} : HasField w f x →
      HasField w (.array (pre ++ f :: post)) (x.step pre.length (encodedLenAll pre w))

mutual

/-- The fields of a value, in the order in which `collect_copyouts` comes by. -/
def fieldsOf (w : Nat) : Arg → List Field
  | .out slot inner => ⟨[], slot, 0, false⟩ :: (fieldsOf w inner).map Field.nest
  | .struct fields => fieldsOfAll w 0 0 fields
  | .array fields => fieldsOfAll w 0 0 fields
  | .union inner => (fieldsOf w inner).map (Field.step 0 0)
  | _ => []

/-- The fields of values from the `i`-th on, with the bytes in front of that. -/
def fieldsOfAll (w : Nat) (i front : Nat) : List Arg → List Field
  | [] => []
  | f :: fs => (fieldsOf w f).map (Field.step i front) ++ fieldsOfAll w (i + 1) (front + encodedLen f w) fs

end

/-- The entry of a field, in an object at an address. -/
def Field.copyout (base : U64) (x : Field) : Copyout := ⟨x.slot, base + BitVec.ofNat 64 x.off, resWidth⟩

mutual

theorem collectCopyouts_eq (w : Nat) : ∀ (a : Arg) (base : U64),
    collectCopyouts w a base = (fieldsOf w a).map (Field.copyout base)
  | .out slot inner, base => by
    rw [collectCopyouts, collectCopyouts_eq w inner, fieldsOf, map_cons, map_map]
    simp [Field.copyout, Field.nest, Field.step, Function.comp_def]
  | .struct fs, base | .array fs, base => by
    have h := collectCopyoutsAll_eq w fs 0 0 base
    rw [BitVec.add_zero] at h
    rw [collectCopyouts, h, fieldsOf]
  | .union inner, base => by
    rw [collectCopyouts, collectCopyouts_eq w inner, fieldsOf, map_map]
    simp [Field.copyout, Field.step, Function.comp_def]
  | .int _, _ | .res .., _ | .ptr .., _ | .data _, _ | .csum, _ | .nil, _ => rfl

theorem collectCopyoutsAll_eq (w : Nat) : ∀ (fs : List Arg) (i front : Nat) (base : U64),
    collectCopyoutsAll w fs (base + BitVec.ofNat 64 front) = (fieldsOfAll w i front fs).map (Field.copyout base)
  | [], _, _, _ => rfl
  | f :: fs, i, front, base => by
    rw [collectCopyoutsAll, collectCopyouts_eq w f, BitVec.add_assoc, ← BitVec.ofNat_add,
      collectCopyoutsAll_eq w fs (i + 1), fieldsOfAll, map_append, map_map]
    simp [Field.copyout, Field.step, Function.comp_def, BitVec.ofNat_add, BitVec.add_assoc]

end

/-- The fields of values are those of each, seen from one step further out. -/
theorem mem_fieldsOfAll {x : Field} {i front : Nat} :
    x ∈ fieldsOfAll w i front fs ↔ ∃ pre f post y, fs = pre ++ f :: post ∧ y ∈ fieldsOf w f ∧
      x = y.step (i + pre.length) (front + encodedLenAll pre w) := by
  induction fs generalizing i front with
  | nil => simp [fieldsOfAll]
  | cons g fs ih =>
    rw [fieldsOfAll, mem_append, mem_map, ih]
    constructor
    · rintro (⟨y, hy, rfl⟩ | ⟨pre, f, post, y, rfl, hy, rfl⟩)
      · exact ⟨[], g, fs, y, rfl, hy, rfl⟩
      · refine ⟨g :: pre, f, post, y, rfl, hy, ?_⟩
        rw [length_cons, encodedLenAll, Nat.add_assoc, Nat.add_comm 1, Nat.add_assoc]
    · rintro ⟨pre, f, post, y, hfs, hy, rfl⟩
      cases pre with
      | nil =>
        obtain ⟨rfl, rfl⟩ := cons.inj hfs
        exact .inl ⟨y, hy, rfl⟩
      | cons g' pre =>
        obtain ⟨rfl, rfl⟩ := cons.inj hfs
        refine .inr ⟨pre, f, post, y, rfl, hy, ?_⟩
        rw [length_cons, encodedLenAll, Nat.add_assoc, Nat.add_comm 1, Nat.add_assoc]

mutual

theorem hasField_of_mem (w : Nat) : ∀ (a : Arg) (x : Field), x ∈ fieldsOf w a → HasField w a x
  | .out slot inner, x, h => by
    rcases mem_cons.mp h with rfl | h
    · exact .here
    · obtain ⟨y, hy, rfl⟩ := mem_map.mp h
      exact .inside (hasField_of_mem w inner y hy)
  | .struct fs, x, h => by
    have hall := hasField_of_mem_all w fs
    obtain ⟨pre, f, post, y, rfl, hy, rfl⟩ := mem_fieldsOfAll.mp h
    rw [Nat.zero_add, Nat.zero_add]
    exact .struct (hall f (mem_append_right _ mem_cons_self) y hy)
  | .array fs, x, h => by
    have hall := hasField_of_mem_all w fs
    obtain ⟨pre, f, post, y, rfl, hy, rfl⟩ := mem_fieldsOfAll.mp h
    rw [Nat.zero_add, Nat.zero_add]
    exact .array (hall f (mem_append_right _ mem_cons_self) y hy)
  | .union inner, x, h => by
    obtain ⟨y, hy, rfl⟩ := mem_map.mp h
    exact .union (hasField_of_mem w inner y hy)
  | .int _, _, h | .res .., _, h | .ptr .., _, h | .data _, _, h | .csum, _, h | .nil, _, h => nomatch h

theorem hasField_of_mem_all (w : Nat) : ∀ (fs : List Arg), ∀ f ∈ fs, ∀ x ∈ fieldsOf w f, HasField w f x
  | [], f, hf, _, _ => nomatch hf
  | g :: gs, f, hf, x, hx => by
    rcases mem_cons.mp hf with hfg | hf
    · rw [hfg] at hx ⊢
      exact hasField_of_mem w g x hx
    · exact hasField_of_mem_all w gs f hf x hx

end

theorem mem_fieldsOf {x : Field} : x ∈ fieldsOf w a ↔ HasField w a x := by
  refine ⟨hasField_of_mem w a x, fun h => ?_⟩
  induction h with
  | here => exact mem_cons_self
  | inside _ ih => exact mem_cons_of_mem _ (mem_map_of_mem ih)
  | union _ ih => exact mem_map_of_mem ih
  | @struct pre f post x _ ih | @array pre f post x _ ih =>
    refine mem_fieldsOfAll.mpr ⟨pre, f, post, x, rfl, ih, ?_⟩
    rw [Nat.zero_add, Nat.zero_add]

mutual

/-- Each field has its own way. -/
theorem nodup_paths (w : Nat) : ∀ a : Arg, ((fieldsOf w a).map Field.path).Nodup
  | .out slot inner => by
    rw [fieldsOf, map_cons, nodup_cons, map_map]
    refine ⟨fun h => ?_, ?_⟩
    · obtain ⟨x, _, hx⟩ := mem_map.mp h
      cases hx
    · have h := (nodup_paths w inner).map (f := cons 0) cons_injective
      rwa [map_map] at h
  | .struct fs | .array fs => (nodup_paths_all w fs 0 0).1
  | .union inner => by
    have h := (nodup_paths w inner).map (f := cons 0) cons_injective
    rw [map_map] at h
    rw [fieldsOf, map_map]
    exact h
  | .int _ | .res .. | .ptr .. | .data _ | .csum | .nil => .nil

theorem nodup_paths_all (w : Nat) : ∀ (fs : List Arg) (i front : Nat), ((fieldsOfAll w i front fs).map Field.path).Nodup ∧
    ∀ x ∈ fieldsOfAll w i front fs, ∃ k p, i ≤ k ∧ x.path = k :: p
  | [], _, _ => ⟨.nil, nofun⟩
  | f :: fs, i, front => by
    obtain ⟨hnodup, hbehind⟩ := nodup_paths_all w fs (i + 1) (front + encodedLen f w)
    have hfirst := (nodup_paths w f).map (f := cons i) cons_injective
    rw [map_map] at hfirst
    rw [fieldsOfAll, map_append, map_map]
    refine ⟨nodup_append.mpr ⟨hfirst, hnodup, fun p hp q hq heq => ?_⟩, fun x hx => ?_⟩
    · obtain ⟨y, _, rfl⟩ := mem_map.mp hp
      obtain ⟨x, hx, rfl⟩ := mem_map.mp hq
      obtain ⟨k, r, hk, hpath⟩ := hbehind x hx
      rw [hpath] at heq
      obtain ⟨rfl, _⟩ := cons.inj (show i :: y.path = k :: r from heq)
      omega
    · rcases mem_append.mp hx with hx | hx
      · obtain ⟨y, _, rfl⟩ := mem_map.mp hx
        exact ⟨i, y.path, Nat.le_refl i, rfl⟩
      · obtain ⟨k, p, hk, hpath⟩ := hbehind x hx
        exact ⟨k, p, Nat.le_of_succ_le hk, hpath⟩

end

mutual

/-- What has no bytes has none at any width. -/
theorem encodedLen_zero (w : Nat) : ∀ a : Arg, encodedLen a resWidth = 0 → encodedLen a w = 0
  | .struct fs, h | .array fs, h => encodedLenAll_zero w fs h
  | .union inner, h => encodedLen_zero w inner h
  | .data _, h => h
  | .int _, h | .res .., h | .ptr .., h | .csum, h | .out .., h | .nil, h => by simp [encodedLen, resWidth] at h

theorem encodedLenAll_zero (w : Nat) : ∀ fs : List Arg, encodedLenAll fs resWidth = 0 → encodedLenAll fs w = 0
  | [], _ => rfl
  | f :: fs, h => by
    rw [encodedLenAll] at h ⊢
    rw [encodedLen_zero w f (by omega), encodedLenAll_zero w fs (by omega)]

end

/-- What stands in front of a field that is written has the bytes that are counted: `encode` has the same width, or, inside
a `<rN=>`, nothing is in front. -/
private theorem length_encodeAll_of {w' : Nat} (h : w' = w ∨ w' = resWidth ∧ (encodeAll ctx fs w').length + d = 0) :
    (encodeAll ctx fs w').length = encodedLenAll fs w := by
  rcases h with rfl | ⟨rfl, hz⟩
  · exact length_encodeAll ctx fs w'
  · have hnone := (Nat.add_eq_zero_iff.mp hz).1
    rw [hnone, encodedLenAll_zero w fs (by rw [← length_encodeAll ctx, hnone])]

/-- A field that is written is counted at its offset. -/
theorem FieldAt.hasField {w' : Nat} (h : FieldAt ctx a w' slot d) (hw : w' = w ∨ w' = resWidth ∧ d = 0) :
    ∃ path nested, HasField w a ⟨path, slot, d, nested⟩ := by
  induction h with
  | here => exact ⟨_, _, .here⟩
  | inside _ hd ih =>
    obtain rfl := Nat.le_zero.mp (Nat.le_of_add_le_add_right (hd.trans (Nat.zero_add _).ge))
    obtain ⟨path, nested, hfield⟩ := ih (.inr ⟨rfl, rfl⟩)
    exact ⟨_, _, .inside hfield⟩
  | union _ ih =>
    obtain ⟨path, nested, hfield⟩ := ih hw
    have hmem := HasField.union hfield
    rw [Field.step, Nat.zero_add] at hmem
    exact ⟨_, _, hmem⟩
  | struct _ ih =>
    obtain ⟨path, nested, hfield⟩ := ih (hw.imp_right fun h => ⟨h.1, (Nat.add_eq_zero_iff.mp h.2).2⟩)
    rw [length_encodeAll_of hw]
    exact ⟨_, _, .struct hfield⟩
  | array _ ih =>
    obtain ⟨path, nested, hfield⟩ := ih (hw.imp_right fun h => ⟨h.1, (Nat.add_eq_zero_iff.mp h.2).2⟩)
    rw [length_encodeAll_of hw]
    exact ⟨_, _, .array hfield⟩

/-- Outside of other `<rN=>` the counted offset is where the field is. -/
theorem HasField.fieldAt {x : Field} (ctx : Ctx) (h : HasField w a x) (hx : x.nested = false) :
    FieldAt ctx a w x.slot x.off := by
  induction h with
  | here => exact .here
  | inside => cases hx
  | union _ ih =>
    rw [Field.step, Nat.zero_add]
    exact .union (ih hx)
  | struct _ ih =>
    rw [Field.step, ← length_encodeAll ctx]
    exact .struct (ih hx)
  | array _ ih =>
    rw [Field.step, ← length_encodeAll ctx]
    exact .array (ih hx)

/-! ## A call's fields -/

/-- The object of an argument that is itself a pointer. -/
def Arg.direct (a : Arg) : List (U64 × Arg) := a.object?.toList

/-- The other objects of an argument: those behind a second pointer, and all of them where the pointer
is in a union or a `<rN=>`. -/
def Arg.hidden : Arg → List (U64 × Arg)
  | .ptr _ (some inner) => inner.nodes.filterMap Arg.object?
  | a => a.objects

theorem Arg.objects_eq (a : Arg) : a.objects = a.direct ++ a.hidden := by
  cases a with
  | ptr addr inner =>
    cases inner with
    | none => rfl
    | some inner => simp [Arg.objects, Arg.target, Arg.direct, Arg.hidden, Arg.object?]
  | _ => rfl

def Call.direct (c : Call) : List (U64 × Arg) := (c.args.take maxArgs).flatMap Arg.direct

def Call.hidden (c : Call) : List (U64 × Arg) := (c.args.take maxArgs).flatMap Arg.hidden

theorem Call.mem_objects {c : Call} {o : U64 × Arg} : o ∈ c.objects ↔ o ∈ c.direct ∨ o ∈ c.hidden := by
  simp only [Call.objects, Call.direct, Call.hidden, mem_flatMap, Arg.objects_eq, mem_append]
  constructor
  · rintro ⟨a, ha, h | h⟩
    · exact .inl ⟨a, ha, h⟩
    · exact .inr ⟨a, ha, h⟩
  · rintro (⟨a, ha, h⟩ | ⟨a, ha, h⟩)
    · exact ⟨a, ha, .inl h⟩
    · exact ⟨a, ha, .inr h⟩

/-- Argument `i` of the call is a pointer to this value. -/
def Call.PointsTo (c : Call) (i : Nat) (addr : U64) (inner : Arg) : Prop :=
  (c.args.take maxArgs)[i]? = some (.ptr addr (some inner))

/-- The pointee of argument `i` has a field, and this is its slot and the address counted for it. -/
def Call.Counts (w : Nat) (c : Call) (i : Nat) (x : Field) (f : U64 × U64) : Prop :=
  ∃ addr inner, c.PointsTo i addr inner ∧ HasField w inner x ∧ f = (x.slot, addr + BitVec.ofNat 64 x.off)

/-- A field of the slot is written to the address: its bytes are among those kept of an object. -/
def Written (w : Nat) (a : Arena) (ctx : Ctx) (os : List (U64 × Arg)) (f : U64 × U64) : Prop :=
  ∃ o ∈ os, ∃ d, FieldAt ctx o.2 w f.1 d ∧ d + resWidth ≤ (a.kept o.1 (image w ctx o.2)).length ∧
    f.2 = o.1 + BitVec.ofNat 64 d

/-- The fields of an argument that is itself a pointer, with the number of the argument and the address of the pointee. -/
def Arg.counted (w : Nat) (a : Arg) (i : Nat) : List (Nat × U64 × Field) :=
  match a with
  | .ptr addr (some inner) => (fieldsOf w inner).map fun x => (i, addr, x)
  | _ => []

/-- The fields of the arguments from the `i`-th on. -/
def countedAll (w : Nat) : Nat → List Arg → List (Nat × U64 × Field)
  | _, [] => []
  | i, a :: as => a.counted w i ++ countedAll w (i + 1) as

theorem prepareAll_copyouts (w : Nat) (ctx : Ctx) (args : List Arg) (a : Arena) (i : Nat) :
    (prepareAll w ctx args a).1.copyouts = (countedAll w i args).map fun y => y.2.2.copyout y.2.1 := by
  induction args generalizing a i with
  | nil => rfl
  | cons arg args ih =>
    have harg : argCopyouts w arg = (arg.counted w i).map fun y => y.2.2.copyout y.2.1 := by
      cases arg with
      | ptr addr inner =>
        cases inner with
        | none => rfl
        | some inner =>
          rw [argCopyouts, Arg.counted, collectCopyouts_eq, map_map]
          rfl
      | _ => rfl
    rw [countedAll, map_append, ← ih (copyin w ctx arg a).2, ← harg]
    rfl

theorem mem_countedAll {y : Nat × U64 × Field} {args : List Arg} {i : Nat} :
    y ∈ countedAll w i args ↔ ∃ k inner, y.1 = i + k ∧ args[k]? = some (.ptr y.2.1 (some inner)) ∧ HasField w inner y.2.2 := by
  induction args generalizing i with
  | nil => simp [countedAll]
  | cons arg args ih =>
    have harg : y ∈ arg.counted w i ↔ ∃ inner, y.1 = i ∧ arg = .ptr y.2.1 (some inner) ∧ HasField w inner y.2.2 := by
      unfold Arg.counted
      split
      next addr inner =>
        rw [mem_map]
        constructor
        · rintro ⟨x, hx, rfl⟩
          exact ⟨inner, rfl, rfl, mem_fieldsOf.mp hx⟩
        · rintro ⟨inner', hi, harg, hx⟩
          cases harg
          exact ⟨y.2.2, mem_fieldsOf.mpr hx, by rw [← hi]⟩
      next hne =>
        refine iff_of_false (not_mem_nil) ?_
        rintro ⟨inner, -, harg, -⟩
        exact hne _ _ harg
    rw [countedAll, mem_append, harg, ih]
    constructor
    · rintro (⟨inner, hi, rfl, hx⟩ | ⟨k, inner, hi, hk, hx⟩)
      · exact ⟨0, inner, hi, rfl, hx⟩
      · exact ⟨k + 1, inner, by omega, hk, hx⟩
    · rintro ⟨_ | k, inner, hi, hk, hx⟩
      · exact .inl ⟨inner, hi, Option.some.inj hk, hx⟩
      · exact .inr ⟨k, inner, by omega, hk, hx⟩

/-- No two of them have the number of the argument and the way in common. -/
theorem nodup_countedAll (w : Nat) (i : Nat) (args : List Arg) :
    ((countedAll w i args).map fun y => (y.1, y.2.2.path)).Nodup := by
  induction args generalizing i with
  | nil => exact .nil
  | cons arg args ih =>
    rw [countedAll, map_append, nodup_append]
    refine ⟨?_, ih (i + 1), fun p hp q hq => ?_⟩
    · unfold Arg.counted
      split
      next addr inner =>
        have h := (nodup_paths w inner).map (f := fun p => (i, p)) fun p q heq => (Prod.mk.inj heq).2
        rwa [map_map] at h ⊢
      next => exact .nil
    · obtain ⟨y, hy, rfl⟩ := mem_map.mp hp
      obtain ⟨z, hz, rfl⟩ := mem_map.mp hq
      obtain ⟨k, _, hk, -⟩ := mem_countedAll.mp hz
      have hi : y.1 = i := by
        unfold Arg.counted at hy
        split at hy
        · obtain ⟨x, _, rfl⟩ := mem_map.mp hy
          rfl
        · cases hy
      intro heq
      have := (Prod.mk.inj heq).1
      omega

/-- The fields of a call that are recorded. -/
def Call.counted (w : Nat) (c : Call) : List (Nat × U64 × Field) := countedAll w 0 (c.args.take maxArgs)

/-- The slots of these fields, each with its address. -/
def Call.recorded (w : Nat) (c : Call) : List (U64 × U64) :=
  (c.counted w).map fun y => (y.2.2.slot, y.2.1 + BitVec.ofNat 64 y.2.2.off)

theorem prepareArgs_copyouts (w : Nat) (a : Arena) (c : Call) (ctx : Ctx) :
    (prepareArgs w a c ctx).1.copyouts = (c.recorded w).map fun f => ⟨f.1, f.2, resWidth⟩ := by
  rw [Call.recorded, map_map]
  exact prepareAll_copyouts w ctx _ a 0

/-- The field has this slot and stands at this address. -/
def standsAt (f : U64 × U64) (y : Nat × U64 × Field) : Bool :=
  decide (y.2.2.slot = f.1 ∧ y.2.1 + BitVec.ofNat 64 y.2.2.off = f.2)

theorem Call.counts_iff {c : Call} {i : Nat} {x : Field} {f : U64 × U64} :
    c.Counts w i x f ↔ ∃ y ∈ c.counted w, (y.1 = i ∧ y.2.2 = x) ∧ standsAt f y = true := by
  constructor
  · rintro ⟨addr, inner, hptr, hx, rfl⟩
    exact ⟨(i, addr, x), mem_countedAll.mpr ⟨i, inner, (Nat.zero_add i).symm, hptr, hx⟩, ⟨rfl, rfl⟩, decide_eq_true ⟨rfl, rfl⟩⟩
  · rintro ⟨⟨_, addr, _⟩, hy, ⟨rfl, rfl⟩, hf⟩
    obtain ⟨k, inner, hk, hptr, hx⟩ := mem_countedAll.mp hy
    obtain rfl := hk.trans (Nat.zero_add k)
    obtain ⟨hslot, haddr⟩ := of_decide_eq_true hf
    exact ⟨addr, inner, hptr, hx, Prod.ext hslot.symm haddr.symm⟩

/-- Where no two elements have one key, at most one has a property just if those that have it have one key. -/
theorem countP_le_one_iff {α κ : Type*} {l : List α} {key : α → κ} (hkeys : (l.map key).Nodup) (P : α → Bool) :
    l.countP P ≤ 1 ↔ ∀ x ∈ l, ∀ y ∈ l, P x = true → P y = true → key x = key y := by
  have hnodup : (l.filter P).Nodup := (Nodup.of_map key hkeys).filter P
  have hmem : ∀ x, x ∈ l.filter P ↔ x ∈ l ∧ P x = true := fun x => mem_filter
  rw [countP_eq_length_filter]
  cases hfilter : l.filter P with
  | nil =>
    refine iff_of_true (Nat.zero_le 1) fun x hx y _ hpx _ => ?_
    have hnil := (hmem x).mpr ⟨hx, hpx⟩
    rw [hfilter] at hnil
    cases hnil
  | cons z rest =>
    rw [hfilter] at hnodup hmem
    cases rest with
    | nil =>
      refine iff_of_true (Nat.le_refl 1) fun x hx y hy hpx hpy => ?_
      rw [mem_singleton.mp ((hmem x).mpr ⟨hx, hpx⟩), mem_singleton.mp ((hmem y).mpr ⟨hy, hpy⟩)]
    | cons z' rest =>
      have hz := (hmem z).mp mem_cons_self
      have hz' := (hmem z').mp (mem_cons_of_mem _ mem_cons_self)
      refine iff_of_false (by rw [length_cons, length_cons]; omega) fun h => ?_
      have hsame := inj_on_of_nodup_map hkeys hz.1 hz'.1 (h z hz.1 z' hz'.1 hz.2 hz'.2)
      exact (nodup_cons.mp hnodup).1 (hsame ▸ mem_cons_self)

section

variable {a : Arena} {c : Call}

variable (w a ctx c) in
/-- The entries with a slot and an address are those of the fields that stand there. -/
theorem countP_copyouts (f : U64 × U64) :
    (prepareArgs w a c ctx).1.copyouts.countP (fun e => e.slot = f.1 ∧ e.off = f.2) = (c.counted w).countP (standsAt f) := by
  rw [prepareArgs_copyouts, Call.recorded, countP_map, countP_map]
  rfl

theorem Call.countP_pos_iff {f : U64 × U64} : 0 < (c.counted w).countP (standsAt f) ↔ ∃ i x, c.Counts w i x f := by
  rw [List.countP_pos_iff]
  constructor
  · rintro ⟨y, hy, hf⟩
    exact ⟨y.1, y.2.2, Call.counts_iff.mpr ⟨y, hy, ⟨rfl, rfl⟩, hf⟩⟩
  · rintro ⟨i, x, h⟩
    obtain ⟨y, hy, -, hf⟩ := Call.counts_iff.mp h
    exact ⟨y, hy, hf⟩

theorem Call.countP_le_one_iff {f : U64 × U64} : (c.counted w).countP (standsAt f) ≤ 1 ↔
    ∀ i x j y, c.Counts w i x f → c.Counts w j y f → i = j ∧ x.path = y.path := by
  have hkeys : ((c.counted w).map fun y => (y.1, y.2.2.path)).Nodup := nodup_countedAll w 0 _
  rw [Fuzz.countP_le_one_iff hkeys]
  constructor
  · intro h i x j y hx hy
    obtain ⟨p, hp, ⟨rfl, rfl⟩, hpf⟩ := Call.counts_iff.mp hx
    obtain ⟨q, hq, ⟨rfl, rfl⟩, hqf⟩ := Call.counts_iff.mp hy
    exact Prod.mk.inj (h p hp q hq hpf hqf)
  · intro h p hp q hq hpf hqf
    exact Prod.ext_iff.mpr (h _ _ _ _ (Call.counts_iff.mpr ⟨p, hp, ⟨rfl, rfl⟩, hpf⟩)
      (Call.counts_iff.mpr ⟨q, hq, ⟨rfl, rfl⟩, hqf⟩))

theorem Call.mem_direct {o : U64 × Arg} : o ∈ c.direct ↔ ∃ i, c.PointsTo i o.1 o.2 := by
  rw [Call.direct, mem_flatMap]
  constructor
  · rintro ⟨arg, harg, ho⟩
    obtain ⟨i, hi⟩ := mem_iff_getElem?.mp harg
    refine ⟨i, hi.trans ?_⟩
    cases arg with
    | ptr addr inner =>
      cases inner with
      | none => cases ho
      | some inner => cases mem_singleton.mp ho; rfl
    | _ => cases ho
  · rintro ⟨i, hi⟩
    exact ⟨_, mem_of_getElem? hi, mem_singleton_self _⟩

/-- What is written in a pointee of an argument is counted there. -/
theorem Written.counts {f : U64 × U64} (h : Written w a ctx c.direct f) : ∃ i x, c.Counts w i x f := by
  obtain ⟨o, ho, d, hfield, -, haddr⟩ := h
  obtain ⟨i, hi⟩ := Call.mem_direct.mp ho
  obtain ⟨path, nested, hhas⟩ := hfield.hasField (.inl rfl)
  exact ⟨i, _, o.1, o.2, hi, hhas, Prod.ext rfl haddr⟩

theorem written_objects_iff {f : U64 × U64} :
    Written w a ctx c.objects f ↔ Written w a ctx c.direct f ∨ Written w a ctx c.hidden f := by
  simp only [Written, Call.mem_objects]
  constructor
  · rintro ⟨o, ho | ho, h⟩
    · exact .inl ⟨o, ho, h⟩
    · exact .inr ⟨o, ho, h⟩
  · rintro (⟨o, ho, h⟩ | ⟨o, ho, h⟩)
    · exact ⟨o, .inl ho, h⟩
    · exact ⟨o, .inr ho, h⟩

end

/-- The entries of the pointees stay in their objects where those of fields inside another `<rN=>` do. -/
theorem Call.entries_inside_iff (w : Nat) (c : Call) (ctx : Ctx) :
    (∀ o ∈ c.direct, ∀ e ∈ collectCopyouts w o.2 o.1,
        ∃ d, e.off = o.1 + BitVec.ofNat 64 d ∧ d + e.size ≤ encodedLen o.2 w) ↔
      ∀ i addr inner x, c.PointsTo i addr inner → HasField w inner x → x.nested = true →
        x.off % 2 ^ 64 + resWidth ≤ encodedLen inner w := by
  constructor
  · intro h i addr inner x hptr hx _
    have hmem : x.copyout addr ∈ collectCopyouts w inner addr := by
      rw [collectCopyouts_eq]
      exact mem_map_of_mem (mem_fieldsOf.mpr hx)
    obtain ⟨d, hoff, hd⟩ := h (addr, inner) (Call.mem_direct.mpr ⟨i, hptr⟩) _ hmem
    have hmod : x.off % 2 ^ 64 = d % 2 ^ 64 := by
      simpa using congrArg BitVec.toNat ((BitVec.add_right_inj addr).mp hoff)
    rw [hmod]
    exact le_trans (Nat.add_le_add_right (Nat.mod_le d _) _) hd
  · intro h o ho e he
    obtain ⟨i, hptr⟩ := Call.mem_direct.mp ho
    rw [collectCopyouts_eq] at he
    obtain ⟨x, hx, rfl⟩ := mem_map.mp he
    rw [mem_fieldsOf] at hx
    refine ⟨x.off % 2 ^ 64, ?_, ?_⟩
    · refine congrArg (o.1 + ·) (BitVec.eq_of_toNat_eq ?_)
      simp
    · cases hnested : x.nested with
      | true => exact h i o.1 o.2 x hptr hx hnested
      | false =>
        have hbound := (hx.fieldAt ctx hnested).bound
        rw [length_encode] at hbound
        exact (Nat.add_le_add_right (Nat.mod_le _ _) _).trans hbound

/-- Every field that is written has exactly one entry with its slot and address, and no entry reaches
out of its object, exactly when each written field of a hidden object stands where one is counted that
lies in the pointee of an argument, no two different fields of such pointees have the slot and the
address of a written one, and no field inside another `<rN=>` is counted past the end of its pointee. -/
theorem copyouts_exact_iff (w : Nat) (a : Arena) (c : Call) (ctx : Ctx) :
    let entries := (prepareArgs w a c ctx).1.copyouts
    ((∀ f, Written w a ctx c.objects f → entries.countP (fun e => e.slot = f.1 ∧ e.off = f.2) = 1) ∧
      ∀ o ∈ c.direct, ∀ e ∈ collectCopyouts w o.2 o.1,
        ∃ d, e.off = o.1 + BitVec.ofNat 64 d ∧ d + e.size ≤ encodedLen o.2 w) ↔
    (∀ f, Written w a ctx c.hidden f → ∃ i x, c.Counts w i x f) ∧
      (∀ f, Written w a ctx c.objects f → ∀ i x j y, c.Counts w i x f → c.Counts w j y f → i = j ∧ x.path = y.path) ∧
      ∀ i addr inner x, c.PointsTo i addr inner → HasField w inner x → x.nested = true →
        x.off % 2 ^ 64 + resWidth ≤ encodedLen inner w := by
  intro entries
  have hcount := countP_copyouts w ctx a c
  have hinside := c.entries_inside_iff w ctx
  constructor
  · rintro ⟨hone, hin⟩
    refine ⟨fun f hf => Call.countP_pos_iff.mp ?_, fun f hf => Call.countP_le_one_iff.mp ?_, hinside.mp hin⟩
    · rw [← hcount, hone f (written_objects_iff.mpr (.inr hf))]
      exact Nat.one_pos
    · rw [← hcount]
      exact (hone f hf).le
  · rintro ⟨hhidden, hunique, hin⟩
    refine ⟨fun f hf => (hcount f).trans (le_antisymm ?_ ?_), hinside.mpr hin⟩
    · exact Call.countP_le_one_iff.mpr (hunique f hf)
    · exact Call.countP_pos_iff.mpr ((written_objects_iff.mp hf).elim Written.counts (hhidden f))

/-- `pipe(&(0x7f0000000040)={&(0x7f0000000080)=<r0=>0x0})` as decoded: a produced field behind a second
pointer. -/
def hiddenField : Call where
  name := []
  base := []
  nr := none
  args := [.ptr 0x40#64 (some (.struct [.ptr 0x80#64 (some (.out 0#64 (.int 0#64)))]))]
  res := none
  failNth := none
  isAsync := false

/-- It is written and not recorded. -/
theorem hiddenField_unrecorded :
    Written 8 Arena.map Ctx.new hiddenField.objects (0#64, 0x80#64) ∧
      (prepareArgs 8 Arena.map hiddenField Ctx.new).1.copyouts.countP
        (fun e => e.slot = 0#64 ∧ e.off = 0x80#64) ≠ 1 := by
  refine ⟨⟨(0x80#64, .out 0#64 (.int 0#64)), mem_cons_of_mem _ mem_cons_self, 0, .here, ?_, rfl⟩, ?_⟩
  · decide +kernel
  · decide +kernel

end Vock.Fuzz
