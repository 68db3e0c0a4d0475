import Vock.Fuzz.ProgExec
import Vock.Laws.Fuzz.Copyouts

/-!
# Overlapped calls and the flow of data

A run is compared with the calls taken one after the other (`sequential`). All that `prepare_args`
takes from the context are the values it substitutes (`prepareArgs_congr`), so it is enough that the
context agrees on the slots that are still waited for, and the memory outside what the overlapped
calls write. `Undisturbed` says when a program keeps to that; then every run substitutes what the
sequential one does, whatever the threads' completion order (`overlap_keeps_values`).

`result_used_later` looks at the slot of the return value only. A call whose `<rN=>` field feeds a
later one may be overlapped, and then the field is never read back (`overlap_loses_field`).
-/

namespace Vock.Fuzz

open Library List

variable {call : Call} {n : Nat} {ctx ctx' : Ctx} {s : State} {slot : U64} {a : Arg} {fs : List Arg}
  {r : U64 × U64 × U64} {w : Nat} {opts : Opts} {prog : Prog} {kernel : Kernel}

/-! ## What a call takes from the context -/

/-- The references in a tree. -/
def Arg.held (a : Arg) : List (U64 × U64 × U64) := a.nodes.filterMap Arg.resource?

/-- The contexts resolve these references alike. -/
def Ctx.SameOn (ctx ctx' : Ctx) (rs : List (U64 × U64 × U64)) : Prop :=
  ∀ r ∈ rs, ctx.resolve r.1 r.2.1 r.2.2 = ctx'.resolve r.1 r.2.1 r.2.2

theorem substituted_eq_iff :
    substituted ctx call = substituted ctx' call ↔ ctx.SameOn ctx' call.resources := map_inj_left

theorem Ctx.resolve_congr {idx : U64} (h : ctx.res idx = ctx'.res idx) (div add : U64) :
    ctx.resolve idx div add = ctx'.resolve idx div add := by
  rw [Ctx.resolve, h, Ctx.resolve]

theorem Ctx.SameOn.append {rs rs' : List (U64 × U64 × U64)} (h : ctx.SameOn ctx' (rs ++ rs')) :
    ctx.SameOn ctx' rs ∧ ctx.SameOn ctx' rs' :=
  ⟨fun r hr => h r (mem_append_left _ hr), fun r hr => h r (mem_append_right _ hr)⟩

section

variable {ctx ctx' : Ctx}

mutual

theorem encode_congr : ∀ a : Arg, ctx.SameOn ctx' a.held → ∀ w, encode ctx a w = encode ctx' a w
  | .res idx div add, h, w => congrArg (leBytes w) (h (idx, div, add) mem_cons_self)
  | .struct fs, h, w | .array fs, h, w => encodeAll_congr fs h w
  | .union inner, h, w => by rw [encode_union, encode_union, encode_congr inner h]
  | .out _ inner, h, w => by rw [encode_out, encode_out, encode_congr inner h]
  | .int _, _, w | .ptr .., _, w | .data _, _, w | .csum, _, w | .nil, _, w => by simp [encode]

theorem encodeAll_congr : ∀ fs : List Arg, ctx.SameOn ctx' ((Arg.nodesAll fs).filterMap Arg.resource?) → ∀ w,
    encodeAll ctx fs w = encodeAll ctx' fs w
  | [], _, _ => rfl
  | f :: fs, h, w => by
    rw [Arg.nodesAll, filterMap_append] at h
    rw [encodeAll, encode_congr f h.append.1, encodeAll_congr fs h.append.2, encodeAll]

end

theorem image_congr (h : ctx.SameOn ctx' a.held) (w : Nat) : image w ctx a = image w ctx' a := by
  rw [image, encode_congr a h, image]

mutual

theorem layOutNested_congr (w : Nat) : ∀ a : Arg, ctx.SameOn ctx' a.held → ∀ arena,
    layOutNested w ctx a arena = layOutNested w ctx' a arena
  | .ptr _ (some inner), h, arena => by
    rw [layOutNested, layOutNested, layOutNested_congr w inner h, image_congr (show ctx.SameOn ctx' inner.held from h)]
  | .struct fs, h, arena | .array fs, h, arena => layOutNestedAll_congr w fs h arena
  | .union inner, h, arena | .out _ inner, h, arena => by
    rw [layOutNested, layOutNested, layOutNested_congr w inner h]
  | .int _, _, _ | .res .., _, _ | .ptr _ none, _, _ | .data _, _, _ | .csum, _, _ | .nil, _, _ => rfl

theorem layOutNestedAll_congr (w : Nat) : ∀ fs : List Arg, ctx.SameOn ctx' ((Arg.nodesAll fs).filterMap Arg.resource?) →
    ∀ arena, layOutNestedAll w ctx fs arena = layOutNestedAll w ctx' fs arena
  | [], _, _ => rfl
  | f :: fs, h, arena => by
    rw [Arg.nodesAll, filterMap_append] at h
    rw [layOutNestedAll, layOutNested_congr w f h.append.1, layOutNestedAll_congr w fs h.append.2, layOutNestedAll]

end

theorem copyin_congr (h : ctx.SameOn ctx' a.resources) (w : Nat) (arena : Arena) :
    copyin w ctx a arena = copyin w ctx' a arena := by
  induction a with
  | res idx div add =>
    rw [copyin, copyin, h (idx, div, add) mem_cons_self]
  | ptrSome addr inner =>
    have hinner : ctx.SameOn ctx' inner.held := h
    rw [copyin, copyin, layOutNested_congr w inner hinner, image_congr hinner]
  | union inner ih | out slot inner ih => rw [copyin, copyin, ih h]
  | int | ptrNone | data | csum | nil | struct | array => rfl

private theorem prepareAll_congr {args : List Arg} (h : ctx.SameOn ctx' (args.flatMap Arg.resources)) (w : Nat)
    (arena : Arena) : prepareAll w ctx args arena = prepareAll w ctx' args arena := by
  induction args generalizing arena with
  | nil => rfl
  | cons arg args ih =>
    simp [prepareAll, copyin_congr h.append.1, ih h.append.2]

/-- `prepare_args` takes nothing from the context but the values it substitutes. -/
theorem prepareArgs_congr (h : substituted ctx call = substituted ctx' call) (w : Nat)
    (arena : Arena) : prepareArgs w arena call ctx = prepareArgs w arena call ctx' := by
  unfold prepareArgs
  rw [prepareAll_congr (substituted_eq_iff.mp h)]

end

/-! ## `references` -/

mutual

/-- `references` finds every reference to the slot in the tree, and nothing else. -/
theorem references_iff (slot : U64) : ∀ a : Arg, references slot a = true ↔ slot ∈ a.nodes.filterMap Arg.ref?
  | .res idx div add => by
    rw [references, beq_iff_eq]
    simp only [Arg.nodes, filterMap_cons, Arg.ref?, filterMap_nil, mem_singleton]
    exact eq_comm
  | .struct fs | .array fs => by simpa [references, Arg.nodes, Arg.ref?] using referencesAny_iff slot fs
  | .ptr _ (some inner) | .union inner | .out _ inner => by
    simpa [references, Arg.nodes, Arg.ref?] using references_iff slot inner
  | .int _ | .ptr _ none | .data _ | .csum | .nil => by simp [references, Arg.nodes, Arg.ref?]

theorem referencesAny_iff (slot : U64) : ∀ fs : List Arg,
    referencesAny slot fs = true ↔ slot ∈ (fs.flatMap Arg.nodes).filterMap Arg.ref?
  | [] => by simp [referencesAny]
  | f :: fs => by
    rw [referencesAny, Bool.or_eq_true, references_iff slot f, referencesAny_iff slot fs, flatMap_cons,
      filterMap_append, mem_append]

end

/-- A reference that is resolved is one of the tree's. -/
theorem Arg.mem_refs_of_resources (h : r ∈ a.resources) : r.1 ∈ a.nodes.filterMap Arg.ref? := by
  induction a with
  | res idx div add =>
    obtain rfl := mem_singleton.mp h
    exact mem_cons_self
  | union inner ih | out slot inner ih => exact ih h
  | ptrSome addr inner =>
    obtain ⟨n, hn, hr⟩ := mem_filterMap.mp (show r ∈ inner.nodes.filterMap Arg.resource? from h)
    refine mem_filterMap.mpr ⟨n, mem_cons_of_mem _ hn, ?_⟩
    cases n with
    | res idx div add => cases hr; rfl
    | _ => cases hr
  | int | ptrNone | data | csum | nil | struct | array => cases h

theorem Call.referencesAny_of_resources {c : Call} (h : r ∈ c.resources) : referencesAny r.1 c.args = true := by
  obtain ⟨a, ha, hr⟩ := mem_flatMap.mp h
  rw [referencesAny_iff, filterMap_flatMap]
  exact mem_flatMap.mpr ⟨a, mem_of_mem_take ha, Arg.mem_refs_of_resources hr⟩

theorem exists_references_of_referencesAny (h : referencesAny slot fs = true) :
    ∃ f ∈ fs, references slot f = true := by
  rw [referencesAny_iff, filterMap_flatMap] at h
  obtain ⟨f, hf, hslot⟩ := mem_flatMap.mp h
  exact ⟨f, hf, (references_iff slot f).mpr hslot⟩

/-- A call that does not refer to a slot is prepared alike whatever the slot holds: its scalars, its fields to read back
and the memory. -/
theorem prepareArgs_of_not_references (w : Nat) (arena : Arena) (call : Call) (slot : U64)
    (hnot : ∀ a ∈ call.args, references slot a = false) {ctx ctx' : Ctx}
    (hsame : ∀ i, i ≠ slot → ctx.res i = ctx'.res i) :
    prepareArgs w arena call ctx = prepareArgs w arena call ctx' := by
  apply prepareArgs_congr
  apply substituted_eq_iff.mpr
  intro r hr
  apply Ctx.resolve_congr
  apply hsame
  rintro rfl
  obtain ⟨a, ha, href⟩ := exists_references_of_referencesAny (Call.referencesAny_of_resources hr)
  exact absurd href (Bool.eq_false_iff.mp (hnot a ha))

/-- A call that refers to slot 1 in a pointee, with two values of slot 0. -/
theorem prepareArgs_of_not_references_pointee :
    prepareArgs 8 .map ⟨[], [], none, [.int 3#64, .ptr 0#64 (some (.struct [.res 1#64 0#64 0#64, .csum]))], none, none, false⟩
        (Ctx.new.set 0#64 5#64) =
      prepareArgs 8 .map ⟨[], [], none, [.int 3#64, .ptr 0#64 (some (.struct [.res 1#64 0#64 0#64, .csum]))], none, none, false⟩
        (Ctx.new.set 0#64 7#64) :=
  prepareArgs_of_not_references 8 .map _ 0#64 (by decide) fun i hi => by simp [Ctx.set, if_neg hi]

/-! ## Reading fields back -/

/-- The field of a slot at an address, as it is recorded. -/
def Copyout.field (f : U64 × U64) : Copyout := ⟨f.1, f.2, resWidth⟩

theorem readBack_res (a : Arena) (ctx : Ctx) (f : U64 × U64) (slot : U64) :
    (readBack a ctx (.field f)).res slot =
      if slot = f.1 ∧ Arena.inRange f.2 resWidth = true then a.readScalar f.2 resWidth else ctx.res slot := by
  have hread : a.readScalar f.2 resWidth = if Arena.inRange f.2 resWidth = true then
      some (leValue ((range resWidth).map fun i => a.mem (f.2.toNat + i))) else none := rfl
  rw [readBack, Copyout.field, hread]
  by_cases hin : Arena.inRange f.2 resWidth = true
  · simp [hin, Ctx.set]
  · rw [if_neg hin, if_neg fun h => hin h.2]

/-- Two rounds of reading back agree on a slot that is filled alike, or that both leave as it was. -/
theorem foldl_readBack_congr {a a' : Arena} {fs : List (U64 × U64)}
    (hread : ∀ f ∈ fs, f.1 = slot → Arena.inRange f.2 resWidth = true →
      a.readScalar f.2 resWidth = a'.readScalar f.2 resWidth)
    (hctx : (∃ f ∈ fs, f.1 = slot ∧ Arena.inRange f.2 resWidth = true) ∨ ctx.res slot = ctx'.res slot) :
    ((fs.map .field).foldl (readBack a) ctx).res slot = ((fs.map .field).foldl (readBack a') ctx').res slot := by
  induction fs generalizing ctx ctx' with
  | nil =>
    rcases hctx with ⟨f, hf, -⟩ | hctx
    · cases hf
    · exact hctx
  | cons f fs ih =>
    refine ih (fun g hg => hread g (mem_cons_of_mem f hg)) ?_
    rw [readBack_res, readBack_res]
    by_cases hf : slot = f.1 ∧ Arena.inRange f.2 resWidth = true
    · rw [if_pos hf, if_pos hf]
      exact .inr (hread f mem_cons_self hf.1.symm hf.2)
    · rw [if_neg hf, if_neg hf]
      rcases hctx with ⟨g, hg, hslot, hin⟩ | hctx
      · rcases mem_cons.mp hg with rfl | hg
        · exact absurd ⟨hslot.symm, hin⟩ hf
        · exact .inl ⟨g, hg, hslot, hin⟩
      · exact .inr hctx

/-- A slot that no readable field has is left as it was. -/
theorem foldl_readBack_keeps {a : Arena} {fs : List (U64 × U64)}
    (h : ∀ f ∈ fs, Arena.inRange f.2 resWidth = true → f.1 ≠ slot) :
    ((fs.map .field).foldl (readBack a) ctx).res slot = ctx.res slot := by
  induction fs generalizing ctx with
  | nil => rfl
  | cons f fs ih =>
    refine (ih fun g hg => h g (mem_cons_of_mem f hg)).trans ?_
    rw [readBack_res, if_neg fun hf => h f mem_cons_self hf.2 hf.1.symm]

theorem publish_res (call : Call) (ret : U64) (ctx : Ctx) (slot : U64) :
    (publish call ret ctx).res slot = if call.res = some slot then some ret else ctx.res slot := by
  unfold publish
  cases call.res with
  | none => simp
  | some s => simp [Ctx.set, eq_comm]

/-! ## Slots that are waited for -/

namespace Flow

section

variable (w opts prog kernel)

/-- Call `i` is waited for, and fills the slot by its return value or by a field that is read back. -/
def Fills (i : Nat) (slot : U64) : Prop :=
  overlaps opts prog i = false ∧ ∃ call, prog.calls[i]? = some call ∧
    (call.res = some slot ∨ ∃ f ∈ call.recorded w, f.1 = slot ∧ Arena.inRange f.2 resWidth = true)

/-- From call `n` on the slot is used before it is filled. -/
def Awaited (n : Nat) (slot : U64) : Prop :=
  ∃ k call, n ≤ k ∧ prog.calls[k]? = some call ∧ (∃ r ∈ call.resources, r.1 = slot) ∧
    ∀ j, n ≤ j → j < k → ¬ Fills w opts prog j slot

/-- The kernel writes the byte for call `i`. -/
def Touches (i x : Nat) : Prop :=
  ∃ call, prog.calls[i]? = some call ∧ ∃ p ∈ (doCall kernel i call).writes, Covers p x

/-- No overlapped call has a `<rN=>` field whose slot is waited for behind it, and none writes into a
field that is read back behind it for a slot that is waited for. -/
structure Undisturbed : Prop where
  fields : ∀ i call, overlaps opts prog i = true → prog.calls[i]? = some call →
    ∀ f ∈ call.recorded w, Arena.inRange f.2 resWidth = true → ¬ Awaited w opts prog (i + 1) f.1
  writes : ∀ i j call, overlaps opts prog i = true → i < j → overlaps opts prog j = false →
    prog.calls[j]? = some call → ∀ f ∈ call.recorded w, Arena.inRange f.2 resWidth = true →
    Awaited w opts prog (j + 1) f.1 → ∀ d < resWidth, ¬ Touches prog kernel i (f.2.toNat + d)

/-- The byte may be written late: an overlapped call in front of call `n` writes it. -/
def Dirty (n x : Nat) : Prop := ∃ i < n, overlaps opts prog i = true ∧ Touches prog kernel i x

variable {w opts prog kernel}

theorem Awaited.of_resource (hcall : prog.calls[n]? = some call) (hr : r ∈ call.resources) : Awaited w opts prog n r.1 :=
  ⟨n, call, Nat.le_refl n, hcall, ⟨r, hr, rfl⟩, fun _ hle hlt => absurd hle (Nat.not_le.mpr hlt)⟩

theorem Awaited.prev (h : Awaited w opts prog (n + 1) slot)
    (hfills : ¬ Fills w opts prog n slot) : Awaited w opts prog n slot := by
  obtain ⟨k, call, hk, hcall, huse, hfree⟩ := h
  refine ⟨k, call, by omega, hcall, huse, fun j hle hlt => ?_⟩
  rcases Nat.eq_or_lt_of_le hle with rfl | hlt'
  · exact hfills
  · exact hfree j hlt' hlt

/-- A call is overlapped only if its return value is not waited for. -/
theorem not_awaited_of_overlaps (hov : overlaps opts prog n = true)
    (hcall : prog.calls[n]? = some call) (hres : call.res = some slot) : ¬ Awaited w opts prog (n + 1) slot := by
  rintro ⟨k, user, hk, huser, ⟨r, hr, rfl⟩, -⟩
  have hused : resultUsedLater prog n = true := by
    simp only [resultUsedLater, hcall, Option.bind_some, hres]
    refine any_eq_true.mpr ⟨user, ?_, Call.referencesAny_of_resources hr⟩
    refine mem_of_getElem? (i := k - (n + 1)) ?_
    rw [getElem?_drop, show n + 1 + (k - (n + 1)) = k by omega, huser]
  simp only [overlaps, hcall, hused, Bool.not_true, Bool.and_false] at hov
  cases hov

theorem Dirty.mono {m x : Nat} (h : Dirty opts prog kernel m x) (hle : m ≤ n) : Dirty opts prog kernel n x := by
  obtain ⟨i, hi, h⟩ := h
  exact ⟨i, by omega, h⟩

theorem Undisturbed.clean (h : Undisturbed w opts prog kernel)
    (hov : overlaps opts prog n = false) (hcall : prog.calls[n]? = some call) {f : U64 × U64}
    (hf : f ∈ call.recorded w) (hin : Arena.inRange f.2 resWidth = true)
    (hwait : Awaited w opts prog (n + 1) f.1) (d : Nat) (hd : d < resWidth) :
    ¬ Dirty opts prog kernel n (f.2.toNat + d) := by
  rintro ⟨i, hi, hovi, htouch⟩
  exact h.writes i n call hovi hi hov hcall f hf hin hwait d hd htouch

end

/-! ## Arenas that differ in late writes only -/

/-- The arenas have the same objects, and the same memory outside the bytes. -/
structure Like (dirty : Nat → Prop) (a a' : Arena) : Prop where
  fixed : a.fixed = a'.fixed
  mem : ∀ x, ¬ dirty x → a.mem x = a'.mem x

variable {p : Nat × List U8}

namespace Like

variable {dirty : Nat → Prop} {a a' a'' : Arena}

theorem refl (dirty : Nat → Prop) (a : Arena) : Like dirty a a := ⟨rfl, fun _ _ => rfl⟩

section

variable (h : Like dirty a a')
include h

theorem symm : Like dirty a' a := ⟨h.fixed.symm, fun x hx => (h.mem x hx).symm⟩

theorem trans (h' : Like dirty a' a'') : Like dirty a a'' :=
  ⟨h.fixed.trans h'.fixed, fun x hx => (h.mem x hx).trans (h'.mem x hx)⟩

theorem mono {dirty' : Nat → Prop} (hsub : ∀ x, dirty x → dirty' x) : Like dirty' a a' :=
  ⟨h.fixed, fun x hx => h.mem x fun hd => hx (hsub x hd)⟩

theorem writeAll (os : List (U64 × List U8)) : Like dirty (a.writeAll os) (a'.writeAll os) := by
  refine ⟨by rw [Arena.writeAll_fixed, Arena.writeAll_fixed, h.fixed], fun x hx => ?_⟩
  simp only [Arena.writeAll_mem, Arena.kept_congr h.fixed]
  exact blitAll_congr (h.mem x hx) _

theorem poke (p : Nat × List U8) : Like dirty (a.poke p) (a'.poke p) :=
  ⟨h.fixed, fun x hx => blit_congr (h.mem x hx) p.1 p.2⟩

theorem pokes (ps : List (Nat × List U8)) : Like dirty (ps.foldl Arena.poke a) (ps.foldl Arena.poke a') := by
  induction ps generalizing a a' with
  | nil => exact h
  | cons p ps ih => exact ih (h.poke p)

end

/-- A late write changes nothing else. -/
theorem poke_dirty (a : Arena) (hp : ∀ x, Covers p x → dirty x) : Like dirty (a.poke p) a :=
  ⟨rfl, fun x hx => blit_of_not_covers fun hc => hx (hp x hc)⟩

theorem pokes_dirty (a : Arena) {ps : List (Nat × List U8)} (hps : ∀ p ∈ ps, ∀ x, Covers p x → dirty x) :
    Like dirty (ps.foldl Arena.poke a) a := by
  induction ps generalizing a with
  | nil => exact refl dirty a
  | cons p ps ih =>
    exact (ih (a.poke p) fun q hq => hps q (mem_cons_of_mem p hq)).trans
      (poke_dirty a (hps p mem_cons_self))

theorem readScalar (h : Like dirty a a') {off : U64} (hclean : ∀ d < resWidth, ¬ dirty (off.toNat + d)) :
    a.readScalar off resWidth = a'.readScalar off resWidth := by
  have hbytes : ((range resWidth).map fun i => a.mem (off.toNat + i)) =
      (range resWidth).map fun i => a'.mem (off.toNat + i) :=
    map_congr_left fun d hd => h.mem _ (hclean d (mem_range.mp hd))
  exact congrArg (fun bytes => if Arena.inRange off resWidth = true then some (leValue bytes) else none) hbytes

end Like

/-! ## One call after the other -/

section

variable (w prog kernel)

/-- A call from its preparation to the reading back of its fields. -/
def after (i : Nat) (call : Call) (s : Arena × Ctx) : Arena × Ctx :=
  let (prepared, arena) := prepareArgs w s.1 call s.2
  let arena := (doCall kernel i call).writes.foldl Arena.poke arena
  (arena, prepared.copyouts.foldl (readBack arena) (publish call (doCall kernel i call).ret s.2))

/-- The arena and the context in front of each call. -/
def sequential (arena : Arena) : Nat → Arena × Ctx
  | 0 => (arena, .new)
  | i + 1 => (prog.calls[i]?.map fun call => after w kernel i call (sequential arena i)).getD (sequential arena i)

variable {w prog kernel}

theorem after_arena (i : Nat) (call : Call) (s : Arena × Ctx) :
    (after w kernel i call s).1 =
      (doCall kernel i call).writes.foldl Arena.poke (s.1.writeAll (images w s.2 call.order)) := by
  rw [← prepareArgs_arena]
  rfl

theorem after_ctx (i : Nat) (call : Call) (s : Arena × Ctx) :
    (after w kernel i call s).2 = ((call.recorded w).map .field).foldl (readBack (after w kernel i call s).1)
      (publish call (doCall kernel i call).ret s.2) := by
  show (prepareArgs w s.1 call s.2).1.copyouts.foldl _ _ = _
  rw [prepareArgs_copyouts]
  rfl

theorem sequential_succ {i : Nat} (hcall : prog.calls[i]? = some call) (arena : Arena) :
    sequential w prog kernel arena (i + 1) = after w kernel i call (sequential w prog kernel arena i) := by
  rw [sequential, hcall, Option.map_some, Option.getD_some]

end

/-! ## A run follows the sequential one -/

section

variable (w opts prog kernel) (arena : Arena)

/-- How far a run is in step with the sequential one, by where the main thread is. Inside a call, it
is once the rest of the call is done. -/
inductive Follows (s : State) : Phase → Prop
  | ready (count : s.seen.length = s.next)
      (mem : Like (Dirty opts prog kernel s.next) s.arena (sequential w prog kernel arena s.next).1)
      (ctx : ∀ slot, Awaited w opts prog s.next slot →
        s.ctx.res slot = (sequential w prog kernel arena s.next).2.res slot) : Follows s .ready
  | inside {call : Call} {writes : List (Nat × List U8)} (count : s.seen.length = s.next + 1) (waits : overlaps opts prog s.next = false)
      (at_call : prog.calls[s.next]? = some call)
      (mem : Like (Dirty opts prog kernel s.next) (writes.foldl Arena.poke s.arena)
        (sequential w prog kernel arena (s.next + 1)).1)
      (ctx : ∀ slot, Awaited w opts prog s.next slot →
        s.ctx.res slot = (sequential w prog kernel arena s.next).2.res slot) :
      Follows s (.inside writes ((call.recorded w).map .field))
  | reading {call : Call} {fs : List (U64 × U64)} (count : s.seen.length = s.next + 1) (waits : overlaps opts prog s.next = false)
      (at_call : prog.calls[s.next]? = some call) (fields : ∀ f ∈ fs, f ∈ call.recorded w)
      (mem : Like (Dirty opts prog kernel s.next) s.arena (sequential w prog kernel arena (s.next + 1)).1)
      (ctx : ∀ slot, Awaited w opts prog (s.next + 1) slot →
        ((fs.map .field).foldl (readBack s.arena) s.ctx).res slot =
          (sequential w prog kernel arena (s.next + 1)).2.res slot) :
      Follows s (.reading (fs.map .field))

/-- What holds all along a run. -/
structure InStep (s : State) : Prop where
  pending : ∀ ws ∈ s.pending, ∀ p ∈ ws, ∀ x, Covers p x → Dirty opts prog kernel s.next x
  seen : ∀ i v, s.seen[i]? = some v →
    ∃ call, prog.calls[i]? = some call ∧ v = substituted (sequential w prog kernel arena i).2 call
  follows : Follows w opts prog kernel arena s s.phase

variable {w opts prog kernel arena}

theorem inStep_start : InStep w opts prog kernel arena (start arena) where
  pending := nofun
  seen := nofun
  follows := .ready rfl (.refl _ _) fun _ _ => rfl

/-- In step, a call gets the values it gets in the sequential run. -/
theorem substituted_eq (hcall : prog.calls[n]? = some call)
    (hctx : ∀ slot, Awaited w opts prog n slot → ctx.res slot = (sequential w prog kernel arena n).2.res slot) :
    substituted ctx call = substituted (sequential w prog kernel arena n).2 call :=
  substituted_eq_iff.mpr fun r hr => Ctx.resolve_congr (hctx r.1 (.of_resource hcall hr)) r.2.1 r.2.2

private theorem seen_append {seen : List (List U64)} {v : List U64}
    (count : seen.length = n) (hcall : prog.calls[n]? = some call)
    (hv : v = substituted (sequential w prog kernel arena n).2 call)
    (h : ∀ i v, seen[i]? = some v →
      ∃ call, prog.calls[i]? = some call ∧ v = substituted (sequential w prog kernel arena i).2 call) (i : Nat)
    (u : List U64) (hu : (seen ++ [v])[i]? = some u) :
    ∃ call, prog.calls[i]? = some call ∧ u = substituted (sequential w prog kernel arena i).2 call := by
  rcases Nat.lt_or_ge i seen.length with hlt | hge
  · rw [getElem?_append_left hlt] at hu
    exact h i u hu
  · rw [getElem?_append_right hge, getElem?_singleton] at hu
    split at hu
    next hz =>
      obtain rfl : i = n := by omega
      cases hu
      exact ⟨call, hcall, hv⟩
    next => cases hu

/-- Preparing a call writes the same objects in step. -/
private theorem prepared_like (hcall : prog.calls[s.next]? = some call)
    (mem : Like (Dirty opts prog kernel s.next) s.arena (sequential w prog kernel arena s.next).1)
    (hsub : substituted s.ctx call = substituted (sequential w prog kernel arena s.next).2 call) :
    Like (Dirty opts prog kernel s.next) ((doCall kernel s.next call).writes.foldl Arena.poke
      (prepareArgs w s.arena call s.ctx).2) (sequential w prog kernel arena (s.next + 1)).1 := by
  rw [sequential_succ hcall, after_arena, prepareArgs_congr hsub, prepareArgs_arena]
  exact (mem.writeAll _).pokes _

section

variable (hund : Undisturbed w opts prog kernel)
include hund

/-- Overlapping a call keeps in step: nothing it fills is waited for. -/
private theorem ctx_of_overlaps
    (hov : overlaps opts prog n = true) (hcall : prog.calls[n]? = some call)
    (hctx : ∀ slot, Awaited w opts prog n slot → ctx.res slot = (sequential w prog kernel arena n).2.res slot)
    (slot : U64) (hwait : Awaited w opts prog (n + 1) slot) :
    ctx.res slot = (sequential w prog kernel arena (n + 1)).2.res slot := by
  have hkept : (sequential w prog kernel arena (n + 1)).2.res slot = (sequential w prog kernel arena n).2.res slot := by
    rw [sequential_succ hcall, after_ctx, foldl_readBack_keeps, publish_res, if_neg]
    · intro hres
      exact not_awaited_of_overlaps hov hcall hres hwait
    · rintro f hf hin rfl
      exact hund.fields n call hov hcall f hf hin hwait
  rw [hkept]
  refine hctx slot (hwait.prev ?_)
  rintro ⟨hno, -⟩
  rw [hov] at hno
  cases hno

/-- Returning from a call keeps in step: what is waited for and not filled was waited for before. -/
private theorem ctx_of_returned
    (hov : overlaps opts prog s.next = false) (hcall : prog.calls[s.next]? = some call)
    (mem : Like (Dirty opts prog kernel s.next) s.arena (sequential w prog kernel arena (s.next + 1)).1)
    (hctx : ∀ slot, Awaited w opts prog s.next slot →
      s.ctx.res slot = (sequential w prog kernel arena s.next).2.res slot)
    (slot : U64) (hwait : Awaited w opts prog (s.next + 1) slot) :
    (((call.recorded w).map .field).foldl (readBack s.arena)
        (publish call (doCall kernel s.next call).ret s.ctx)).res slot =
      (sequential w prog kernel arena (s.next + 1)).2.res slot := by
  rw [sequential_succ hcall] at mem ⊢
  rw [after_ctx]
  refine foldl_readBack_congr (fun f hf hslot hin => mem.readScalar ?_) ?_
  · subst hslot
    exact hund.clean hov hcall hf hin hwait
  · by_cases hfield : ∃ f ∈ call.recorded w, f.1 = slot ∧ Arena.inRange f.2 resWidth = true
    · exact .inl hfield
    · right
      rw [publish_res, publish_res]
      by_cases hres : call.res = some slot
      · rw [if_pos hres, if_pos hres]
      · rw [if_neg hres, if_neg hres]
        refine hctx slot (hwait.prev ?_)
        rintro ⟨-, call', hcall', hfill⟩
        rw [hcall] at hcall'
        cases hcall'
        exact hfill.elim hres hfield

section

variable (h : InStep w opts prog kernel arena s) {s' : State}
include h

/-- The main thread keeps in step. -/
theorem InStep.advance (hs : advance w opts prog kernel s = some s') :
    InStep w opts prog kernel arena s' := by
  obtain ⟨pending, seen, follows⟩ := h
  obtain ⟨call, hcall, rfl⟩ := Option.map_eq_some_iff.mp hs
  generalize hphase : s.phase = ph at follows
  cases follows with
  | ready count mem ctx =>
    have hsub := substituted_eq hcall ctx
    have hmem := prepared_like hcall mem hsub
    have hseen := seen_append count hcall hsub seen
    dsimp only
    split
    next hov =>
      have hnew : ∀ p ∈ (doCall kernel s.next call).writes, ∀ x, Covers p x → Dirty opts prog kernel (s.next + 1) x :=
        fun p hp x hx => ⟨s.next, Nat.lt_succ_self _, hov, call, hcall, p, hp, hx⟩
      refine ⟨?_, hseen, ?_⟩
      · intro ws hws p hp x hx
        rcases mem_append.mp hws with hws | hws
        · exact (pending ws hws p hp x hx).mono (Nat.le_succ _)
        · obtain rfl := mem_singleton.mp hws
          exact hnew p hp x hx
      · refine .ready (by simp [count]) ?_ (ctx_of_overlaps hund hov hcall ctx)
        exact (Like.pokes_dirty _ hnew).symm.trans (hmem.mono fun x hx => hx.mono (Nat.le_succ _))
    next hov =>
      refine ⟨pending, hseen, ?_⟩
      rw [prepareArgs_copyouts]
      exact .inside (by simp [count]) (Bool.eq_false_iff.mpr hov) hcall hmem ctx
  | @inside call' writes count waits at_call mem ctx =>
    rw [hcall] at at_call
    cases at_call
    cases writes with
    | nil => exact ⟨pending, seen, .reading count waits hcall (fun _ => id) mem (ctx_of_returned hund waits hcall mem ctx)⟩
    | cons p writes => exact ⟨pending, seen, .inside count waits hcall mem ctx⟩
  | @reading call' fs count waits at_call fields mem ctx =>
    cases fs with
    | nil =>
      refine ⟨fun ws hws p hp x hx => (pending ws hws p hp x hx).mono (Nat.le_succ _), seen, ?_⟩
      exact .ready count (mem.mono fun x hx => hx.mono (Nat.le_succ _)) ctx
    | cons f fs =>
      exact ⟨pending, seen, .reading count waits at_call (fun g hg => fields g (mem_cons_of_mem f hg)) mem ctx⟩

/-- So does a write of a spawned thread. -/
theorem InStep.land
    {k : Nat} {writes : List (Nat × List U8)} (hk : s.pending[k]? = some (p :: writes)) :
    InStep w opts prog kernel arena { s with arena := s.arena.poke p, pending := s.pending.set k writes } := by
  obtain ⟨pending, seen, follows⟩ := h
  have hhead := pending _ (mem_of_getElem? hk)
  have hlike : Like (Dirty opts prog kernel s.next) (s.arena.poke p) s.arena :=
    .poke_dirty s.arena (hhead p mem_cons_self)
  refine ⟨?_, seen, ?_⟩
  · intro ws hws q hq
    rcases mem_or_eq_of_mem_set hws with hws | rfl
    · exact pending ws hws q hq
    · exact hhead q (mem_cons_of_mem p hq)
  · show Follows w opts prog kernel arena _ s.phase
    generalize hphase : s.phase = ph at follows
    cases follows with
    | ready count mem ctx => exact .ready count (hlike.trans mem) ctx
    | inside count waits at_call mem ctx => exact .inside count waits at_call ((hlike.pokes _).trans mem) ctx
    | reading count waits at_call fields mem ctx =>
      refine .reading count waits at_call fields (hlike.trans mem) fun slot hwait => ?_
      -- the write misses every field that is still to be read for this slot
      rw [← ctx slot hwait]
      refine foldl_readBack_congr (fun f hf hslot hin => hlike.readScalar ?_) (.inr rfl)
      subst hslot
      exact hund.clean waits at_call (fields f hf) hin hwait

theorem InStep.step (hs : Step w opts prog kernel s s') : InStep w opts prog kernel arena s' := by
  cases hs with
  | main hs => exact h.advance hund hs
  | land hk => exact h.land hund hk

end

end

theorem InStep.of_reaches (hund : Undisturbed w opts (noteFixed w arena.reset prog).2 kernel)
    (hs : Reaches w opts prog kernel arena s) :
    InStep w opts (noteFixed w arena.reset prog).2 kernel (noteFixed w arena.reset prog).1 s := by
  induction hs with
  | refl => exact inStep_start
  | tail _ hstep ih => exact ih.step hund hstep

/-- Where nothing is overlapped, nothing is disturbed. -/
theorem undisturbed_of_not_threaded (h : opts.threaded = false) : Undisturbed w opts prog kernel := by
  have hnone : ∀ i, overlaps opts prog i = false := by
    intro i
    unfold overlaps
    split
    · rfl
    · simp [h]
  exact ⟨fun i call hov => absurd hov (by rw [hnone]; decide), fun i j call hov => absurd hov (by rw [hnone]; decide)⟩

end

/-- Where no overlapped call disturbs what later calls wait for, every run gives each call the values
it gets when no call is overlapped. -/
theorem overlap_keeps_values (w : Nat) (opts : Opts) (prog : Prog) (kernel : Kernel) (arena : Arena)
    (hund : Undisturbed w opts (noteFixed w arena.reset prog).2 kernel) {s t : State}
    (hs : Reaches w opts prog kernel arena s)
    (ht : Reaches w { opts with threaded := false } prog kernel arena t) {i : Nat} {v v' : List U64}
    (hv : s.seen[i]? = some v) (hv' : t.seen[i]? = some v') : v = v' := by
  obtain ⟨call, hcall, rfl⟩ := (InStep.of_reaches hund hs).seen i v hv
  obtain ⟨call', hcall', rfl⟩ := (InStep.of_reaches (undisturbed_of_not_threaded rfl) ht).seen i v' hv'
  rw [hcall] at hcall'
  cases hcall'
  rfl

/-! ## A field that is lost -/

/-- The run in which the main thread takes `n` steps and no other thread any. -/
def mainRun (w : Nat) (opts : Opts) (prog : Prog) (kernel : Kernel) (arena : Arena) (n : Nat) : State :=
  exec (advance w opts (noteFixed w arena.reset prog).2 kernel) n (start (noteFixed w arena.reset prog).1)

theorem reaches_mainRun (w : Nat) (opts : Opts) (prog : Prog) (kernel : Kernel) (arena : Arena) (n : Nat) :
    Reaches w opts prog kernel arena (mainRun w opts prog kernel arena n) :=
  Relation.ReflTransGen.mono (fun _ _ h => Step.main h) _ _ (reaches_exec _ n _)

/-- `r0 = socket(0x2, 0x1, 0x0)`, `getpid() (async)`, `close(r0)`. -/
def socketAndPid : Prog where
  calls :=
    [{ name := [], base := [], nr := some 41, args := [.int 2#64, .int 1#64, .int 0#64]
       res := some 0#64, failNth := none, isAsync := false },
     { name := [], base := [], nr := some 39, args := [], res := none, failNth := none, isAsync := true },
     { name := [], base := [], nr := some 3, args := [.res 0#64 0#64 0#64]
       res := none, failNth := none, isAsync := false }]

theorem overlap_keeps_values_socket :
    (mainRun 8 ⟨true, false⟩ socketAndPid (fun _ => ⟨3#64, []⟩) .map 5).seen.getD 2 [] =
      (mainRun 8 ⟨false, false⟩ socketAndPid (fun _ => ⟨3#64, []⟩) .map 7).seen.getD 2 [] := by
  have hnone : ∀ call ∈ (noteFixed 8 Arena.map.reset socketAndPid).2.calls, call.recorded 8 = [] := by
    decide +kernel
  have hund : Undisturbed 8 ⟨true, false⟩ (noteFixed 8 Arena.map.reset socketAndPid).2 (fun _ => ⟨3#64, []⟩) := by
    constructor
    · intro i call _ hcall f hf
      rw [hnone call (mem_of_getElem? hcall)] at hf
      cases hf
    · intro i j call _ _ _ hcall f hf
      rw [hnone call (mem_of_getElem? hcall)] at hf
      cases hf
  exact overlap_keeps_values 8 ⟨true, false⟩ socketAndPid _ .map hund (reaches_mainRun _ _ _ _ _ 5)
    (reaches_mainRun _ _ _ _ _ 7) (i := 2) (by decide +kernel) (by decide +kernel)

/-- `pipe2(&(0x7f0000000040)={<r0=>0x0, <r1=>0x0}, 0x0) (async)`, `close(r0)`. -/
def pipeThenClose : Prog where
  calls :=
    [{ name := [], base := [], nr := some 293
       args := [.ptr 0x40#64 (some (.struct [.out 0#64 (.int 0#64), .out 1#64 (.int 0#64)])), .int 0#64]
       res := none, failNth := none, isAsync := true },
     { name := [], base := [], nr := some 3, args := [.res 0#64 0#64 0#64]
       res := none, failNth := none, isAsync := false }]

/-- The kernel answers `pipe2` with the descriptors 3 and 4. -/
def pipeKernel : Kernel := fun _ => ⟨0#64, [(0x40, [3#8, 0#8, 0#8, 0#8, 4#8, 0#8, 0#8, 0#8])]⟩

/-- `close` gets descriptor 3 when `pipe2` is waited for, and the missing value when it is overlapped. -/
theorem overlap_loses_field :
    (∃ s, Reaches 8 ⟨true, false⟩ pipeThenClose pipeKernel .map s ∧ s.seen[1]? = some [0xffffffffffffffff#64]) ∧
      ∃ t, Reaches 8 ⟨false, false⟩ pipeThenClose pipeKernel .map t ∧ t.seen[1]? = some [3#64] :=
  ⟨⟨_, reaches_mainRun 8 ⟨true, false⟩ pipeThenClose pipeKernel .map 2, by decide +kernel⟩,
    _, reaches_mainRun 8 ⟨false, false⟩ pipeThenClose pipeKernel .map 7, by decide +kernel⟩

end Flow

end Vock.Fuzz
