import Mathlib.Data.List.Basic

/-!
# Readers over a cursor

A reader takes what it needs from a position in the data on, and fails where there is not enough. What it
is to be proved of a reader is that it reads a given spelling, wherever the spelling stands and whatever
follows it (`Reads`); such facts compose along the reader (`Reads.bind`).
-/

namespace Vock.Library

open List

/-- A position in data. -/
structure Cursor (α : Type) where
  data : List α
  pos : Nat

/-- A reader fails, or yields a value and leaves the cursor behind what it has read. -/
abbrev Reader (α β : Type) := StateT (Cursor α) Option β

variable {α β γ : Type}

namespace Reader

/-- The next item. -/
def item : Reader α α := fun c => c.data[c.pos]?.map fun a => (a, { c with pos := c.pos + 1 })

/-- The next `n` items. -/
def items (n : Nat) : Reader α (List α) := fun c =>
  if c.pos + n ≤ c.data.length then some ((c.data.drop c.pos).take n, { c with pos := c.pos + n }) else none

/-- The position. -/
def pos : Reader α Nat := fun c => some (c.pos, c)

/-- Passes over `n` items. -/
def skip (n : Nat) : Reader α Unit := fun c =>
  if c.pos + n ≤ c.data.length then some ((), { c with pos := c.pos + n }) else none

/-- Goes on at a position. -/
def seek (n : Nat) : Reader α Unit := fun c => some ((), { c with pos := n })

/-- Reads `n` times. -/
def times (p : Reader α β) : Nat → Reader α (List β)
  | 0 => pure []
  | n + 1 => do
    let b ← p
    (b :: ·) <$> times p n

theorem bind_apply (p : Reader α β) (f : β → Reader α γ) (c : Cursor α) :
    (p >>= f) c = (p c).bind fun r => f r.1 r.2 := rfl

theorem map_apply (f : β → γ) (p : Reader α β) (c : Cursor α) : (f <$> p) c = (p c).map fun r => (f r.1, r.2) := by
  rw [Option.map_eq_bind]
  rfl

end Reader

/-- The reader reads the value off the spelling, and no further. -/
def Reads (p : Reader α β) (s : List α) (b : β) : Prop :=
  ∀ pre post, p ⟨pre ++ (s ++ post), pre.length⟩ = some (b, ⟨pre ++ (s ++ post), pre.length + s.length⟩)

theorem reads_pure (b : β) : Reads (pure b : Reader α β) [] b := fun _ _ => rfl

variable {p : Reader α β} {f : β → Reader α γ} {c : γ} {t data : List α} {pos : Nat}

/-- What is read one after the other is spelled one after the other. -/
theorem Reads.bind {s : List α} {b : β} (hp : Reads p s b)
    (hf : Reads (f b) t c) : Reads (p >>= f) (s ++ t) c := by
  intro pre post
  have h1 := hp pre (t ++ post)
  have h2 := hf (pre ++ s) post
  rw [length_append, append_assoc] at h2
  rw [append_assoc, length_append, ← Nat.add_assoc]
  rw [Reader.bind_apply, h1, Option.bind_some, h2]

variable {s : List α} {b : β}

/-- A reader that is followed by one that takes nothing. -/
theorem Reads.bind_nil (hp : Reads p s b)
    (hf : Reads (f b) [] c) : Reads (p >>= f) s c := by
  have hread := hp.bind hf
  rwa [append_nil] at hread

/-- A value made of what is read. -/
theorem Reads.map (f : β → γ) (hp : Reads p s b) : Reads (f <$> p) s (f b) := by
  intro pre post
  rw [Reader.map_apply, hp pre post, Option.map_some]

theorem reads_item (a : α) : Reads Reader.item [a] a := by
  intro pre post
  rw [Reader.item, getElem?_append_right (Nat.le_refl _), Nat.sub_self]
  rfl

theorem reads_items (s : List α) : Reads (Reader.items s.length) s s := by
  intro pre post
  rw [Reader.items, if_pos (by simp only [length_append]; omega), drop_left, take_left]

theorem reads_skip (s : List α) : Reads (Reader.skip s.length) s () := by
  intro pre post
  rw [Reader.skip, if_pos (by simp only [length_append]; omega)]

/-- A spelling is read for one value. -/
theorem Reads.exists_iff (h : Reads p s b) (P : β → Prop) :
    (∃ v, Reads p s v ∧ P v) ↔ P b := by
  constructor
  · rintro ⟨v, hv, hP⟩
    have heq := (h [] []).symm.trans (hv [] [])
    rw [Option.some.injEq, Prod.mk.injEq] at heq
    rwa [heq.1]
  · exact fun hP => ⟨b, h, hP⟩

theorem Reads.times {bs : List β} {ss : List (List α)}
    (h : List.Forall₂ (fun b s => Reads p s b) bs ss) : Reads (Reader.times p bs.length) ss.flatten bs := by
  induction h with
  | nil => exact reads_pure []
  | cons hb _ ih => exact hb.bind (ih.map _)

/-! ## At a position -/

/-- The spelling stands at the position of the data. -/
def Found (s data : List α) (pos : Nat) : Prop := ∃ pre post, data = pre ++ (s ++ post) ∧ pre.length = pos

theorem Found.left {s : List α} (h : Found (s ++ t) data pos) : Found s data pos := by
  obtain ⟨pre, post, rfl, rfl⟩ := h
  exact ⟨pre, t ++ post, by rw [append_assoc s], rfl⟩

theorem Found.right {s : List α} (h : Found (s ++ t) data pos) : Found t data (pos + s.length) := by
  obtain ⟨pre, post, rfl, rfl⟩ := h
  exact ⟨pre ++ s, post, by simp, length_append⟩

theorem Found.le_length {s : List α} (h : Found s data pos) : pos + s.length ≤ data.length := by
  obtain ⟨pre, post, rfl, rfl⟩ := h
  simp only [length_append]
  omega

/-- Spellings of one length. -/
theorem length_flatMap_eq {f : β → List α} {n : Nat} (hlen : ∀ b, (f b).length = n) (l : List β) :
    (l.flatMap f).length = l.length * n := by
  rw [length_flatMap, map_congr_left fun b _ => hlen b, map_const', sum_replicate_nat]

/-- Of spellings of one length each stands at its multiple of the length. -/
theorem Found.flatMap {f : β → List α} {n : Nat} (hlen : ∀ b, (f b).length = n) {l : List β}
    (h : Found (l.flatMap f) data pos) {i : Nat} {b : β} (hi : l[i]? = some b) : Found (f b) data (pos + i * n) := by
  induction l generalizing pos i with
  | nil => cases hi
  | cons a l ih =>
    cases i with
    | zero =>
      cases hi
      rw [Nat.zero_mul]
      exact h.left
    | succ i =>
      have hrest := ih h.right hi
      rwa [hlen, Nat.add_assoc, Nat.add_comm n, ← Nat.succ_mul] at hrest

/-- The reader goes from one position of the data to another and yields the value. -/
def Runs (p : Reader α β) (data : List α) (pos : Nat) (b : β) (next : Nat) : Prop :=
  p ⟨data, pos⟩ = some (b, ⟨data, next⟩)

/-- A spelling found at a position is read there. -/
theorem Reads.runs (h : Reads p s b)
    (hat : Found s data pos) : Runs p data pos b (pos + s.length) := by
  obtain ⟨pre, post, rfl, rfl⟩ := hat
  exact h pre post

theorem Runs.bind {mid next : Nat} {b : β}
    (hp : Runs p data pos b mid) (hf : Runs (f b) data mid c next) : Runs (p >>= f) data pos c next := by
  rw [Runs, Reader.bind_apply, hp]
  exact hf

theorem runs_pos (data : List α) (pos : Nat) : Runs Reader.pos data pos pos pos := rfl

theorem runs_pure (b : β) (data : List α) (pos : Nat) : Runs (pure b) data pos b pos := rfl

theorem runs_seek (data : List α) (pos n : Nat) : Runs (Reader.seek n) data pos () n := rfl

end Vock.Library
