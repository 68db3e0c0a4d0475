import Vock.Laws.Fuzz.InflateChecked
import Vock.Library.Capped

/-!
# The limit on the output

`limit` is tested for literals, for matches and for stored bytes, each in its place; together the tests do nothing
but cut off. A round of `inflate_block` is a round without the limit that stays within it (`blockStep_eq_some_iff`),
and the rest is put together by the rules for `Capped`.
-/

namespace Vock.Fuzz

open Library List

variable {br br' : BitReader} {lit dist : Huffman} {limit : Nat} {data out : List U8}
  {s : BitReader × List U8} {x : (BitReader × List U8) ⊕ (BitReader × List U8)}

/-- How much is made so far. -/
def made (s : BitReader × List U8) : Nat := s.2.length

theorem length_copyMatch (start len : Nat) (out : List U8) :
    (copyMatch start len out).length = out.length + len := by
  induction len with
  | zero => rfl
  | succ len ih =>
    rw [copyMatch] at ih ⊢
    rw [range_succ, foldl_append, foldl_cons, foldl_nil, length_append, ih,
      length_singleton, Nat.add_assoc]

/-- A round of `inflate_block`, without the limit. -/
inductive Round (lit dist : Huffman) (s : BitReader × List U8) :
    (BitReader × List U8) ⊕ (BitReader × List U8) → Prop
  | literal {sym : Nat} {br : BitReader} (hsym : lit.decode s.1 = some (sym, br)) (hle : sym ≤ 255) :
    Round lit dist s (.inl (br, s.2 ++ [BitVec.ofNat 8 sym]))
  | endOfBlock {br : BitReader} (hsym : lit.decode s.1 = some (256, br)) : Round lit dist s (.inr (br, s.2))
  | backReference {sym len d : Nat} {br br' : BitReader} (hsym : lit.decode s.1 = some (sym, br)) (hgt : 256 < sym)
    (hle : sym ≤ 285) (hmatch : readMatch dist sym br = some (len, d, br')) (hd : d ≤ s.2.length) :
    Round lit dist s (.inl (br', copyMatch (s.2.length - d) len s.2))

/-- A round is one that stays within the limit. -/
theorem blockStep_eq_some_iff :
    blockStep lit dist limit s = some x ↔ Round lit dist s x ∧ ∀ s', x = .inl s' → made s' ≤ limit := by
  constructor
  · intro h
    obtain ⟨⟨sym, br₁⟩, hsym, h⟩ := Option.bind_eq_some_iff.mp h
    dsimp only at h
    split at h
    next hle =>
      split at h
      next => cases h
      next room =>
        cases h
        refine ⟨.literal hsym hle, fun s' hs' => ?_⟩
        obtain rfl := Sum.inl.inj hs'
        rw [made, length_append, length_singleton]
        omega
    next hgt =>
      split at h
      next hend =>
        cases h
        exact ⟨.endOfBlock (hend ▸ hsym), nofun⟩
      next hend =>
        split at h
        next hle =>
          obtain ⟨⟨len, d, br₂⟩, hmatch, h⟩ := Option.bind_eq_some_iff.mp h
          dsimp only at h
          split at h
          next => cases h
          next room =>
            cases h
            refine ⟨.backReference hsym (by omega) hle hmatch (by omega), fun s' hs' => ?_⟩
            obtain rfl := Sum.inl.inj hs'
            rw [made, length_copyMatch]
            omega
        next => cases h
  · rintro ⟨hround, room⟩
    cases hround with
    | @literal sym br₁ hsym hle =>
      have room := room _ rfl
      rw [made, length_append, length_singleton] at room
      rw [blockStep, hsym, Option.bind_eq_bind, Option.bind_some]
      dsimp only
      rw [if_pos hle, if_neg (by omega)]
    | endOfBlock hsym =>
      rw [blockStep, hsym]
      rfl
    | @backReference sym len d br₁ br₂ hsym hgt hle hmatch hd =>
      have room := room _ rfl
      rw [made, length_copyMatch] at room
      rw [blockStep, hsym, Option.bind_eq_bind, Option.bind_some]
      dsimp only
      rw [if_neg (by omega), if_neg (by omega), if_pos hle, hmatch, Option.bind_eq_bind, Option.bind_some]
      dsimp only
      rw [if_neg (by omega)]

theorem Round.grows
    (h : Round lit dist s x) : made s ≤ Sum.elim made made x := by
  cases h with
  | literal => simp [made]
  | endOfBlock => exact Nat.le_refl _
  | backReference => simp [made, length_copyMatch]

theorem capped_blockStep (lit dist : Huffman) : Capped (blockStep lit dist) made (Sum.elim made made) where
  grows h := (blockStep_eq_some_iff.mp h).1.grows
  within {limit s x} h hs := by
    obtain ⟨hround, room⟩ := blockStep_eq_some_iff.mp h
    cases x with
    | inl s' => exact room s' rfl
    | inr r =>
      cases hround with
      | endOfBlock => exact hs
  same {limit limit' s x} h hle := by
    obtain ⟨hround, -⟩ := blockStep_eq_some_iff.mp h
    refine blockStep_eq_some_iff.mpr ⟨hround, fun s' hs' => ?_⟩
    subst hs'
    exact hle

theorem capped_inflateBlock (lit dist : Huffman) : Capped (inflateBlock lit dist) made made := by
  have loop (n : Nat) := (capped_blockStep lit dist).repeatFor n
  exact ⟨fun h => (loop _).grows h, fun h => (loop _).within h, fun h => (loop _).same h⟩

theorem capped_storedBytes (n : Nat) : Capped (fun limit => storedBytes limit n) made made := by
  induction n with
  | zero => exact .reading fun h => congrArg made (Option.some.inj h).symm
  | succ n ih =>
    -- a byte is read and added; then the others
    have one : Capped (fun limit (s : BitReader × List U8) => if limit ≤ s.2.length then none
        else (s.1.bits 8).map fun r => (r.2, s.2 ++ [BitVec.ofNat 8 r.1])) made made := by
      refine ⟨?_, ?_, ?_⟩
      · intro limit s r h
        obtain ⟨-, h⟩ := Option.ite_none_left_eq_some.mp h
        obtain ⟨⟨b, br⟩, -, rfl⟩ := Option.map_eq_some_iff.mp h
        simp [made]
      · intro limit s r h _
        obtain ⟨room, h⟩ := Option.ite_none_left_eq_some.mp h
        obtain ⟨⟨b, br⟩, -, rfl⟩ := Option.map_eq_some_iff.mp h
        rw [made, length_append, length_singleton]
        omega
      · intro limit limit' s r h hle
        obtain ⟨-, h⟩ := Option.ite_none_left_eq_some.mp h
        refine Option.ite_none_left_eq_some.mpr ⟨?_, h⟩
        obtain ⟨⟨b, br⟩, -, rfl⟩ := Option.map_eq_some_iff.mp h
        rw [made, length_append, length_singleton] at hle
        omega
    have eq : (fun limit => storedBytes limit (n + 1)) = fun limit s => Option.bind (if limit ≤ s.2.length then none
        else (s.1.bits 8).map fun r => (r.2, s.2 ++ [BitVec.ofNat 8 r.1])) (storedBytes limit n) := by
      funext limit s
      rw [storedBytes]
      split
      · rfl
      · rw [Option.bind_map]
        rfl
    rw [eq]
    exact one.bind ih

/-- The rest of a block, whose reader stands behind what was read. -/
theorem capped_behind {f : Nat → BitReader × List U8 → Option (BitReader × List U8)} (hf : Capped f made made)
    (br : BitReader) : Capped (fun limit s => f limit (br, s.2)) made made := hf.comp fun s : BitReader × List U8 => (br, s.2)

theorem capped_blockBody (btype : Nat) : Capped (fun limit => blockBody limit btype) made made := by
  match btype with
  | 0 => exact .after fun ⟨len, _, br⟩ => capped_behind (capped_storedBytes len) br
  | 1 => exact capped_inflateBlock fixedTrees.1 fixedTrees.2
  | 2 =>
    refine .after fun ⟨head, br⟩ => ?_
    refine Capped.after (g := fun _ => readLengths (Huffman.new head.cl) (head.hlit + head.hdist) br) ?_
    intro ⟨lengths, br⟩
    exact capped_behind (capped_inflateBlock _ _) br
  | _ + 3 => exact ⟨nofun, nofun, nofun⟩

theorem capped_inflateStep : Capped inflateStep made (Sum.elim made List.length) := by
  refine .after fun ⟨last, btype, br⟩ => ?_
  refine (capped_behind (capped_blockBody btype) br).bind (.reading fun {s r} h => ?_)
  split at h
  · obtain rfl := Option.some.inj h
    rfl
  · obtain rfl := Option.some.inj h
    rfl

theorem capped_inflate : Capped (fun limit data => inflate data limit) (fun _ => 0) List.length := by
  have loop (n : Nat) := capped_inflateStep.repeatFor n
  exact ⟨fun _ => Nat.zero_le _, fun h _ => (loop _).within h (Nat.zero_le _), fun h => (loop _).same h⟩

/-- `limit` caps the output. -/
theorem inflate_within (h : inflate data limit = some out) : out.length ≤ limit :=
  capped_inflate.within h (Nat.zero_le _)

/-- Whatever the data and the limit are, the decoder comes to its end, and nothing stops it but a vector that is full
where the limit is more than a vector can hold. What it makes is within the limit, and is what it makes for all
limits that this is within; for the others there is nothing. -/
theorem inflate_exact (data : List U8) (limit : Nat) :
    (Machine.inflate data limit = Checked.of (inflate data limit) ∨
      2 ^ 63 ≤ limit ∧ Machine.inflate data limit = Checked.stop .capacity) ∧
    ∀ out, inflate data limit = some out → out.length ≤ limit ∧
      ∀ limit', inflate data limit' = if out.length ≤ limit' then some out else none := by
  refine ⟨?_, fun out h => ⟨inflate_within h, fun limit' => capped_inflate.exact h rfl⟩⟩
  rcases Machine.computes_inflate data limit with ⟨same, -⟩ | ⟨e, ⟨rfl, large⟩, stopped⟩
  · exact .inl same
  · exact .inr ⟨large, stopped⟩

/-- A stored block of one byte. -/
theorem inflate_exact_stored :
    inflate [0x01#8, 0x01#8, 0x00#8, 0xfe#8, 0xff#8, 0x61#8] 4 = some [0x61#8] ∧
      inflate [0x01#8, 0x01#8, 0x00#8, 0xfe#8, 0xff#8, 0x61#8] 0 = none := by
  have made : inflate [0x01#8, 0x01#8, 0x00#8, 0xfe#8, 0xff#8, 0x61#8] 4 = some [0x61#8] := by decide
  exact ⟨made, ((inflate_exact _ 4).2 _ made).2 0⟩

end Vock.Fuzz
