import Vock.Dwarf.Reader

/-!
# What the readers read

Each reader against the bytes it is meant for: fixed-width numbers (`reads_le`), LEB128 numbers in any
spelling of up to eleven bytes (`reads_uleb`, `reads_sleb`), strings (`reads_cstr`), and the attribute
forms (`reads_readForm`).
-/

namespace Vock.Dwarf

open Library List

variable {bs s : List U8} {form n v : Nat} {implicit : U64} {u : UnitShape} {format64 : Bool} {mk : U64 → Val}

/-! ## Fixed width -/

theorem reads_le {v : U64} (h : v.toNat < 2 ^ (8 * n)) : Reads (le n) (leBytes n v) v := by
  have hitems := reads_items (leBytes n v)
  rw [length_leBytes] at hitems
  have hread := hitems.map leValue
  rwa [leValue_leBytes_of_lt h] at hread

/-- An offset of the format. -/
theorem reads_off {o : Nat} (h : o < 2 ^ (8 * offSize format64)) :
    Reads (off format64) (leBytes (offSize format64) (BitVec.ofNat 64 o)) o := by
  have hlt : o < 2 ^ 64 := Nat.lt_of_lt_of_le h (by cases format64 <;> decide)
  have htoNat : (BitVec.ofNat 64 o).toNat = o := by rw [BitVec.toNat_ofNat, Nat.mod_eq_of_lt hlt]
  have hread := (reads_le (by rwa [htoNat])).map BitVec.toNat
  rwa [htoNat] at hread

/-- The sizes of an address that can be read. -/
def AddrSize (size : Nat) : Prop := size = 8 ∨ size = 4 ∨ size = 2 ∨ size = 1

instance (size : Nat) : Decidable (AddrSize size) := inferInstanceAs (Decidable (_ ∨ _))

theorem reads_addr {size : Nat} (hsize : AddrSize size) {a : U64} (h : a.toNat < 2 ^ (8 * size)) :
    Reads (addr size) (leBytes size a) a := by
  unfold AddrSize at hsize
  rw [addr, if_pos hsize]
  exact reads_le h

/-! ## LEB128 -/

/-- The initial length of what has `n` bytes. -/
def lengthBytes (format64 : Bool) (n : Nat) : List U8 :=
  if format64 then leBytes 4 0xffffffff#64 ++ leBytes 8 (BitVec.ofNat 64 n) else leBytes 4 (BitVec.ofNat 64 n)

theorem length_lengthBytes (format64 : Bool) (n : Nat) : (lengthBytes format64 n).length = if format64 then 12 else 4 := by
  unfold lengthBytes
  cases format64 <;> simp only [reduceIte, length_append, length_leBytes, Bool.false_eq_true]

theorem reads_lengthBytes (h : n < if format64 then 2 ^ 64 else 0xfffffff0) :
    Reads initialLength (lengthBytes format64 n) (n, format64) := by
  unfold lengthBytes
  cases format64 with
  | true =>
    rw [if_pos rfl] at h ⊢
    have hvalue : (BitVec.ofNat 64 n).toNat = n := by
      rw [BitVec.toNat_ofNat, Nat.mod_eq_of_lt h]
    refine (reads_le (by decide)).bind ?_
    have hread := (reads_le (n := 8) (by rw [hvalue]; exact h)).map fun l => (l.toNat, true)
    rwa [hvalue] at hread
  | false =>
    rw [if_neg (by decide)] at h ⊢
    have hvalue : (BitVec.ofNat 64 n).toNat = n := by
      rw [BitVec.toNat_ofNat, Nat.mod_eq_of_lt (by omega)]
    refine (reads_le (by rw [hvalue]; omega)).bind_nil ?_
    have hnot : ¬ BitVec.ofNat 64 n = 0xffffffff#64 := by
      intro heq
      rw [heq] at hvalue
      have : (0xffffffff#64).toNat = 0xffffffff := rfl
      omega
    have hlow : ¬ 0xfffffff0#64 ≤ BitVec.ofNat 64 n := by
      rw [BitVec.le_def]
      show ¬ 0xfffffff0 ≤ _
      omega
    rw [if_neg hnot, if_neg hlow, hvalue]
    exact reads_pure _

/-- Unsigned LEB128, in a spelling of any length. -/
inductive Uleb : Nat → List U8 → Prop
  | last {b : U8} (h : b.toNat < 128) : Uleb b.toNat [b]
  | more {b : U8} {v : Nat} {bs : List U8} (h : 128 ≤ b.toNat) (rest : Uleb v bs) :
      Uleb (b.toNat - 128 + 128 * v) (b :: bs)

/-- Signed LEB128. -/
inductive Sleb : Int → List U8 → Prop
  | last {b : U8} (h : b.toNat < 128) : Sleb (if b.toNat < 64 then b.toNat else b.toNat - 128) [b]
  | more {b : U8} {v : Int} {bs : List U8} (h : 128 ≤ b.toNat) (rest : Sleb v bs) :
      Sleb (b.toNat - 128 + 128 * v) (b :: bs)

theorem high_bit_iff : ∀ b : U8, b &&& 0x80#8 = 0#8 ↔ b.toNat < 128 := by decide +kernel

theorem sign_bit_iff : ∀ b : U8, b.toNat < 128 → (b &&& 0x40#8 ≠ 0#8 ↔ 64 ≤ b.toNat) := by decide +kernel

theorem toNat_low : ∀ b : U8, (b &&& 0x7f#8).toNat = b.toNat % 128 := by decide +kernel

/-- The seven bits of a byte and those of the rest, put in place. -/
theorem shiftLeft_low (b : U8) (v : U64) (s : Nat) :
    ((b &&& 0x7f#8).setWidth 64 <<< s) ||| (v <<< (s + 7)) =
      (BitVec.ofNat 64 (b.toNat % 128) + BitVec.ofNat 64 128 * v) <<< s := by
  have hlow : (b &&& 0x7f#8).setWidth 64 = BitVec.ofNat 64 (b.toNat % 128) := by
    apply BitVec.eq_of_toNat_eq
    rw [BitVec.toNat_setWidth, toNat_low, BitVec.toNat_ofNat]
  have hshift : BitVec.ofNat 64 128 * v = v <<< 7 := by
    rw [BitVec.shiftLeft_eq_mul_twoPow, BitVec.mul_comm]
    rfl
  have hdisjoint : BitVec.ofNat 64 (b.toNat % 128) &&& v <<< 7 = 0#64 := by
    apply BitVec.eq_of_getLsbD_eq
    intro i _
    rw [BitVec.getLsbD_and, BitVec.getLsbD_shiftLeft, BitVec.getLsbD_zero]
    by_cases hi : i < 7
    · rw [decide_eq_true hi, Bool.not_true, Bool.and_false, Bool.false_and, Bool.and_false]
    · have hpow : (2 : Nat) ^ 7 ≤ 2 ^ i := Nat.pow_le_pow_right (by decide) (by omega)
      have hzero : (b.toNat % 128).testBit i = false := Nat.testBit_lt_two_pow (by omega)
      rw [BitVec.getLsbD_ofNat, hzero, Bool.and_false, Bool.false_and]
  rw [hlow, hshift, Nat.add_comm s 7, BitVec.shiftLeft_add, ← BitVec.shiftLeft_or_distrib,
    BitVec.add_eq_or_of_and_eq_zero _ _ hdisjoint]

/-- Bits that are shifted out make no difference. -/
theorem or_shiftLeft (r x : U64) (s : Nat) : (if s < 64 then r ||| (x <<< s) else r) = r ||| (x <<< s) := by
  split
  next => rfl
  next h => rw [BitVec.shiftLeft_eq_zero (by omega), BitVec.or_zero]

theorem reads_ulebLoop (h : Uleb v bs) (fuel s : Nat) (r : U64) (hfuel : bs.length ≤ fuel)
    (hs : s + 7 * bs.length ≤ 77) : Reads (ulebLoop fuel s r) bs (r ||| (BitVec.ofNat 64 v <<< s)) := by
  induction h generalizing fuel s r with
  | @last b hb =>
    obtain ⟨fuel, rfl⟩ : ∃ n, fuel = n + 1 := ⟨fuel - 1, by rw [length_singleton] at hfuel; omega⟩
    refine (reads_item b).bind (t := []) ?_
    have hlow : (b &&& 0x7f#8).setWidth 64 = BitVec.ofNat 64 b.toNat := by
      apply BitVec.eq_of_toNat_eq
      rw [BitVec.toNat_setWidth, toNat_low, BitVec.toNat_ofNat, Nat.mod_eq_of_lt hb]
    simp only [or_shiftLeft, hlow, (high_bit_iff b).mpr hb, if_true]
    exact reads_pure _
  | @more b v bs hb rest ih =>
    rw [length_cons] at hfuel hs
    obtain ⟨fuel, rfl⟩ : ∃ n, fuel = n + 1 := ⟨fuel - 1, by omega⟩
    refine (reads_item b).bind (t := bs) ?_
    have hhigh : ¬ b &&& 0x80#8 = 0#8 := by rw [high_bit_iff]; omega
    have hlen : 1 ≤ bs.length := by cases rest <;> simp
    have hvalue : BitVec.ofNat 64 (b.toNat - 128 + 128 * v) =
        BitVec.ofNat 64 (b.toNat % 128) + BitVec.ofNat 64 128 * BitVec.ofNat 64 v := by
      have hlow : b.toNat - 128 = b.toNat % 128 := by
        have := b.isLt
        omega
      rw [hlow, BitVec.ofNat_add, BitVec.ofNat_mul]
    simp only [or_shiftLeft, hhigh, show ¬ 70 < s + 7 by omega]
    rw [hvalue, ← shiftLeft_low, ← BitVec.or_assoc]
    exact ih _ _ _ (by omega) (by omega)

/-- An unsigned number is read modulo `2 ^ 64`. -/
theorem reads_uleb (h : Uleb v bs) (hlen : bs.length ≤ 11) : Reads uleb bs (BitVec.ofNat 64 v) := by
  have hread := reads_ulebLoop h 11 0 0#64 hlen (by omega)
  rwa [BitVec.shiftLeft_zero, BitVec.zero_or] at hread

/-- A byte and a signed rest, put together. -/
theorem ofInt_low {b : U8} (hb : 128 ≤ b.toNat) (v : Int) :
    BitVec.ofInt 64 (b.toNat - 128 + 128 * v) =
      BitVec.ofNat 64 (b.toNat % 128) + BitVec.ofNat 64 128 * BitVec.ofInt 64 v := by
  have hlow : (b.toNat : Int) - 128 = (b.toNat % 128 : Nat) := by
    omega
  rw [hlow, BitVec.ofInt_add, BitVec.ofInt_mul]
  rfl

/-- The last byte, with its sign bit. -/
theorem ofInt_sign {b : U8} (hb : b.toNat < 128) :
    BitVec.ofInt 64 (b.toNat - 128) = BitVec.ofNat 64 (b.toNat % 128) + BitVec.ofNat 64 128 * -1#64 := by
  rw [Int.sub_eq_add_neg, BitVec.ofInt_add, Nat.mod_eq_of_lt hb]
  rfl

theorem reads_slebLoop {v : Int} (h : Sleb v bs) (fuel s : Nat) (r : U64) (hfuel : bs.length ≤ fuel)
    (hs : s + 7 * bs.length ≤ 77) : Reads (slebLoop fuel s r) bs (r ||| (BitVec.ofInt 64 v <<< s)) := by
  induction h generalizing fuel s r with
  | @last b hb =>
    obtain ⟨fuel, rfl⟩ : ∃ n, fuel = n + 1 := ⟨fuel - 1, by rw [length_singleton] at hfuel; omega⟩
    refine (reads_item b).bind ?_
    simp only [or_shiftLeft, (high_bit_iff b).mpr hb]
    by_cases hsign : b.toNat < 64
    · have hbit : ¬ b &&& 0x40#8 ≠ 0#8 := by rw [sign_bit_iff b hb]; omega
      have hlow : (b &&& 0x7f#8).setWidth 64 = BitVec.ofInt 64 b.toNat := by
        apply BitVec.eq_of_toNat_eq
        rw [BitVec.toNat_setWidth, toNat_low, BitVec.ofInt_natCast, BitVec.toNat_ofNat, Nat.mod_eq_of_lt hb]
      simp only [hbit, and_false, hsign, hlow]
      exact reads_pure _
    · have hbit : b &&& 0x40#8 ≠ 0#8 := (sign_bit_iff b hb).mpr (by omega)
      simp only [hbit, and_true, or_shiftLeft, hsign, if_false, not_false_eq_true, ne_eq]
      rw [ofInt_sign hb, ← shiftLeft_low, ← BitVec.or_assoc]
      exact reads_pure _
  | @more b v bs hb rest ih =>
    rw [length_cons] at hfuel hs
    obtain ⟨fuel, rfl⟩ : ∃ n, fuel = n + 1 := ⟨fuel - 1, by omega⟩
    refine (reads_item b).bind ?_
    have hhigh : ¬ b &&& 0x80#8 = 0#8 := by rw [high_bit_iff]; omega
    have hlen : 1 ≤ bs.length := by cases rest <;> simp
    simp only [or_shiftLeft, hhigh, show ¬ 70 < s + 7 by omega]
    rw [ofInt_low hb, ← shiftLeft_low, ← BitVec.or_assoc]
    exact ih _ _ _ (by omega) (by omega)

/-- A signed number is read modulo `2 ^ 64`. -/
theorem reads_sleb {v : Int} (h : Sleb v bs) (hlen : bs.length ≤ 11) : Reads sleb bs (BitVec.ofInt 64 v) := by
  have hread := reads_slebLoop h 11 0 0#64 hlen (by omega)
  rwa [BitVec.shiftLeft_zero, BitVec.zero_or] at hread

/-- Every spelling of a `u64` or of an `i64` in ten bytes at most is read back, wherever it stands. -/
theorem leb_read_back (pre bs post : List U8) (hlen : bs.length ≤ 10) (v : U64) :
    (Uleb v.toNat bs → uleb ⟨pre ++ (bs ++ post), pre.length⟩ = some (v, ⟨pre ++ (bs ++ post), pre.length + bs.length⟩)) ∧
      (Sleb v.toInt bs →
        sleb ⟨pre ++ (bs ++ post), pre.length⟩ = some (v, ⟨pre ++ (bs ++ post), pre.length + bs.length⟩)) := by
  constructor
  · intro h
    have hread := reads_uleb h (by omega)
    rw [BitVec.ofNat_toNat] at hread
    exact hread pre post
  · intro h
    have hread := reads_sleb h (by omega)
    rw [BitVec.ofInt_toInt] at hread
    exact hread pre post

/-- `-1` in ten bytes, with padding. -/
theorem leb_read_back_ten :
    sleb ⟨replicate 9 0xff#8 ++ [0x7f#8], 0⟩ = some (-1#64, ⟨replicate 9 0xff#8 ++ [0x7f#8], 10⟩) := by
  have hpadded : ∀ n, Sleb (-1) (replicate n 0xff#8 ++ [0x7f#8]) := by
    intro n
    induction n with
    | zero => exact @Sleb.last 0x7f#8 (by decide)
    | succ n ih => simpa [replicate_succ] using @Sleb.more 0xff#8 (-1) _ (by decide) ih
  exact (leb_read_back [] (replicate 9 0xff#8 ++ [0x7f#8]) [] (by decide) (-1#64)).2 (hpadded 9)

theorem Uleb.length_pos (h : Uleb v bs) : 0 < bs.length := by
  cases h <;> simp

/-! ## Strings -/

theorem reads_cstr (h : 0#8 ∉ s) : Reads cstr (s ++ [0#8]) s := by
  intro pre post
  have hdrop : (pre ++ (s ++ [0#8] ++ post)).drop pre.length = s ++ 0#8 :: post := by
    rw [drop_left, append_assoc, singleton_append]
  have hmem : 0#8 ∈ (pre ++ (s ++ [0#8] ++ post)).drop pre.length := by
    rw [hdrop]
    exact mem_append_right s mem_cons_self
  have hne : ∀ b ∈ s, decide (b ≠ 0#8) = true := fun b hb => decide_eq_true fun heq => h (heq ▸ hb)
  have htake : (s ++ 0#8 :: post).takeWhile (fun b => decide (b ≠ 0#8)) = s := by
    rw [takeWhile_append_of_pos hne]
    simp
  have hlen : pre.length ≤ (pre ++ (s ++ [0#8] ++ post)).length := by
    rw [length_append]
    exact Nat.le_add_right _ _
  rw [cstr, cstrAt, if_pos ⟨hlen, hmem⟩, hdrop, htake, Option.map_some, length_append, length_singleton,
    Nat.add_assoc]

/-! ## Attribute forms -/

/-- The forms of fixed width, with what is made of the number. -/
def fixedForms (u : UnitShape) : List (Nat × Nat × (U64 → Val)) :=
  [(0x05, 2, .udata), (0x06, 4, .udata), (0x07, 8, .udata), (0x0b, 1, .udata), (0x0c, 1, fun _ => .flag),
    (0x11, 1, refTo u), (0x12, 2, refTo u), (0x13, 4, refTo u), (0x14, 8, refTo u), (0x1c, 4, fun _ => .none),
    (0x20, 8, fun _ => .none), (0x24, 8, fun _ => .none), (0x25, 1, .strx), (0x26, 2, .strx), (0x27, 3, .strx),
    (0x28, 4, .strx), (0x29, 1, .addrx), (0x2a, 2, .addrx), (0x2b, 3, .addrx), (0x2c, 4, .addrx)]

/-- The forms of an unsigned LEB128 number. -/
def ulebForms (u : UnitShape) : List (Nat × (U64 → Val)) :=
  [(0x0f, .udata), (0x15, refTo u), (0x1a, .strx), (0x1f02, .strx), (0x1b, .addrx), (0x1f01, .addrx),
    (0x22, fun _ => .none), (0x23, .rnglistx)]

/-- The forms of an offset into a section. -/
def offForms : List (Nat × (Nat → Val)) :=
  [(0x0e, .strp), (0x17, .secOff), (0x1d, fun _ => .none), (0x1f20, fun _ => .none), (0x1f21, fun _ => .none),
    (0x1f, .lineStrp)]

/-- The bytes of a value in a form. -/
inductive FormBytes (u : UnitShape) (implicit : U64) : Nat → Val → List U8 → Prop
  | addr {a : U64} (size : AddrSize u.addrSize) (h : a.toNat < 2 ^ (8 * u.addrSize)) :
      FormBytes u implicit 0x01 (.addr a) (leBytes u.addrSize a)
  | fixed {form n : Nat} {mk : U64 → Val} {v : U64} (known : (form, n, mk) ∈ fixedForms u)
      (h : v.toNat < 2 ^ (8 * n)) : FormBytes u implicit form (mk v) (leBytes n v)
  | uleb {form v : Nat} {mk : U64 → Val} {bs : List U8} (known : (form, mk) ∈ ulebForms u) (h : Uleb v bs)
      (len : bs.length ≤ 11) : FormBytes u implicit form (mk (BitVec.ofNat 64 v)) bs
  | offset {form o : Nat} {mk : Nat → Val} (known : (form, mk) ∈ offForms) (h : o < 2 ^ (8 * offSize u.format64)) :
      FormBytes u implicit form (mk o) (leBytes (offSize u.format64) (BitVec.ofNat 64 o))
  | refAddrOld {a : U64} (version : u.version ≤ 2) (size : AddrSize u.addrSize) (h : a.toNat < 2 ^ (8 * u.addrSize)) :
      FormBytes u implicit 0x10 (.ref a.toNat) (leBytes u.addrSize a)
  | refAddr {o : Nat} (version : 2 < u.version) (h : o < 2 ^ (8 * offSize u.format64)) :
      FormBytes u implicit 0x10 (.ref o) (leBytes (offSize u.format64) (BitVec.ofNat 64 o))
  | sdata {v : Int} {bs : List U8} (h : Sleb v bs) (len : bs.length ≤ 11) :
      FormBytes u implicit 0x0d (.sdata (BitVec.ofInt 64 v)) bs
  | string {s : List U8} (h : 0#8 ∉ s) : FormBytes u implicit 0x08 (.str s) (s ++ [0#8])
  | block1 {s : List U8} (h : s.length < 2 ^ 8) :
      FormBytes u implicit 0x0a .block (leBytes 1 (BitVec.ofNat 64 s.length) ++ s)
  | block2 {s : List U8} (h : s.length < 2 ^ 16) :
      FormBytes u implicit 0x03 .block (leBytes 2 (BitVec.ofNat 64 s.length) ++ s)
  | block4 {s : List U8} (h : s.length < 2 ^ 32) :
      FormBytes u implicit 0x04 .block (leBytes 4 (BitVec.ofNat 64 s.length) ++ s)
  | block {form : Nat} {s bs : List U8} (known : form = 0x09 ∨ form = 0x18) (h : Uleb s.length bs)
      (len : bs.length ≤ 11) (fits : s.length < 2 ^ 64) : FormBytes u implicit form .block (bs ++ s)
  | data16 {s : List U8} (h : s.length = 16) : FormBytes u implicit 0x1e .none s
  | present : FormBytes u implicit 0x19 .flag []
  | implicitConst : FormBytes u implicit 0x21 (.sdata implicit) []
  | indirect {f : Nat} {v : Val} {fs bs : List U8} (h : Uleb f fs) (len : fs.length ≤ 11) (fits : f < 2 ^ 16)
      (inner : FormBytes u implicit f v bs) : FormBytes u implicit 0x16 v (fs ++ bs)

theorem readFormN_fixed
    (known : (form, n, mk) ∈ fixedForms u) (fuel : Nat) : readFormN (fuel + 1) form u implicit = mk <$> le n := by
  simp only [fixedForms, mem_cons, not_mem_nil, or_false] at known
  rcases known with h | h | h | h | h | h | h | h | h | h | h | h | h | h | h | h | h | h | h | h <;>
    (obtain ⟨rfl, rfl, rfl⟩ := h; rfl)

theorem readFormN_uleb
    (known : (form, mk) ∈ ulebForms u) (fuel : Nat) : readFormN (fuel + 1) form u implicit = mk <$> uleb := by
  simp only [ulebForms, mem_cons, not_mem_nil, or_false] at known
  rcases known with h | h | h | h | h | h | h | h <;> (obtain ⟨rfl, rfl⟩ := h; rfl)

theorem readFormN_off {mk : Nat → Val}
    (known : (form, mk) ∈ offForms) (fuel : Nat) : readFormN (fuel + 1) form u implicit = mk <$> off u.format64 := by
  simp only [offForms, mem_cons, not_mem_nil, or_false] at known
  rcases known with h | h | h | h | h | h <;> (obtain ⟨rfl, rfl⟩ := h; rfl)

theorem toNat_ofNat_length (h : s.length < 2 ^ n) (hn : n ≤ 64) : (BitVec.ofNat 64 s.length).toNat = s.length := by
  exact Nat.mod_eq_of_lt (Nat.lt_of_lt_of_le h (Nat.pow_le_pow_right (by decide) hn))

theorem reads_block {length : Read U64} {ls : List U8} (hlen : Reads length ls (BitVec.ofNat 64 s.length))
    (h : s.length < 2 ^ 64) : Reads (block length) (ls ++ s) .block := by
  refine hlen.bind ?_
  rw [toNat_ofNat_length h (Nat.le_refl 64)]
  exact (reads_skip s).map _

theorem reads_block_le (h : s.length < 2 ^ (8 * n)) (hn : n ≤ 8) :
    Reads (block (le n)) (leBytes n (BitVec.ofNat 64 s.length) ++ s) .block := by
  have htoNat := toNat_ofNat_length h (show 8 * n ≤ 64 by omega)
  refine reads_block (reads_le (by rwa [htoNat])) ?_
  rw [← htoNat]
  exact BitVec.isLt _

theorem reads_readFormN {v : Val}
    (h : FormBytes u implicit form v bs) {fuel : Nat} (hfuel : bs.length < fuel) :
    Reads (readFormN fuel form u implicit) bs v := by
  induction h generalizing fuel with
    obtain ⟨fuel, rfl⟩ : ∃ n, fuel = n + 1 := ⟨fuel - 1, by omega⟩
  | addr size h => exact (reads_addr size h).map _
  | fixed known h =>
    rw [readFormN_fixed known]
    exact (reads_le h).map _
  | uleb known h len =>
    rw [readFormN_uleb known]
    exact (reads_uleb h len).map _
  | offset known h =>
    rw [readFormN_off known]
    exact (reads_off h).map _
  | refAddrOld version size h =>
    rw [readFormN, if_pos version]
    exact (reads_addr size h).map _
  | refAddr version h =>
    rw [readFormN, if_neg (by omega)]
    exact (reads_off h).map _
  | sdata h len => exact (reads_sleb h len).map _
  | string h => exact (reads_cstr h).map _
  | block1 h => exact reads_block_le h (by decide)
  | block2 h => exact reads_block_le h (by decide)
  | block4 h => exact reads_block_le h (by decide)
  | block known h len fits =>
    rcases known with rfl | rfl
    · exact reads_block (reads_uleb h len) fits
    · exact reads_block (reads_uleb h len) fits
  | @data16 s h =>
    have hread := (reads_skip s).map fun _ => Val.none
    rwa [h] at hread
  | present => exact reads_pure _
  | implicitConst => exact reads_pure _
  | @indirect f v fs bs h len fits inner ih =>
    rw [length_append] at hfuel
    have hpos := h.length_pos
    refine (reads_uleb h len).bind ?_
    have hform : (BitVec.ofNat 64 f).toNat % 2 ^ 16 = f := by
      rw [BitVec.toNat_ofNat]
      omega
    rw [hform]
    exact ih (by omega)

/-- Every form is read off its bytes. -/
theorem reads_readForm {v : Val} (h : FormBytes u implicit form v bs) : Reads (readForm form u implicit) bs v := by
  intro pre post
  refine reads_readFormN h ?_ pre post
  simp only [length_append]
  omega

end Vock.Dwarf
