import Mathlib.Data.Nat.Bitwise
import Vock.Fuzz.Inflate
import Vock.Library.Bits

/-!
# The bit reader

`Holds br l` says that `l` is what the reader `br` has still to give: the bits in its buffer, then
those of the bytes not loaded. Each operation has two laws, one that says what it does where the bits
are there and one that says what was there where it has answered.
-/

namespace Vock.Fuzz

open Library List

variable {buf : BitVec 32} {cnt n : Nat} {rest : List U8}

/-- The reader stands before the bits `l`. -/
structure Holds (br : BitReader) (l : List Bool) : Prop where
  cnt_lt : br.cnt < 8
  buf_lt : br.buf.toNat < 2 ^ br.cnt
  bits_eq : bitsOfNat br.cnt br.buf.toNat ++ bytesBits br.rest = l

theorem holds_new (data : List U8) : Holds (BitReader.new data) (bytesBits data) :=
  ⟨show 0 < 8 by decide, show 0 < 2 ^ 0 by decide, rfl⟩

namespace Holds

variable {br : BitReader} {l : List Bool}

theorem left_eq (h : Holds br l) : br.left = l.length := by
  rw [← h.bits_eq, length_append, length_bitsOfNat, length_bytesBits]
  rfl

theorem cnt_eq (h : Holds br l) : br.cnt = l.length % 8 := by
  have small := h.cnt_lt
  rw [← h.left_eq, BitReader.left]
  omega

end Holds

namespace BitReader

/-- Loading a byte puts its bits behind those in the buffer. -/
private theorem toNat_load (hbuf : buf.toNat < 2 ^ cnt)
    (hcnt : cnt ≤ 24) (b : U8) :
    (buf ||| (b.setWidth 32 <<< cnt)).toNat = buf.toNat + 2 ^ cnt * b.toNat := by
  have hb : b.toNat < 2 ^ 8 := b.isLt
  have wide : b.toNat < 2 ^ 32 := Nat.lt_trans hb (by decide)
  have fits : b.toNat * 2 ^ cnt < 2 ^ 32 :=
    calc b.toNat * 2 ^ cnt < 2 ^ 8 * 2 ^ cnt := Nat.mul_lt_mul_of_pos_right hb (Nat.two_pow_pos cnt)
      _ ≤ 2 ^ 8 * 2 ^ 24 := Nat.mul_le_mul_left _ (Nat.pow_le_pow_right (by decide) hcnt)
      _ = 2 ^ 32 := by decide
  have shifted : (b.setWidth 32 <<< cnt).toNat = 2 ^ cnt * b.toNat := by
    rw [BitVec.toNat_shiftLeft, BitVec.toNat_setWidth, Nat.mod_eq_of_lt wide, Nat.shiftLeft_eq,
      Nat.mod_eq_of_lt fits, Nat.mul_comm]
  rw [BitVec.toNat_or, shifted, Nat.or_comm, ← Nat.two_pow_add_eq_or_of_lt hbuf, Nat.add_comm]

/-- The loop of `bits` loads what is needed and changes no bit. -/
private theorem fill_some (hn : n ≤ 16)
    (hbuf : buf.toNat < 2 ^ cnt) (hcnt : cnt < n + 8) (enough : n ≤ cnt + 8 * rest.length) :
    ∃ br, fill n rest buf cnt = some br ∧ n ≤ br.cnt ∧ br.cnt < n + 8 ∧ br.buf.toNat < 2 ^ br.cnt ∧
      bitsOfNat br.cnt br.buf.toNat ++ bytesBits br.rest =
        bitsOfNat cnt buf.toNat ++ bytesBits rest := by
  induction rest generalizing buf cnt with
  | nil =>
    have have_n : ¬ cnt < n := by simpa using enough
    exact ⟨⟨[], buf, cnt⟩, by rw [fill, if_neg have_n], Nat.not_lt.mp have_n, hcnt, hbuf, rfl⟩
  | cons b rest ih =>
    by_cases hlt : cnt < n
    · have loaded := toNat_load hbuf (by omega) b
      have hb : b.toNat < 2 ^ 8 := b.isLt
      have hbuf' : (buf ||| (b.setWidth 32 <<< cnt)).toNat < 2 ^ (cnt + 8) := by
        rw [loaded, Nat.pow_add]
        calc buf.toNat + 2 ^ cnt * b.toNat < 2 ^ cnt + 2 ^ cnt * b.toNat := Nat.add_lt_add_right hbuf _
          _ = 2 ^ cnt * (b.toNat + 1) := by ring
          _ ≤ 2 ^ cnt * 2 ^ 8 := Nat.mul_le_mul_left _ hb
      rw [length_cons] at enough
      obtain ⟨br, hfill, hge, hlt8, hbr, hbits⟩ := ih hbuf' (by omega) (by omega)
      refine ⟨br, by rw [fill, if_pos hlt, hfill], hge, hlt8, hbr, ?_⟩
      rw [hbits, loaded, bitsOfNat_join cnt 8 hbuf, append_assoc, bytesBits_cons]
    · exact ⟨⟨b :: rest, buf, cnt⟩, by rw [fill, if_neg hlt], Nat.not_lt.mp hlt, hcnt, hbuf, rfl⟩

private theorem fill_none (short : cnt + 8 * rest.length < n) : fill n rest buf cnt = none := by
  induction rest generalizing buf cnt with
  | nil => exact if_pos short
  | cons b rest ih =>
    rw [length_cons] at short
    rw [fill, if_pos (by omega), ih (by omega)]

/-- The low bits of a word by masking. -/
theorem toNat_mask (hn : n ≤ 16) (buf : BitVec 32) : (buf &&& ((1#32 <<< n) - 1#32)).toNat = buf.toNat % 2 ^ n := by
  have small : 2 ^ n ≤ 2 ^ 16 := Nat.pow_le_pow_right (by decide) hn
  have pos : 0 < 2 ^ n := Nat.two_pow_pos n
  have shifted : (1#32 <<< n).toNat = 2 ^ n := by
    rw [BitVec.toNat_shiftLeft, Nat.shiftLeft_eq, BitVec.toNat_ofNat, Nat.one_mul,
      Nat.mod_eq_of_lt (by omega)]
  have mask : ((1#32 <<< n) - 1#32).toNat = 2 ^ n - 1 := by
    rw [BitVec.toNat_sub]
    simp only [BitVec.toNat_ofNat]
    omega
  rw [BitVec.toNat_and, mask, Nat.and_two_pow_sub_one_eq_mod]

variable {br br' : BitReader} {u l : List Bool} {n v : Nat}

/-- Where there are `n` bits, `bits` reads them. -/
theorem bits_of_holds (h : Holds br (u ++ l)) (hu : u.length ≤ 16) :
    ∃ br', br.bits u.length = some (natOfBits u, br') ∧ Holds br' l := by
  by_cases hz : u.length = 0
  · obtain rfl := eq_nil_of_length_eq_zero hz
    exact ⟨br, rfl, h⟩
  have enough : u.length ≤ br.cnt + 8 * br.rest.length := by
    have all := h.left_eq
    rw [left, length_append] at all
    omega
  have hcnt := h.cnt_lt
  obtain ⟨filled, hfill, hge, hlt, hbuf, hbits⟩ := fill_some hu h.buf_lt (by omega) enough
  -- the buffer is cut after the bits asked for
  have cut : bitsOfNat u.length filled.buf.toNat ++
      (bitsOfNat (filled.cnt - u.length) (filled.buf.toNat / 2 ^ u.length) ++ bytesBits filled.rest) =
        u ++ l := by
    rw [← h.bits_eq, ← hbits, ← append_assoc, ← bitsOfNat_add, Nat.add_sub_cancel' hge]
  obtain ⟨first, second⟩ := append_inj cut (length_bitsOfNat _ _)
  have shifted : (filled.buf >>> u.length).toNat = filled.buf.toNat / 2 ^ u.length := by
    rw [BitVec.toNat_ushiftRight, Nat.shiftRight_eq_div_pow]
  refine ⟨{ filled with buf := filled.buf >>> u.length, cnt := filled.cnt - u.length }, ?_, ?_, ?_, ?_⟩
  · have value : filled.buf.toNat % 2 ^ u.length = natOfBits u := by
      rw [← natOfBits_bitsOfNat, first]
    simp only [bits, if_neg hz, hfill, Option.bind_eq_bind, Option.bind_some, toNat_mask hu, value]
  · show filled.cnt - u.length < 8
    omega
  · show (filled.buf >>> u.length).toNat < 2 ^ (filled.cnt - u.length)
    rw [shifted, Nat.div_lt_iff_lt_mul (Nat.two_pow_pos _), ← Nat.pow_add, Nat.sub_add_cancel hge]
    exact hbuf
  · show bitsOfNat (filled.cnt - u.length) (filled.buf >>> u.length).toNat ++ bytesBits filled.rest = l
    rw [shifted, second]

/-- Where `bits` has answered, it has read `n` bits. -/
theorem holds_of_bits (h : Holds br l) (hn : n ≤ 16) (hb : br.bits n = some (v, br')) :
    ∃ u l', l = u ++ l' ∧ u.length = n ∧ v = natOfBits u ∧ Holds br' l' := by
  by_cases enough : n ≤ l.length
  · have len : (l.take n).length = n := length_take_of_le enough
    rw [← take_append_drop n l] at h
    obtain ⟨br1, h1, H1⟩ := bits_of_holds h (len.le.trans hn)
    rw [len, hb] at h1
    cases h1
    exact ⟨l.take n, l.drop n, (take_append_drop n l).symm, len, rfl, H1⟩
  · have short : br.cnt + 8 * br.rest.length < n := by
      rw [← left, h.left_eq]
      omega
    have nz : n ≠ 0 := by omega
    simp only [bits, if_neg nz, fill_none short] at hb
    cases hb

/-- A field of `n` bits is read as the number it holds. -/
theorem bits_of_field (hn : n ≤ 16) (hv : v < 2 ^ n) (h : Holds br (bitsOfNat n v ++ l)) :
    ∃ br', br.bits n = some (v, br') ∧ Holds br' l := by
  have len := length_bitsOfNat n v
  obtain ⟨br', hbits, hbr'⟩ := bits_of_holds h (len.le.trans hn)
  rw [len, natOfBits_bitsOfNat, Nat.mod_eq_of_lt hv] at hbits
  exact ⟨br', hbits, hbr'⟩

/-- Where `bits` has answered, there was a field with the number. -/
theorem field_of_bits (hn : n ≤ 16) (h : Holds br l) (hb : br.bits n = some (v, br')) :
    v < 2 ^ n ∧ ∃ l', l = bitsOfNat n v ++ l' ∧ Holds br' l' := by
  obtain ⟨u, l', rfl, rfl, rfl, hbr'⟩ := holds_of_bits h hn hb
  exact ⟨natOfBits_lt u, l', by rw [bitsOfNat_natOfBits], hbr'⟩

/-- The bits up to a whole byte are dropped. -/
theorem holds_alignByte {pad : List Bool} (h : Holds br (pad ++ l)) (hp : pad.length = br.cnt) :
    Holds br.alignByte l := by
  have all : br.cnt % 8 = br.cnt := Nat.mod_eq_of_lt h.cnt_lt
  obtain ⟨-, second⟩ := append_inj h.bits_eq ((length_bitsOfNat _ _).trans hp.symm)
  have empty : (br.buf >>> br.cnt).toNat = 0 := by
    rw [BitVec.toNat_ushiftRight, Nat.shiftRight_eq_div_pow, Nat.div_eq_of_lt h.buf_lt]
  refine ⟨?_, ?_, ?_⟩
  · simp only [alignByte, all, Nat.sub_self]
    decide
  · simp only [alignByte, all, Nat.sub_self, empty]
    decide
  · simp only [alignByte, all, Nat.sub_self, second]
    rfl

/-- Loading moves bits and loses none. -/
private theorem left_fill (h : fill n rest buf cnt = some br) : br.left = cnt + 8 * rest.length ∧ n ≤ br.cnt := by
  induction rest generalizing buf cnt with
  | nil =>
    by_cases hlt : cnt < n
    · rw [fill, if_pos hlt] at h
      cases h
    · rw [fill, if_neg hlt] at h
      cases h
      exact ⟨rfl, Nat.not_lt.mp hlt⟩
  | cons b rest ih =>
    by_cases hlt : cnt < n
    · rw [fill, if_pos hlt] at h
      obtain ⟨hl, hc⟩ := ih h
      rw [length_cons]
      exact ⟨by omega, hc⟩
    · rw [fill, if_neg hlt] at h
      cases h
      exact ⟨rfl, Nat.not_lt.mp hlt⟩

/-- What is read is gone. -/
theorem left_bits (h : br.bits n = some (v, br')) : br'.left + n = br.left := by
  by_cases hz : n = 0
  · subst hz
    cases h
    rfl
  · rw [bits, if_neg hz] at h
    obtain ⟨filled, hfill, hret⟩ := Option.bind_eq_some_iff.mp h
    obtain ⟨hl, hc⟩ := left_fill hfill
    cases hret
    simp only [left] at hl ⊢
    omega

theorem left_bits_le (h : br.bits n = some (v, br')) : br'.left ≤ br.left :=
  Nat.le_of_add_right_le (left_bits h).le

end BitReader

end Vock.Fuzz
