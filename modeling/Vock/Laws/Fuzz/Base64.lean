import Vock.Fuzz.Inflate

/-!
# Base64

The standard encoding of RFC 4648, and that `base64_decode` inverts it (`base64Decode_encode64`). The accumulator is never
cut: only its low bits are given out, and those are of the last two characters (`toNat_push64`).
-/

namespace Vock.Fuzz

open List

def alphabet64 : List U8 := utf8 "ABCDEFGHIJKLMNOPQRSTUVWXYZabcdefghijklmnopqrstuvwxyz0123456789+/"

def char64 (v : Nat) : U8 := alphabet64.getD v 0#8

/-- The characters of bytes, without padding. -/
def encode64 : List U8 → List U8
  | a :: b :: c :: bs =>
    char64 (a.toNat / 4) :: char64 (a.toNat % 4 * 16 + b.toNat / 16) :: char64 (b.toNat % 16 * 4 + c.toNat / 64) ::
      char64 (c.toNat % 64) :: encode64 bs
  | [a, b] => [char64 (a.toNat / 4), char64 (a.toNat % 4 * 16 + b.toNat / 16), char64 (b.toNat % 16 * 4)]
  | [a] => [char64 (a.toNat / 4), char64 (a.toNat % 4 * 16)]
  | [] => []

/-- What fills the characters of `n` bytes up to a multiple of four. -/
def padding64 (n : Nat) : List U8 := replicate ((3 - n % 3) % 3) (byte '=')

theorem char64_spec : ∀ v < 64, b64Val (char64 v) = some (BitVec.ofNat 8 v) ∧ char64 v ≠ byte '=' ∧
    isAsciiWhitespace (char64 v) = false := by decide +kernel

theorem mem_alphabet64 : ∀ c : U8, b64Val c ≠ none → c ∈ alphabet64 := by decide +kernel

/-- `acc` with the bits of one more character. -/
def push64 (acc : BitVec 32) (v : Nat) : BitVec 32 := (acc <<< 6) ||| (BitVec.ofNat 8 v).setWidth 32

theorem toNat_push64 (acc : BitVec 32) {v : Nat} (hv : v < 64) : (push64 acc v).toNat = acc.toNat % 2 ^ 26 * 64 + v := by
  have hshift : acc.toNat <<< 6 % 2 ^ 32 = (acc.toNat % 2 ^ 26) <<< 6 := by
    omega
  rw [push64, BitVec.toNat_or, BitVec.toNat_shiftLeft, BitVec.toNat_setWidth, BitVec.toNat_ofNat, hshift,
    Nat.mod_eq_of_lt (show v < 2 ^ 8 by omega), Nat.mod_eq_of_lt (show v < 2 ^ 32 by omega),
    ← Nat.shiftLeft_add_eq_or_of_lt (show v < 2 ^ 6 from hv), Nat.shiftLeft_eq]

variable (acc : BitVec 32) (n : Nat) (s : List U8)

theorem base64From_char64 {v : Nat} (hv : v < 64) :
    base64From acc n (char64 v :: s) =
      if 8 ≤ n + 6 then
        (base64From (push64 acc v) (n + 6 - 8) s).map (BitVec.ofNat 8 ((push64 acc v).toNat / 2 ^ (n + 6 - 8)) :: ·)
      else base64From (push64 acc v) (n + 6) s := by
  obtain ⟨hval, hpad, hspace⟩ := char64_spec v hv
  have hbyte : ∀ (x : BitVec 32) (k : Nat), (x >>> k).setWidth 8 = BitVec.ofNat 8 (x.toNat / 2 ^ k) := by
    intro x k
    rw [← BitVec.toNat_inj, BitVec.toNat_setWidth, BitVec.toNat_ushiftRight, Nat.shiftRight_eq_div_pow, BitVec.toNat_ofNat]
  rw [base64From, if_neg hpad, hspace, hval]
  simp [push64, hbyte]

theorem base64From_space (pad : List U8) :
    base64From acc n (s ++ pad) = base64From acc n (s.filter (!isAsciiWhitespace ·) ++ pad) := by
  induction s generalizing acc n with
  | nil => rfl
  | cons c s ih =>
    by_cases hspace : isAsciiWhitespace c
    · have hpad : c ≠ byte '=' := by rintro rfl; exact absurd hspace (by decide)
      rw [filter_cons_of_neg (by simp [hspace]), ← ih, cons_append, base64From, if_neg hpad, if_pos hspace]
    · rw [filter_cons_of_pos (by simp [hspace]), cons_append, cons_append, base64From, base64From]
      simp only [ih]

theorem base64From_encode64 {pad : List U8} (hpad : ∀ c ∈ pad, c = byte '=') (bs : List U8) :
    base64From acc 0 (encode64 bs ++ pad) = some bs := by
  have hend : ∀ (acc : BitVec 32) (n : Nat), base64From acc n pad = some [] := by
    intro acc n
    cases pad with
    | nil => rfl
    | cons c pad => rw [base64From, if_pos (hpad c mem_cons_self)]
  induction bs using encode64.induct generalizing acc with
  | case1 a b c bs ih =>
    simp (disch := omega) [encode64, base64From_char64, toNat_push64, ih, ← BitVec.toNat_inj]
    omega
  | case2 a b =>
    simp (disch := omega) [encode64, base64From_char64, toNat_push64, hend, ← BitVec.toNat_inj]
    omega
  | case3 a =>
    simp (disch := omega) [encode64, base64From_char64, toNat_push64, hend, ← BitVec.toNat_inj]
    omega
  | case4 => exact hend acc 0

theorem base64From_other {c : U8} (hpad : c ≠ byte '=') (hspace : isAsciiWhitespace c = false) (hother : c ∉ alphabet64)
    (rest : List U8) (hs : byte '=' ∉ s) : base64From acc n (s ++ c :: rest) = none := by
  have hnone : b64Val c = none := by
    by_contra hval
    exact hother (mem_alphabet64 c hval)
  induction s generalizing acc n with
  | nil => rw [nil_append, base64From, if_neg hpad, hspace, hnone]; rfl
  | cons d s ih =>
    obtain ⟨hd, hs⟩ := not_or.mp (mt mem_cons.mpr hs)
    rw [cons_append, base64From, if_neg (Ne.symm hd)]
    simp only [ih _ _ hs]
    cases b64Val d <;> simp

/-- Characters of bytes give the bytes back, with or without padding, wherever white space stands between them; with another
character in front of the padding there is no answer. -/
theorem base64Decode_encode64 :
    (∀ bs s pad : List U8, s.filter (!isAsciiWhitespace ·) = encode64 bs → (pad = [] ∨ pad = padding64 bs.length) →
      base64Decode (s ++ pad) = some bs) ∧
    ∀ (s : List U8) (c : U8) (rest : List U8), byte '=' ∉ s → c ≠ byte '=' → isAsciiWhitespace c = false → c ∉ alphabet64 →
      base64Decode (s ++ c :: rest) = none := by
  refine ⟨fun bs s pad hs hpad => ?_, fun s c rest hs hpad hspace hother => base64From_other _ _ _ hpad hspace hother rest hs⟩
  rw [base64Decode, base64From_space, hs]
  refine base64From_encode64 _ (fun c hc => ?_) bs
  rcases hpad with rfl | rfl
  · cases hc
  · exact eq_of_mem_replicate hc

/-- `TWE=`, with a line end in it. -/
theorem base64Decode_encode64_two :
    base64Decode (ascii ['T', 'W', '\n', 'E', '=']) = some (ascii ['M', 'a']) ∧
      base64Decode (ascii ['T', '-', 'W']) = none :=
  ⟨base64Decode_encode64.1 (ascii ['M', 'a']) (ascii ['T', 'W', '\n', 'E']) (ascii ['=']) (by decide) (.inr rfl),
    base64Decode_encode64.2 (ascii ['T']) (byte '-') (ascii ['W']) (by decide) (by decide) rfl (by decide)⟩

end Vock.Fuzz
