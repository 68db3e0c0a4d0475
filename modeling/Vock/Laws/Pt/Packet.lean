import Vock.Pt.Packet

/-!
# The scanner's laws

Facts about one scan, each for every byte string and every block state:

* **locality** (`scanAt_append`): bytes after a scanned packet do not change the scan;
* **extent** (`scanAt_extent`): a packet is at least one byte long and lies in the bytes given;
* **IP packets** (`scanAt_ip`): an IP packet's code is not reserved, and its length is the opcode
  byte and the code's payload;
* **TNT packets** (`scanAt_outcomes`): their payload is of 48 bits.

The last three are read off `Scanned`, what a scan can be.
-/

namespace Vock.Pt

open List

variable {n avail : Nat} {e enc op : U8} {payload s : List U8} {rest : List U8} {block : Option Nat}

/-! ## Locality -/

/-- Unless it is cut short, the scan `r` stays with more bytes. -/
def Kept (r r' : Scan) : Prop := r.pkt ≠ .truncated → r' = r

theorem Kept.ite {p : Prop} [Decidable p] {a a' b b' : Scan} (ha : p → Kept a a') (hb : ¬ p → Kept b b') :
    Kept (if p then a else b) (if p then a' else b') := by
  by_cases hp : p
  · rw [if_pos hp, if_pos hp]
    exact ha hp
  · rw [if_neg hp, if_neg hp]
    exact hb hp

theorem sized_append {more : Nat} {pkt : Pkt} : Kept (sized avail pkt n) (sized (avail + more) pkt n) := by
  intro h
  unfold sized at h ⊢
  split at h
  · exact absurd rfl h
  · rename_i hge
    rw [if_neg hge, if_neg (by omega)]

theorem extArm_append (t : List U8)
    (h : extArm e payload ≠ .error .trunc) : extArm e (payload ++ t) = extArm e payload := by
  unfold extArm at h ⊢
  cases hf : extFixed e with
  | some r => rfl
  | none =>
    simp only [hf] at h ⊢
    split
    · -- long TNT: the six payload bytes are there
      rename_i he
      rw [if_pos he] at h
      split at h
      · exact absurd rfl h
      · rename_i hge
        rw [if_neg hge, if_neg (by rw [length_append]; omega),
          take_append_of_le_length (by omega)]
    · rename_i he
      rw [if_neg he] at h
      cases payload with
      | nil =>
        -- only the arms that read a payload byte look at the payload
        split
        · rename_i hb; rw [if_pos hb] at h; exact absurd rfl h
        · rename_i hb
          rw [if_neg hb] at h
          split
          · rename_i hx; rw [if_pos hx] at h; exact absurd rfl h
          · rfl
      | cons p rest => rfl

theorem scanExt_append (t : List U8) (h : (scanExt s).pkt ≠ .truncated) : scanExt (s ++ t) = scanExt s := by
  cases s with
  | nil => exact absurd rfl h
  | cons e payload =>
    simp only [scanExt, cons_append] at h ⊢
    have harm : extArm e payload ≠ .error .trunc := by
      intro heq
      rw [heq] at h
      exact h rfl
    rw [extArm_append t harm]
    cases hr : extArm e payload with
    | error s => rfl
    | ok r =>
      simp only [hr] at h ⊢
      split at h
      · exact absurd rfl h
      · rename_i hge
        rw [if_neg hge, if_neg (by rw [length_append]; omega)]

theorem scanCyc_append {more : Bool} (t : List U8)
    (h : (scanCyc n rest more).pkt ≠ .truncated) :
    scanCyc n (rest ++ t) more = scanCyc n rest more := by
  induction rest generalizing n more with
  | nil =>
    cases more with
    | false => cases t <;> rfl
    | true =>
      simp only [scanCyc] at h
      split at h
      · rename_i hmax
        cases t with
        | nil => rfl
        | cons c t => simp [scanCyc, if_pos hmax]
      · exact absurd rfl h
  | cons c rest ih =>
    cases more with
    | false => rfl
    | true =>
      simp only [cons_append, scanCyc] at h ⊢
      split
      · rfl
      · rename_i hmax
        rw [if_neg hmax] at h
        exact ih h

theorem scanTail_append {b : U8} (t : List U8) : Kept (scanTail b rest) (scanTail b (rest ++ t)) :=
  .ite (fun _ => scanCyc_append t) fun _ _ => rfl

/-- Bytes after a packet do not change its scan. -/
theorem scanAt_append (t : List U8)
    (h : (scanAt s block).pkt ≠ .truncated) : scanAt (s ++ t) block = scanAt s block := by
  cases s with
  | nil => exact absurd rfl h
  | cons b rest =>
    have hlen : (rest ++ t).length + 1 = (rest.length + 1) + t.length := by
      rw [length_append]; omega
    have hkept : Kept (scanAt (b :: rest) block) (scanAt (b :: rest ++ t) block) := by
      simp only [scanAt, cons_append, hlen]
      refine .ite (fun _ _ => rfl) fun _ => .ite (fun _ => scanExt_append t) fun _ => ?_
      refine .ite (fun _ => sized_append) fun _ => .ite (fun _ => sized_append) fun _ => ?_
      refine .ite (fun _ => sized_append) fun _ => .ite (fun _ => ?_) fun _ => ?_
      · cases ipPayloadLen ((b >>> 5) &&& 7#8) with
        | none => exact fun _ => rfl
        | some n => exact sized_append
      · cases block with
        | none => exact scanTail_append t
        | some width => exact .ite (fun _ => sized_append) fun _ => scanTail_append t
    exact hkept h

/-! ## What a scan can be -/

/-- A scan that found a packet: neither undecodable nor cut short. -/
def Scan.Ok (s : Scan) : Prop := s.pkt ≠ .bad ∧ s.pkt ≠ .truncated

instance (s : Scan) : Decidable s.Ok := by unfold Scan.Ok; infer_instance

/-- A scan within `avail` bytes. -/
def Scan.Within (avail : Nat) (s : Scan) : Prop := s.Ok → 1 ≤ s.len ∧ s.len ≤ avail

/-- An IP packet. -/
def Pkt.isIp : Pkt → Bool
  | .ip _ _ => true
  | _ => false

/-- The payload of a TNT packet. -/
def Pkt.outcomes : Pkt → U64
  | .tnt8 payload | .tnt64 payload => payload
  | _ => 0#64

/-- What a scan of `avail` bytes can be: no packet, an IP packet of the length of its code, or another packet, with 48 bits of
outcomes at most. -/
inductive Scanned (avail : Nat) : Scan → Prop
  | bad : Scanned avail .bad
  | trunc : Scanned avail .trunc
  | ip {op enc : U8} {n : Nat} (code : ipPayloadLen enc = some n) (le : 1 + n ≤ avail) : Scanned avail ⟨.ip op enc, 1 + n⟩
  | other {pkt : Pkt} {len : Nat} (notIp : pkt.isIp = false) (bits : pkt.outcomes.toNat < 2 ^ 48) (pos : 1 ≤ len)
      (le : len ≤ avail) : Scanned avail ⟨pkt, len⟩

theorem scanned_skip (hn : 1 ≤ n) : Scanned avail (sized avail .skip n) := by
  unfold sized
  split
  · exact .trunc
  · exact .other rfl (by decide) hn (by omega)

/-- Every entry of the table of fixed lengths is at least one byte long, and none is an IP packet or a TNT packet. -/
theorem extFixed_entry : ∀ e : U8, ∀ r ∈ extFixed e, 1 ≤ r.2 ∧ r.1.isIp = false ∧ r.1.outcomes.toNat < 2 ^ 48 := by
  decide +kernel

theorem extArm_entry {r : Pkt × Nat} (h : extArm e payload = .ok r) :
    1 ≤ r.2 ∧ r.1.isIp = false ∧ r.1.outcomes.toNat < 2 ^ 48 := by
  unfold extArm at h
  cases hf : extFixed e with
  | some r' =>
    rw [hf] at h
    injection h with h
    exact h ▸ extFixed_entry e r' hf
  | none =>
    simp only [hf] at h
    split at h
    next =>
      split at h
      · cases h
      · cases h
        exact ⟨by dsimp only; omega, rfl, toNat_leValue_lt (length_take_le _ _)⟩
    next =>
      repeat' split at h
      all_goals cases h
      all_goals exact ⟨by dsimp only; omega, rfl, Nat.two_pow_pos 48⟩

theorem extArm_error {s : Scan} (h : extArm e payload = .error s) : s = .bad ∨ s = .trunc := by
  unfold extArm at h
  cases hf : extFixed e with
  | some r' => rw [hf] at h; exact nomatch h
  | none =>
    simp only [hf] at h
    repeat' split at h
    all_goals cases h
    all_goals decide

theorem scanned_scanExt (s : List U8) : Scanned (s.length + 1) (scanExt s) := by
  cases s with
  | nil => exact .trunc
  | cons e payload =>
    simp only [scanExt]
    cases hr : extArm e payload with
    | error s =>
      rcases extArm_error hr with rfl | rfl
      · exact .bad
      · exact .trunc
    | ok r =>
      obtain ⟨hpos, hip, hbits⟩ := extArm_entry hr
      dsimp only
      split
      · exact .trunc
      · exact .other hip hbits hpos (by simp only [length_cons]; omega)

theorem scanned_scanCyc (hn : 1 ≤ n) (rest : List U8) (more : Bool) :
    Scanned (n + rest.length) (scanCyc n rest more) := by
  induction rest generalizing n more with
  | nil =>
    cases more with
    | false => exact .other rfl (by decide) hn (by omega)
    | true =>
      simp only [scanCyc]
      split
      · exact .bad
      · exact .trunc
  | cons c rest ih =>
    cases more with
    | false => exact .other rfl (by decide) hn (by omega)
    | true =>
      simp only [scanCyc, length_cons]
      split
      · exact .bad
      · rw [Nat.add_comm rest.length, ← Nat.add_assoc]
        exact ih (by omega) _

theorem scanned_scanTail (b : U8) (rest : List U8) : Scanned (rest.length + 1) (scanTail b rest) := by
  unfold scanTail
  split
  · rw [Nat.add_comm]
    exact scanned_scanCyc (Nat.le_refl 1) rest _
  · split
    · have hb := (b >>> 1).isLt
      refine .other rfl ?_ (Nat.le_refl 1) (by omega)
      rw [Pkt.outcomes, BitVec.toNat_setWidth]
      omega
    · exact .bad

theorem scanned_scanAt (s : List U8) (block : Option Nat) : Scanned s.length (scanAt s block) := by
  cases s with
  | nil => exact .trunc
  | cons b rest =>
    simp only [scanAt, length_cons]
    split
    · exact .other rfl (by decide) (Nat.le_refl 1) (by omega)
    · split
      · exact scanned_scanExt rest
      · split
        · exact scanned_skip (by omega)
        · split
          · exact scanned_skip (by omega)
          · split
            · exact scanned_skip (by omega)
            · split
              · cases hcode : ipPayloadLen ((b >>> 5) &&& 7#8) with
                | none => exact .bad
                | some n =>
                  dsimp only [sized]
                  split
                  · exact .trunc
                  · exact .ip hcode (by omega)
              · cases block with
                | none => exact scanned_scanTail b rest
                | some width =>
                  dsimp only
                  split
                  · exact scanned_skip (by omega)
                  · exact scanned_scanTail b rest

/-- A packet is at least one byte long and lies in the bytes that are there. -/
theorem scanAt_extent (s : List U8) (block : Option Nat) : (scanAt s block).Within s.length := by
  intro ok
  have h := scanned_scanAt s block
  generalize scanAt s block = r at h ok
  cases h with
  | bad => exact absurd rfl ok.1
  | trunc => exact absurd rfl ok.2
  | ip _ le => exact ⟨Nat.le_add_right 1 _, le⟩
  | other _ _ pos le => exact ⟨pos, le⟩

/-- An IP packet's code is not reserved, and its length is the opcode byte and the payload. -/
theorem scanAt_ip
    (h : (scanAt s block).pkt = .ip op enc) :
    ∃ n, ipPayloadLen enc = some n ∧ (scanAt s block).len = 1 + n := by
  have hs := scanned_scanAt s block
  generalize scanAt s block = r at h hs
  cases hs with
  | bad | trunc => cases h
  | ip code _ =>
    cases h
    exact ⟨_, code, rfl⟩
  | other notIp =>
    cases h
    cases notIp

/-- A TNT packet has 48 bits at most. -/
theorem scanAt_outcomes (s : List U8) (block : Option Nat) : (scanAt s block).pkt.outcomes.toNat < 2 ^ 48 := by
  have h := scanned_scanAt s block
  generalize scanAt s block = r at h
  cases h with
  | bad | trunc | ip => exact Nat.two_pow_pos 48
  | other _ bits => exact bits

end Vock.Pt
