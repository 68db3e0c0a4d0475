import Vock.Laws.Fuzz.Loops
import Vock.Library.Deflate

/-!
# The head of a dynamic block

The numbers and the code-length code in front of a dynamic block (`dynamicHead`), and the run-length
coded lengths (`readLengths`), against `Deflate.Header` and `Deflate.LengthRun`.

The loop cuts a repeat code 17 or 18 that runs past the end and goes on as if it had fitted, where the
format has no such list. `ZerosFit` says that the next item is not one of these; with it at every
round, what the loop has read is a list of the format (`lengthRun_of_readLengths`).
-/

namespace Vock.Fuzz

open Library List

variable {s' : LengthState} {br₀ : BitReader} {os : List Nat}

variable {br br' : BitReader} {l w bits : List Bool} {vs cl : List Nat} {least width : Nat}

/-! ## The code-length code -/

/-- The lengths of the code-length code, set one by one. -/
def setAll (os vs cl : List Nat) : List Nat := (os.zip vs).foldl (fun cl p => cl.set p.1 p.2) cl

theorem readCl_of_holds (cl : List Nat) (hlen : vs.length = os.length) (hlt : ∀ v ∈ vs, v < 8)
    (hbr : Holds br (vs.flatMap (bitsOfNat 3) ++ l)) :
    ∃ br', readCl os cl br = some (setAll os vs cl, br') ∧ Holds br' l := by
  induction os generalizing vs cl br with
  | nil =>
    obtain rfl := eq_nil_of_length_eq_zero hlen
    exact ⟨br, rfl, hbr⟩
  | cons o os ih =>
    cases vs with
    | nil => cases hlen
    | cons v vs =>
      rw [flatMap_cons, append_assoc] at hbr
      obtain ⟨br₁, hv, hbr₁⟩ := BitReader.bits_of_field (by decide) (hlt v mem_cons_self) hbr
      obtain ⟨br', hrest, hbr'⟩ := ih (cl.set o v) (Nat.succ.inj hlen)
        (fun x hx => hlt x (mem_cons_of_mem _ hx)) hbr₁
      refine ⟨br', ?_, hbr'⟩
      simp only [readCl, hv, Option.bind_eq_bind, Option.bind_some, hrest]
      rfl

theorem holds_of_readCl {cl' : List Nat} (hbr : Holds br l)
    (h : readCl os cl br = some (cl', br')) :
    ∃ vs l', vs.length = os.length ∧ (∀ v ∈ vs, v < 8) ∧ l = vs.flatMap (bitsOfNat 3) ++ l' ∧
      cl' = setAll os vs cl ∧ Holds br' l' := by
  induction os generalizing cl br l with
  | nil =>
    cases h
    exact ⟨[], l, rfl, nofun, rfl, rfl, hbr⟩
  | cons o os ih =>
    obtain ⟨⟨v, br₁⟩, hv, h⟩ := Option.bind_eq_some_iff.mp h
    obtain ⟨hlt, l₁, rfl, hbr₁⟩ := BitReader.field_of_bits (by decide) hbr hv
    obtain ⟨vs, l', hlen, hall, rfl, rfl, hbr'⟩ := ih hbr₁ h
    refine ⟨v :: vs, l', congrArg Nat.succ hlen, ?_, ?_, rfl, hbr'⟩
    · exact forall_mem_cons.mpr ⟨hlt, hall⟩
    · rw [flatMap_cons, append_assoc]

theorem length_setAll (os vs cl : List Nat) : (setAll os vs cl).length = cl.length := by
  induction os generalizing vs cl with
  | nil => rfl
  | cons o os ih =>
    cases vs with
    | nil => rfl
    | cons v vs =>
      have next : setAll (o :: os) (v :: vs) cl = setAll os vs (cl.set o v) := rfl
      rw [next, ih, length_set]

private theorem getD_setAll (nodup : os.Nodup) (hlen : vs.length = os.length)
    (hos : ∀ o ∈ os, o < cl.length) (s : Nat) :
    (setAll os vs cl).getD s 0 = if s ∈ os then vs.getD (os.idxOf s) 0 else cl.getD s 0 := by
  induction os generalizing vs cl with
  | nil => rfl
  | cons o os ih =>
    cases vs with
    | nil => cases hlen
    | cons v vs =>
      obtain ⟨hnot, nodup⟩ := nodup_cons.mp nodup
      obtain ⟨ho, hos⟩ := forall_mem_cons.mp hos
      have next : setAll (o :: os) (v :: vs) cl = setAll os vs (cl.set o v) := rfl
      rw [next, ih nodup (Nat.succ.inj hlen) (by simpa using hos)]
      by_cases hs : o = s
      · subst hs
        simp [hnot, ho]
      · simp [hs, Ne.symm hs]

/-- Lengths sent in the order of the format are set where they belong. -/
theorem setAll_order {sent : List Nat} (h : sent.length ≤ 19) :
    setAll (order.take sent.length) sent (List.replicate 19 0) =
      (List.range 19).map fun s => sent.getD (Deflate.codeLengthOrder.idxOf s) 0 := by
  have nodup : (order.take sent.length).Nodup := (by decide : order.Nodup).sublist (take_sublist _ _)
  have inside : ∀ o ∈ order.take sent.length, o < (replicate 19 0).length := fun o ho =>
    (by decide : ∀ o ∈ order, o < 19) o (mem_of_mem_take ho)
  have len : sent.length = (order.take sent.length).length := by
    rw [length_take]
    exact (Nat.min_eq_left h).symm
  refine ext_getElem (by simp [length_setAll]) fun s hs _ => ?_
  rw [getElem_map, getElem_range, ← getD_eq_getElem _ 0 hs,
    getD_setAll nodup len inside]
  have order_eq : Deflate.codeLengthOrder = order.take sent.length ++ order.drop sent.length :=
    (take_append_drop _ _).symm
  by_cases hmem : s ∈ order.take sent.length
  · rw [if_pos hmem, order_eq, idxOf_append_of_mem hmem]
  · rw [if_neg hmem, order_eq, idxOf_append_of_notMem hmem, ← len,
      getD_eq_default _ _ (Nat.le_add_right _ _)]
    rw [length_setAll] at hs
    exact getD_replicate _ hs

/-! ## The header -/

theorem dynamicHead_of_header (h : Deflate.Header) (hbr : Holds br (h.bits ++ l)) :
    ∃ br', dynamicHead br = some (⟨h.literals, h.distances, h.codeLengths⟩, br') ∧ Holds br' l := by
  have hlit := h.literals_ge
  have hlit' := h.literals_le
  have hdist := h.distances_ge
  have hdist' := h.distances_le
  have hcl := h.sent_ge
  have hcl' := h.sent_le
  simp only [Deflate.Header.bits, append_assoc] at hbr
  obtain ⟨br₁, h₁, hbr₁⟩ := BitReader.bits_of_field (by decide) (by omega) hbr
  obtain ⟨br₂, h₂, hbr₂⟩ := BitReader.bits_of_field (by decide) (by omega) hbr₁
  obtain ⟨br₃, h₃, hbr₃⟩ := BitReader.bits_of_field (by decide) (by omega) hbr₂
  have len : h.sent.length = (order.take h.sent.length).length := by
    rw [length_take]
    exact (Nat.min_eq_left hcl').symm
  obtain ⟨br₄, h₄, hbr₄⟩ := readCl_of_holds (replicate 19 0) len h.sent_lt hbr₃
  refine ⟨br₄, ?_, hbr₄⟩
  simp only [dynamicHead, h₁, h₂, h₃, Option.bind_eq_bind, Option.bind_some, Nat.sub_add_cancel hcl, h₄,
    Nat.sub_add_cancel hlit, Nat.sub_add_cancel hdist, setAll_order hcl', Deflate.Header.codeLengths]

/-- What was read as a head is a header of the format if it does not declare too many literals. -/
theorem header_of_dynamicHead {head : DynamicHead} (hbr : Holds br l)
    (h : dynamicHead br = some (head, br')) (hlit : head.hlit ≤ 286) :
    ∃ (header : Deflate.Header) (l' : List Bool), l = header.bits ++ l' ∧
      head = ⟨header.literals, header.distances, header.codeLengths⟩ ∧ Holds br' l' := by
  simp only [dynamicHead, Option.bind_eq_bind, Option.bind_eq_some_iff, Prod.exists] at h
  obtain ⟨a, br₁, h₁, b, br₂, h₂, c, br₃, h₃, cl, br₄, h₄, hret⟩ := h
  cases hret
  obtain ⟨ha, l₁, rfl, hbr₁⟩ := BitReader.field_of_bits (by decide) hbr h₁
  obtain ⟨hb, l₂, rfl, hbr₂⟩ := BitReader.field_of_bits (by decide) hbr₁ h₂
  obtain ⟨hc, l₃, rfl, hbr₃⟩ := BitReader.field_of_bits (by decide) hbr₂ h₃
  obtain ⟨sent, l₄, hlen, hsent, rfl, rfl, hbr₄⟩ := holds_of_readCl hbr₃ h₄
  have many : (order.take (c + 4)).length = c + 4 := length_take_of_le (show c + 4 ≤ 19 by omega)
  rw [many] at hlen
  refine ⟨⟨a + 257, b + 1, sent, by omega, hlit, by omega, by omega, by omega, by omega, hsent⟩, l₄,
    ?_, ?_, hbr₄⟩
  · simp [Deflate.Header.bits, hlen]
  · have sorted := setAll_order (by omega : sent.length ≤ 19)
    rw [hlen] at sorted
    rw [sorted]
    rfl

/-- The lengths of the code-length code have three bits. -/
theorem codeLengths_le (h : Deflate.Header) : ∀ n ∈ h.codeLengths, n ≤ maxBits := by
  intro n hn
  obtain ⟨s, -, rfl⟩ := mem_map.mp hn
  rw [getD_eq_getElem?_getD]
  cases hs : h.sent[Deflate.codeLengthOrder.idxOf s]? with
  | none => exact Nat.zero_le _
  | some n => exact Nat.le_trans (h.sent_lt n (mem_of_getElem? hs)).le (by decide)

/-! ## The lengths while they are read -/

variable {cl before lens more : List Nat} {total : Nat}

/-- The list of lengths when `before` has been read: the rest is still zero. -/
def filledTo (total : Nat) (before : List Nat) : List Nat :=
  before ++ List.replicate (total - before.length) 0

theorem length_filledTo (h : before.length ≤ total) : (filledTo total before).length = total := by
  rw [filledTo, length_append, length_replicate, Nat.add_sub_cancel' h]

theorem filledTo_of_length (h : before.length = total) : filledTo total before = before := by
  rw [filledTo, h, Nat.sub_self, replicate_zero, append_nil]

theorem set_filledTo (h : before.length < total) (v : Nat) :
    (filledTo total before).set before.length v = filledTo total (before ++ [v]) := by
  obtain ⟨k, hk⟩ : ∃ k, total - before.length = k + 1 := ⟨total - before.length - 1, by omega⟩
  have hk' : total - (before ++ [v]).length = k := by
    rw [length_append, length_singleton]
    omega
  rw [filledTo, filledTo, hk, hk', set_append_right _ _ (Nat.le_refl _), Nat.sub_self,
    replicate_succ, set_cons_zero, append_assoc, singleton_append]

/-- Zeros are there already. -/
theorem filledTo_zeros {n : Nat} (h : before.length + n ≤ total) :
    filledTo total (before ++ List.replicate n 0) = filledTo total before := by
  rw [filledTo, length_append, length_replicate, append_assoc,
    replicate_append_replicate]
  congr 2
  omega

theorem getD_filledTo_last {p : Nat} (h : before.getLast? = some p) :
    (filledTo total before).getD (before.length - 1) 0 = p := by
  have pos : before.length - 1 < before.length := by
    cases before with
    | nil => cases h
    | cons => simp
  rw [getLast?_eq_getElem?] at h
  rw [filledTo, getD_eq_getElem?_getD, getElem?_append_left pos, h]
  rfl

/-- Repeat code 16 adds its lengths or fails where there is no room for them. -/
theorem repeatPrev_filledTo (p n : Nat) (h : before.length ≤ total) :
    repeatPrev p n (filledTo total before) before.length =
      if before.length + n ≤ total then
        some (filledTo total (before ++ List.replicate n p), before.length + n)
      else none := by
  induction n generalizing before with
  | zero => rw [Nat.add_zero, if_pos h, replicate_zero, append_nil]; rfl
  | succ n ih =>
    rw [repeatPrev, length_filledTo h]
    by_cases room : total ≤ before.length
    · rw [if_pos room, if_neg (by omega)]
    · have next : (before ++ [p]).length = before.length + 1 := by
        rw [length_append, length_singleton]
      have step := ih (next.le.trans (Nat.lt_of_not_le room))
      rw [next, Nat.add_assoc, Nat.add_comm 1 n] at step
      rw [if_neg room, set_filledTo (by omega), step, append_assoc, singleton_append,
        ← replicate_succ]

/-! ## Rounds -/

/-- The state of the loop when `before` has been read. -/
def lengthState (total : Nat) (before : List Nat) (br : BitReader) : LengthState :=
  ⟨filledTo total before, before.length, br⟩

/-- If the next item is a repeat code 17 or 18, it does not run past the end of the list. -/
def ZerosFit (clTree : Huffman) (s : LengthState) : Prop :=
  ∀ sym br e br', s.i < s.lengths.length → clTree.decode s.br = some (sym, br) →
    (sym = 17 → br.bits 3 = some (e, br') → s.i + (3 + e) ≤ s.lengths.length) ∧
    (sym = 18 → br.bits 7 = some (e, br') → s.i + (11 + e) ≤ s.lengths.length)

/-- A round that reads a symbol. -/
theorem lengthStep_continues {clTree : Huffman} {sym : Nat} {br₁ : BitReader}
    (h : before.length < total) (hsym : clTree.decode br = some (sym, br₁))
    (hs' : lengthSymbol (lengthState total before br) sym br₁ = some s') :
    Continues (lengthStep clTree) (lengthState total before br) s' := by
  have inside : (lengthState total before br).i < (lengthState total before br).lengths.length := by
    rw [lengthState, length_filledTo h.le]
    exact h
  have decoded : clTree.decode (lengthState total before br).br = some (sym, br₁) := hsym
  simp [Continues, lengthStep, if_pos inside, decoded, hs']

private theorem skipZeros_of_holds {e : List Bool} (he : e.length = width)
    (hw : width ≤ 16) (room : before.length + (least + natOfBits e) ≤ total)
    (hbr : Holds br (e ++ l)) :
    ∃ br', skipZeros least width (lengthState total before br₀) br =
      some (lengthState total (before ++ List.replicate (least + natOfBits e) 0) br') ∧
        Holds br' l := by
  subst he
  obtain ⟨br', hbits, hbr'⟩ := BitReader.bits_of_holds hbr hw
  refine ⟨br', ?_, hbr'⟩
  have len : (filledTo total before).length = total := length_filledTo (by omega)
  simp only [skipZeros, hbits, Option.bind_eq_bind, Option.bind_some, lengthState, len,
    Nat.min_eq_left room, filledTo_zeros room, length_append, length_replicate]

/-- An item of the format that fits is read as such. -/
theorem lengthStep_of_item (hcl : ∀ n ∈ cl, n ≤ maxBits) (fits : Fits maxBits cl)
    (hi : Deflate.LengthItem cl before w more) (room : (before ++ more).length ≤ total)
    (hbr : Holds br (w ++ l)) :
    ∃ br', Continues (lengthStep (Huffman.new cl)) (lengthState total before br)
      (lengthState total (before ++ more) br') ∧ Holds br' l := by
  rw [length_append] at room
  cases hi with
  | @length n w hn hw =>
    obtain ⟨br₁, h₁, hbr₁⟩ := Huffman.decode_of_codeword hcl fits hw hbr
    have plain : n ≤ 15 := hn
    refine ⟨br₁, lengthStep_continues room h₁ ?_, hbr₁⟩
    simp [lengthSymbol, lengthState, if_pos plain, set_filledTo room]
  | @again w extra p hw he hp =>
    rw [append_assoc] at hbr
    rw [length_replicate] at room
    obtain ⟨br₁, h₁, hbr₁⟩ := Huffman.decode_of_codeword hcl fits hw hbr
    obtain ⟨br₂, h₂, hbr₂⟩ := BitReader.bits_of_holds hbr₁ (he.le.trans (by decide))
    rw [he] at h₂
    have nonempty : before.length ≠ 0 := fun hc => by
      obtain rfl := eq_nil_of_length_eq_zero hc
      cases hp
    refine ⟨br₂, lengthStep_continues (by omega) h₁ ?_, hbr₂⟩
    simp only [lengthSymbol, repeatCode, lengthState, if_neg nonempty, h₂, Option.bind_eq_bind, Option.bind_some,
      getD_filledTo_last hp, repeatPrev_filledTo _ _ (by omega : before.length ≤ total), if_pos room,
      length_append, length_replicate]
    rfl
  | zeros hw he | manyZeros hw he =>
    rw [append_assoc] at hbr
    rw [length_replicate] at room
    obtain ⟨br₁, h₁, hbr₁⟩ := Huffman.decode_of_codeword hcl fits hw hbr
    obtain ⟨br₂, h₂, hbr₂⟩ := skipZeros_of_holds he (by decide) room hbr₁
    exact ⟨br₂, lengthStep_continues (by omega) h₁ h₂, hbr₂⟩

private theorem zeros_of_skipZeros (hw : width ≤ 16)
    (hle : before.length ≤ total) (hbr : Holds br l)
    (fit : ∀ e br', br.bits width = some (e, br') → before.length + (least + e) ≤ total)
    (h : skipZeros least width (lengthState total before br₀) br = some s') :
    ∃ e l' br', e.length = width ∧ l = e ++ l' ∧ before.length + (least + natOfBits e) ≤ total ∧
      s' = lengthState total (before ++ List.replicate (least + natOfBits e) 0) br' ∧ Holds br' l' := by
  obtain ⟨⟨v, br₁⟩, hv, hret⟩ := Option.bind_eq_some_iff.mp h
  have room := fit v br₁ hv
  obtain ⟨e, l', rfl, he, rfl, hbr₁⟩ := BitReader.holds_of_bits hbr hw hv
  have len : (filledTo total before).length = total := length_filledTo hle
  refine ⟨e, l', br₁, he, rfl, room, ?_, hbr₁⟩
  cases hret
  simp only [lengthState, len, Nat.min_eq_left room, filledTo_zeros room, length_append,
    length_replicate]

private theorem again_of_repeatCode (hle : before.length ≤ total) (hbr : Holds br l)
    (h : repeatCode (lengthState total before br₀) br = some s') :
    ∃ e p l' br', e.length = 2 ∧ before.getLast? = some p ∧ l = e ++ l' ∧
      before.length + (3 + natOfBits e) ≤ total ∧
      s' = lengthState total (before ++ List.replicate (3 + natOfBits e) p) br' ∧ Holds br' l' := by
  rw [repeatCode] at h
  split at h
  next => cases h
  next hnz =>
    obtain ⟨⟨v, br₁⟩, hv, h⟩ := Option.bind_eq_some_iff.mp h
    obtain ⟨e, l', rfl, he, rfl, hbr₁⟩ := BitReader.holds_of_bits hbr (by decide) hv
    have nonempty : before ≠ [] := fun hc => hnz (congrArg length hc)
    have last := getLast?_eq_some_getLast nonempty
    simp only [lengthState, getD_filledTo_last last, repeatPrev_filledTo _ _ hle] at h
    split at h
    next room =>
      cases h
      refine ⟨e, before.getLast nonempty, l', br₁, he, last, rfl, room, ?_, hbr₁⟩
      simp [lengthState]
    next => cases h

/-- What a round has read is an item of the format, if it is not a repeat code that runs past the
end. -/
theorem item_of_lengthStep (hcl : ∀ n ∈ cl, n ≤ maxBits)
    (hle : before.length ≤ total) (hbr : Holds br l)
    (fit : ZerosFit (Huffman.new cl) (lengthState total before br))
    (h : Continues (lengthStep (Huffman.new cl)) (lengthState total before br) s') :
    ∃ w more l' br', Deflate.LengthItem cl before w more ∧ (before ++ more).length ≤ total ∧
      l = w ++ l' ∧ s' = lengthState total (before ++ more) br' ∧ Holds br' l' := by
  have len : (lengthState total before br).lengths.length = total := length_filledTo hle
  rw [Continues, lengthStep] at h
  split at h
  next hlt =>
    obtain ⟨⟨sym, br₁⟩, hsym, h⟩ := Option.bind_eq_some_iff.mp h
    obtain ⟨t, ht, hret⟩ := Option.bind_eq_some_iff.mp h
    cases hret
    obtain ⟨w, l₁, rfl, hw, hbr₁⟩ := Huffman.codeword_of_decode hcl hbr hsym
    have fit := fun e br' => fit sym br₁ e br' hlt hsym
    rw [len] at hlt fit
    rw [lengthSymbol] at ht
    split at ht
    next hplain =>
      cases ht
      refine ⟨w, [sym], l₁, br₁, .length hplain hw, ?_, rfl, ?_, hbr₁⟩
      · rw [length_append]
        exact hlt
      · simp [lengthState, set_filledTo hlt]
    next =>
    split at ht
    next hagain =>
      obtain ⟨e, p, l₂, br₂, he, hp, rfl, room, rfl, hbr₂⟩ := again_of_repeatCode hle hbr₁ ht
      refine ⟨w ++ e, _, l₂, br₂, .again (hagain ▸ hw) he hp, ?_, (append_assoc _ _ _).symm, rfl,
        hbr₂⟩
      rwa [length_append, length_replicate]
    next =>
    split at ht
    next hzeros =>
      obtain ⟨e, l₂, br₂, he, rfl, room, rfl, hbr₂⟩ := zeros_of_skipZeros (by decide) hle hbr₁
        (fun e br' => (fit e br').1 hzeros) ht
      refine ⟨w ++ e, _, l₂, br₂, .zeros (hzeros ▸ hw) he, ?_, (append_assoc _ _ _).symm, rfl,
        hbr₂⟩
      rwa [length_append, length_replicate]
    next =>
    split at ht
    next hzeros =>
      obtain ⟨e, l₂, br₂, he, rfl, room, rfl, hbr₂⟩ := zeros_of_skipZeros (by decide) hle hbr₁
        (fun e br' => (fit e br').2 hzeros) ht
      refine ⟨w ++ e, _, l₂, br₂, .manyZeros (hzeros ▸ hw) he, ?_, (append_assoc _ _ _).symm, rfl,
        hbr₂⟩
      rwa [length_append, length_replicate]
    next => cases ht
  next => cases h

/-! ## Runs -/

/-- The loop is left when the list is full, with the list. -/
theorem lengthStep_leaves {clTree : Huffman} {r : List Nat × BitReader} (hle : before.length ≤ total) :
    lengthStep clTree (lengthState total before br) = some (.inr r) ↔
      before.length = total ∧ r = (before, br) := by
  have len : (lengthState total before br).lengths.length = total := length_filledTo hle
  rw [lengthStep, len]
  constructor
  · intro h
    split at h
    next =>
      obtain ⟨_, -, h⟩ := Option.bind_eq_some_iff.mp h
      obtain ⟨_, -, hret⟩ := Option.bind_eq_some_iff.mp h
      cases hret
    next hlt =>
      have full : before.length = total := Nat.le_antisymm hle (Nat.le_of_not_lt hlt)
      cases h
      exact ⟨full, by rw [lengthState, filledTo_of_length full]⟩
  · rintro ⟨full, rfl⟩
    have outside : ¬ (lengthState total before br).i < total := Nat.not_lt.mpr full.ge
    rw [if_neg outside, lengthState, filledTo_of_length full]

section

variable (hcl : ∀ n ∈ cl, n ≤ maxBits) (fits : Fits maxBits cl)
include hcl fits

private theorem ends_of_lengthRun
    (h : Deflate.LengthRun cl total before bits lens) (hbr : Holds br (bits ++ l)) :
    ∃ br', Ends (lengthStep (Huffman.new cl)) (lengthState total before br) (lens, br') ∧
      Holds br' l := by
  induction h generalizing br with
  | done full => exact ⟨br, .leave ((lengthStep_leaves full.le).mpr ⟨full, rfl⟩), hbr⟩
  | item hi room _ ih =>
    rw [append_assoc] at hbr
    obtain ⟨br₁, hstep, hbr₁⟩ := lengthStep_of_item hcl fits hi room hbr
    obtain ⟨br', hends, hbr'⟩ := ih hbr₁
    exact ⟨br', .goOn hstep hends, hbr'⟩

/-- A list of the format is read as the lengths it spells. -/
theorem readLengths_of_lengthRun
    (h : Deflate.LengthRun cl total [] bits lens) (hbr : Holds br (bits ++ l)) :
    ∃ br', readLengths (Huffman.new cl) total br = some (lens, br') ∧ Holds br' l := by
  simp only [readLengths_eq_some_iff]
  exact ends_of_lengthRun hcl fits h hbr

/-- In front of an item of the format that fits, no repeat code runs past the end. -/
theorem zerosFit_of_item
    (hi : Deflate.LengthItem cl before w more) (room : (before ++ more).length ≤ total)
    (hbr : Holds br (w ++ l)) : ZerosFit (Huffman.new cl) (lengthState total before br) := by
  intro sym br₁ v br₂ _ hsym
  rw [length_append] at room
  have len : (lengthState total before br).lengths.length = total := length_filledTo (by omega)
  rw [len]
  have decoded {s : Nat} {w l : List Bool} (hw : codeword cl s = some w) (hbr : Holds br (w ++ l)) :
      sym = s ∧ Holds br₁ l := by
    obtain ⟨br₁', h₁, hbr₁⟩ := Huffman.decode_of_codeword hcl fits hw hbr
    cases h₁.symm.trans hsym
    exact ⟨rfl, hbr₁⟩
  have read {e l : List Bool} {n : Nat} (he : e.length = n) (hn : n ≤ 16) (hbr : Holds br₁ (e ++ l))
      (hv : br₁.bits n = some (v, br₂)) : v = natOfBits e := by
    subst he
    obtain ⟨br₂', h₂, -⟩ := BitReader.bits_of_holds hbr hn
    cases h₂.symm.trans hv
    rfl
  cases hi with
  | @length n w hn hw =>
    have plain : n ≤ 15 := hn
    obtain ⟨rfl, -⟩ := decoded hw hbr
    exact ⟨fun hc => absurd hc (by omega), fun hc => absurd hc (by omega)⟩
  | again hw he hp =>
    rw [append_assoc] at hbr
    obtain ⟨rfl, -⟩ := decoded hw hbr
    exact ⟨nofun, nofun⟩
  | zeros hw he =>
    rw [append_assoc] at hbr
    obtain ⟨rfl, hbr₁⟩ := decoded hw hbr
    rw [length_replicate] at room
    exact ⟨fun _ hv => read he (by decide) hbr₁ hv ▸ room, nofun⟩
  | manyZeros hw he =>
    rw [append_assoc] at hbr
    obtain ⟨rfl, hbr₁⟩ := decoded hw hbr
    rw [length_replicate] at room
    exact ⟨nofun, fun _ hv => read he (by decide) hbr₁ hv ▸ room⟩

/-- While a list of the format is read, no repeat code runs past the end. -/
theorem zerosFit_of_lengthRun {s : LengthState} (h : Deflate.LengthRun cl total before bits lens)
    (hbr : Holds br (bits ++ l))
    (hs : Visits (lengthStep (Huffman.new cl)) (lengthState total before br) s) :
    ZerosFit (Huffman.new cl) s := by
  induction h generalizing br with
  | @done before full =>
    have len : (lengthState total before br).lengths.length = total := length_filledTo full.le
    have leaves : lengthStep (Huffman.new cl) (lengthState total before br) = some (.inr (before, br)) :=
      (lengthStep_leaves full.le).mpr ⟨full, rfl⟩
    rcases hs.cases_head with rfl | ⟨t, hstep, -⟩
    · intro sym br₁ v br₂ hlt
      rw [len] at hlt
      exact absurd full hlt.ne
    · cases leaves.symm.trans hstep
  | item hi room _ ih =>
    rw [append_assoc] at hbr
    obtain ⟨br₁, hstep, hbr₁⟩ := lengthStep_of_item hcl fits hi room hbr
    rcases hs.cases_head with rfl | ⟨t, hstep', hrest⟩
    · exact zerosFit_of_item hcl fits hi room hbr
    · cases Eq.trans (Eq.symm hstep) hstep'
      exact ih hbr₁ hrest

end

private theorem lengthRun_of_ends {s : LengthState} {r : List Nat × BitReader}
    (hcl : ∀ n ∈ cl, n ≤ maxBits) (h : Ends (lengthStep (Huffman.new cl)) s r)
    (hs : s = lengthState total before br) (hle : before.length ≤ total)
    (fit : ∀ t, Visits (lengthStep (Huffman.new cl)) s t → ZerosFit (Huffman.new cl) t)
    (hbr : Holds br l) :
    ∃ bits l', l = bits ++ l' ∧ Deflate.LengthRun cl total before bits r.1 ∧ Holds r.2 l' := by
  induction h generalizing before br l with
  | leave hret =>
    subst hs
    obtain ⟨full, rfl⟩ := (lengthStep_leaves hle).mp hret
    exact ⟨[], l, rfl, .done full, hbr⟩
  | goOn hstep _ ih =>
    subst hs
    obtain ⟨w, more, l₁, br₁, hi, room, rfl, rfl, hbr₁⟩ :=
      item_of_lengthStep hcl hle hbr (fit _ .refl) hstep
    obtain ⟨bits, l₂, rfl, hrun, hbr₂⟩ := ih rfl room (fun t ht => fit t (.head hstep ht)) hbr₁
    exact ⟨w ++ bits, l₂, (append_assoc _ _ _).symm, .item hi room hrun, hbr₂⟩

/-- If no repeat code runs past the end, what was read as lengths is a list of the format. -/
theorem lengthRun_of_readLengths (hcl : ∀ n ∈ cl, n ≤ maxBits) (hbr : Holds br l)
    (fit : ∀ s, Visits (lengthStep (Huffman.new cl)) (lengthState total [] br) s →
      ZerosFit (Huffman.new cl) s)
    (h : readLengths (Huffman.new cl) total br = some (lens, br')) :
    ∃ bits l', l = bits ++ l' ∧ Deflate.LengthRun cl total [] bits lens ∧ Holds br' l' :=
  lengthRun_of_ends hcl (readLengths_eq_some_iff.mp h) rfl (Nat.zero_le _) fit hbr

end Vock.Fuzz
