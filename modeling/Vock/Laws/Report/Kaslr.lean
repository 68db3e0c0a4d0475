import Vock.Report.Kaslr

/-!
# Laws of the offset

The exact method finds every slide of 2 MiB steps below `2 ^ 41` (`exactOffset_slide`). It is asked only where none of
the first ten PCs resolves as it is, so a moved kernel is taken for one that is not moved as soon as one of them does
(`detectOffset_eq_slide_iff`).
-/

namespace Vock.Report

section

variable {resolve : U64 → Answered} {symbolAddress : List U8 → Option U64} {kallsyms : Option (List U8)}
  {k : U64} {pcs : List U64}

theorem resolves_probeLocations_iff (pcs : List U64) :
    resolves (probeLocations resolve pcs) = true ↔ ∃ pc ∈ pcs, isLocation (resolve pc).2 = true := by
  unfold resolves probeLocations
  rw [List.any_map, List.any_eq_true]
  rfl

theorem and_eq_zero_of_aligned (h : k.toNat % 2 ^ 21 = 0) : k &&& 0x1fffff#64 = 0#64 := by
  apply BitVec.eq_of_toNat_eq
  have hmask : (0x1fffff#64).toNat = 2 ^ 21 - 1 := rfl
  rw [BitVec.toNat_and, hmask, Nat.and_two_pow_sub_one_eq_mod, h]
  rfl

theorem shiftRight_lt_of_lt (h : k.toNat < 2 ^ 41) : k >>> 21 < 1#64 <<< 20 := by
  have hlimit : (1#64 <<< 20).toNat = 2 ^ 20 := rfl
  rw [BitVec.lt_def, BitVec.toNat_ushiftRight]
  omega

/-- The exact method finds the slide. -/
theorem exactOffset_slide {v : U64} (hsymbol : symbolAddress (utf8 "_stext") = some v)
    (hrunning : kallsymsStext kallsyms = some (v + k)) (haligned : k.toNat % 2 ^ 21 = 0) (hsmall : k.toNat < 2 ^ 41) :
    exactOffset symbolAddress kallsyms = some k := by
  have hoffset : v + k - v = k := by rw [BitVec.add_comm, BitVec.add_sub_cancel]
  unfold exactOffset
  simp only [hrunning, hsymbol, Option.bind_eq_bind, Option.bind_some, hoffset]
  exact if_pos ⟨and_eq_zero_of_aligned haligned, shiftRight_lt_of_lt hsmall⟩

theorem detectOffset_of_resolves (h : resolves (probeLocations resolve (pcs.take 10)) = true) :
    detectOffset resolve symbolAddress kallsyms pcs = 0#64 := by
  unfold detectOffset
  rw [if_pos h, ite_self]

theorem detectOffset_of_exactOffset (hpcs : pcs ≠ [])
    (h : ¬ resolves (probeLocations resolve (pcs.take 10)) = true)
    (hexact : exactOffset symbolAddress kallsyms = some k) :
    detectOffset resolve symbolAddress kallsyms pcs = k := by
  unfold detectOffset
  rw [if_neg hpcs, if_neg h, hexact]
  rfl

/-- The offset is the slide if there is none, or if none of the first ten PCs has a location in the image that is not
moved. -/
theorem detectOffset_eq_slide_iff {v k : U64} {pcs : List U64} (hsymbol : symbolAddress (utf8 "_stext") = some v)
    (hrunning : kallsymsStext kallsyms = some (v + k)) (haligned : k.toNat % 2 ^ 21 = 0) (hsmall : k.toNat < 2 ^ 41)
    (hpcs : pcs ≠ []) :
    detectOffset resolve symbolAddress kallsyms pcs = k ↔
      k = 0#64 ∨ ∀ pc ∈ pcs.take 10, isLocation (resolve pc).2 = false := by
  have hexact := exactOffset_slide hsymbol hrunning haligned hsmall
  by_cases h : resolves (probeLocations resolve (pcs.take 10)) = true
  · rw [detectOffset_of_resolves h]
    obtain ⟨pc, hpc, hloc⟩ := (resolves_probeLocations_iff _).mp h
    constructor
    · intro hk
      exact .inl hk.symm
    · rintro (hk | hnone)
      · exact hk.symm
      · exact absurd hloc (Bool.eq_false_iff.mp (hnone pc hpc))
  · rw [detectOffset_of_exactOffset hpcs h hexact]
    refine iff_of_true rfl (.inr ?_)
    intro pc hpc
    apply Bool.eq_false_iff.mpr
    intro hloc
    exact h ((resolves_probeLocations_iff _).mpr ⟨pc, hpc, hloc⟩)

/-- The symbols of an image that has `_stext` at `0xffffffff81000000`. -/
def stextOnly (name : List U8) : Option U64 := if name = utf8 "_stext" then some 0xffffffff81000000#64 else none

/-- A kernel that is moved by 2 MiB. -/
def movedKallsyms : Option (List U8) := some (utf8 "ffffffff81200000 T _stext\n")

theorem stextOnly_stext : stextOnly (utf8 "_stext") = some 0xffffffff81000000#64 := if_pos rfl

theorem isLocation_unresolved : isLocation unresolved.2 = false := by decide +kernel

theorem kallsymsStext_moved : kallsymsStext movedKallsyms = some (0xffffffff81000000#64 + 0x200000#64) := by
  decide +kernel

/-- A PC that the image does not have leads to the slide. -/
theorem detectOffset_eq_slide_unresolved :
    detectOffset (fun _ => unresolved) stextOnly movedKallsyms [0xffffffff81200010#64] = 0x200000#64 := by
  apply (detectOffset_eq_slide_iff stextOnly_stext kallsymsStext_moved (by decide) (by decide) (by decide)).mpr
  right
  intro pc _
  exact isLocation_unresolved

/-- A PC of the moved kernel that is the address of other code in the image: the kernel is taken for one that is not
moved. -/
theorem detectOffset_misses_slide :
    stextOnly (utf8 "_stext") = some 0xffffffff81000000#64 ∧
      kallsymsStext movedKallsyms = some (0xffffffff81000000#64 + 0x200000#64) ∧
      detectOffset (fun _ => (utf8 "f", utf8 "fs/open.c:1")) stextOnly movedKallsyms [0xffffffff81200010#64] = 0#64 :=
  ⟨stextOnly_stext, kallsymsStext_moved, detectOffset_of_resolves (by decide +kernel)⟩

end

end Vock.Report
