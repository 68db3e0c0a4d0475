import Vock.Laws.Dwarf.Line
import Vock.Report.Btf

/-!
# What kallsyms says of a PC

Where at least half of the PCs are in the text of the table, the offset is zero and every PC is named by itself. In the
text, the name is that of a symbol at the greatest address up to the PC. Outside of it a PC has a name nevertheless,
unless it is below all symbols (`resolved_iff`).
-/

namespace Vock.Report.Btf

open Library List
open Fuzz (lines)
open scoped Dwarf

variable {syms : List (U64 × List U8)} {data : Option (List U8)} {pcs : List (List U8)} {text last p : U64}

/-- The PCs between the text and the last symbol. -/
def inText (text last : U64) (pcs : List (List U8)) : List U64 :=
  (pcs.filterMap parsePc).filter fun pc => text ≤ pc ∧ pc ≤ last

/-- The name of a PC is that of a symbol at the greatest address up to it. -/
def Names (syms : List (U64 × List U8)) (p : U64) (name : Option (List U8)) : Prop :=
  ∃ s ∈ syms, name = some s.2 ∧ s.1 ≤ p ∧ ∀ t ∈ syms, t.1 ≤ p → t.1 ≤ s.1

/-- What a token is to be resolved to: a name in the text, and nothing elsewhere or where it is no PC. -/
def Resolved (syms : List (U64 × List U8)) (text last : U64) (pc : List U8) (name : Option (List U8)) : Prop :=
  (∀ p ∈ parsePc pc, if text ≤ p ∧ p ≤ last then Names syms p name else name = none) ∧ (parsePc pc = none → name = none)

theorem nameAt_eq (syms : List (U64 × List U8)) (p : U64) :
    nameAt syms p = (syms.takeWhile (·.1 ≤ p)).getLast?.map Prod.snd := by
  rw [nameAt, getLast?_takeWhile]
  split
  · simp_all
  · rename_i idx hlen
    rw [hlen, if_neg (Nat.succ_ne_zero idx), Nat.succ_sub_one]

theorem sorted_loadKallsyms (data : Option (List U8)) : (loadKallsyms data).Pairwise fun s t => s.1 ≤ t.1 :=
  pairwise_mergeSort' (fun s t : U64 × List U8 => s.1 ≤ t.1) _

section

variable (hsorted : syms.Pairwise fun s t => s.1 ≤ t.1)

include hsorted

theorem nameAt_eq_none_iff : nameAt syms p = none ↔ ∀ s ∈ syms, p < s.1 := by
  rw [nameAt_eq, takeWhile_le_eq_filter hsorted]
  simp

theorem names_nameAt {s : U64 × List U8} (hs : s ∈ syms) (hle : s.1 ≤ p) : Names syms p (nameAt syms p) := by
  obtain ⟨z, hz⟩ := exists_getLast?_takeWhile hsorted hs hle
  obtain ⟨⟨hmem, hzp⟩, hmax⟩ := getLast?_takeWhile_le hsorted hz
  exact ⟨z, hmem, by rw [nameAt_eq, hz]; rfl, hzp, hmax⟩

end

theorem kaslrOffset_eq (x86 : Bool) (htext : textAddr syms = some text) (hlast : syms.getLast?.map Prod.fst = some last)
    (hmost : (pcs.filterMap parsePc).length ≤ 2 * (inText text last pcs).length) :
    kaslrOffset x86 (pcs.filterMap parsePc) syms = 0#64 := by
  obtain ⟨⟨_, name⟩, hgetLast, rfl⟩ := Option.map_eq_some_iff.mp hlast
  rw [kaslrOffset, htext, hgetLast]
  cases minPc (pcs.filterMap parsePc) with
  | none => rfl
  | some m => exact if_pos (Nat.mul_comm 2 _ ▸ hmost)

/-- For every table with a text and all tokens of which at least half of the PCs are in it: each token is resolved by
itself, in order, and all of them to what they are to be resolved to exactly when no PC outside of the text is at or
behind the first symbol. -/
theorem resolved_iff (x86 : Bool) (pcs : List (List U8)) (data : Option (List U8)) (text last : U64)
    (htext : textAddr (loadKallsyms data) = some text)
    (hlast : (loadKallsyms data).getLast?.map Prod.fst = some last)
    (hmost : (pcs.filterMap parsePc).length ≤ 2 * (inText text last pcs).length) :
    resolvePcs x86 pcs data = pcs.map (fun pc => (pc, (parsePc pc).bind (nameAt (loadKallsyms data)))) ∧
      (∀ pc p, parsePc pc = some p → text ≤ p → p ≤ last →
        Names (loadKallsyms data) p ((parsePc pc).bind (nameAt (loadKallsyms data)))) ∧
      ((∀ r ∈ resolvePcs x86 pcs data, Resolved (loadKallsyms data) text last r.1 r.2) ↔
        ∀ pc ∈ pcs, ∀ p ∈ parsePc pc, (text ≤ p ∧ p ≤ last) ∨ ∀ s ∈ loadKallsyms data, p < s.1) := by
  have hsorted := sorted_loadKallsyms data
  have hne : loadKallsyms data ≠ [] := by
    rintro h
    rw [h] at hlast
    cases hlast
  obtain ⟨t, hfind, htext'⟩ := Option.map_eq_some_iff.mp htext
  have ht := mem_of_find?_eq_some hfind
  have hmap : resolvePcs x86 pcs data = pcs.map fun pc => (pc, (parsePc pc).bind (nameAt (loadKallsyms data))) := by
    rw [resolvePcs, if_neg hne, kaslrOffset_eq x86 htext hlast hmost]
    simp
  have hin : ∀ p, text ≤ p → Names (loadKallsyms data) p (nameAt (loadKallsyms data) p) := fun p hp =>
    names_nameAt hsorted ht (htext' ▸ hp)
  refine ⟨hmap, fun pc p hpc hp _ => by rw [hpc]; exact hin p hp, ?_⟩
  rw [hmap, forall_mem_map]
  refine forall₂_congr fun pc _ => ?_
  rw [Resolved]
  cases hpc : parsePc pc with
  | none => simp
  | some p =>
    simp only [Option.mem_def, Option.some.injEq, forall_eq']
    split
    · simp [*]
    · simp [*, nameAt_eq_none_iff hsorted]

/-- A table of two symbols. -/
def twoSymbols : List U8 := utf8 "10 T _text\n20 T f"

theorem load_twoSymbols : loadKallsyms (some twoSymbols) = [(0x10#64, utf8 "_text"), (0x20#64, utf8 "f")] := by
  have hlines : (lines twoSymbols).filterMap kallsym = [(0x10#64, utf8 "_text"), (0x20#64, utf8 "f")] := by decide +kernel
  rw [loadKallsyms, Option.elim_some, hlines]
  exact mergeSort_of_pairwise (by decide)

theorem resolved_iff_below :
    textAddr (loadKallsyms (some twoSymbols)) = some 0x10#64 ∧
      ∀ r ∈ resolvePcs true [utf8 "0x15", utf8 "0x5", utf8 "x"] (some twoSymbols),
        Resolved (loadKallsyms (some twoSymbols)) 0x10#64 0x20#64 r.1 r.2 := by
  have hin : parsePc (utf8 "0x15") = some 0x15#64 := by decide +kernel
  have hbelow : parsePc (utf8 "0x5") = some 0x5#64 := by decide +kernel
  have hnone : parsePc (utf8 "x") = none := by decide +kernel
  have htext : textAddr (loadKallsyms (some twoSymbols)) = some 0x10#64 := by
    rw [load_twoSymbols]
    decide +kernel
  refine ⟨htext,
    (resolved_iff true [utf8 "0x15", utf8 "0x5", utf8 "x"] (some twoSymbols) 0x10#64 0x20#64 htext ?_ ?_).2.2.mpr ?_⟩
  · rw [load_twoSymbols]
    rfl
  · simp [inText, hin, hbelow, hnone]
  · simp [load_twoSymbols, hin, hbelow, hnone]

/-- A PC behind the last symbol has the name of that one. -/
theorem past_last_named :
    textAddr (loadKallsyms (some twoSymbols)) = some 0x10#64 ∧
      (loadKallsyms (some twoSymbols)).getLast?.map Prod.fst = some 0x20#64 ∧
      inText 0x10#64 0x20#64 [utf8 "0x15", utf8 "0x30"] = [0x15#64] ∧
      resolvePcs true [utf8 "0x15", utf8 "0x30"] (some twoSymbols) =
        [(utf8 "0x15", some (utf8 "_text")), (utf8 "0x30", some (utf8 "f"))] := by
  rw [resolvePcs, load_twoSymbols]
  decide +kernel

end Vock.Report.Btf
