import Mathlib.Data.List.Nodup
import Vock.Library.Bitmap
import Vock.Syscall.Tables

/-!
# Names and numbers of system calls

No two numbers of a table have the same name, so the search for the name of a number finds that number
again (`syscallNr_syscallName`).
-/

namespace Vock

open Library List

variable {arch : Arch} {name : List U8} {nr : U64}

/-- A number for a name. It tells the names of a table apart, with numbers small enough to be marked in
one word. -/
def nameCode (name : List U8) : Nat := name.foldl (fun n b => n * 256 + b.toNat) 0 % 9358

theorem nodup_nameCode (arch : Arch) : (arch.names.map fun entry => nameCode (utf8 entry.2)).Nodup := by
  have hfresh : allFresh (arch.names.map fun entry => nameCode (utf8 entry.2)) 0 = true := by
    cases arch <;> decide +kernel
  exact nodup_of_allFresh hfresh

/-- A byte of the name of a system call. -/
def isCallByte (b : U8) : Bool :=
  (byte 'a' ≤ b && b ≤ byte 'z') || (byte '0' ≤ b && b ≤ byte '9') || b == byte '_'

theorem isCallByte_names (arch : Arch) : ∀ entry ∈ arch.names, (utf8 entry.2).all isCallByte = true := by
  cases arch <;> decide +kernel

theorem key_le (arch : Arch) : ∀ entry ∈ arch.names, entry.1 ≤ maxSyscallNr := by
  cases arch <;> decide +kernel

/-- The entry a name comes from. -/
theorem syscallName_eq_some (h : syscallName arch nr = some name) :
    ∃ entry ∈ arch.names, entry.1 = nr.toNat ∧ utf8 entry.2 = name := by
  obtain ⟨s, hlookup, rfl⟩ := Option.map_eq_some_iff.mp h
  obtain ⟨before, after, heq, -⟩ := lookup_eq_some_iff.mp hlookup
  refine ⟨(nr.toNat, s), ?_, rfl, rfl⟩
  rw [heq]
  exact mem_append_right _ mem_cons_self

theorem isCallByte_syscallName (h : syscallName arch nr = some name) : ∀ b ∈ name, isCallByte b = true := by
  obtain ⟨entry, hentry, -, rfl⟩ := syscallName_eq_some h
  exact all_eq_true.mp (isCallByte_names arch entry hentry)

theorem syscallName_inj {m n : U64} (hm : syscallName arch m = some name)
    (hn : syscallName arch n = some name) : m = n := by
  obtain ⟨x, hx, hxm, hxname⟩ := syscallName_eq_some hm
  obtain ⟨y, hy, hyn, hyname⟩ := syscallName_eq_some hn
  have heq : x = y := inj_on_of_nodup_map (nodup_nameCode arch) hx hy (by rw [hxname, hyname])
  apply BitVec.eq_of_toNat_eq
  rw [← hxm, ← hyn, heq]

/-- The number of a name is found. -/
theorem syscallNr_syscallName (h : syscallName arch nr = some name) : syscallNr arch name = some nr := by
  obtain ⟨entry, hentry, hnr, -⟩ := syscallName_eq_some h
  have hin : nr ∈ (range (maxSyscallNr + 1)).map (BitVec.ofNat 64) := by
    refine mem_map.mpr ⟨nr.toNat, mem_range.mpr ?_, BitVec.eq_of_toNat_eq ?_⟩
    · have := key_le arch entry hentry
      omega
    · rw [BitVec.toNat_ofNat, Nat.mod_eq_of_lt nr.isLt]
  have hfound : (syscallNr arch name).isSome = true := by
    rw [syscallNr, find?_isSome]
    exact ⟨nr, hin, beq_iff_eq.mpr h⟩
  obtain ⟨n, hn⟩ := Option.isSome_iff_exists.mp hfound
  have hname := find?_some hn
  rw [hn, syscallName_inj (beq_iff_eq.mp hname) h]

end Vock
