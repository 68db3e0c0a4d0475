import Vock.Report.Resolve

/-!
# Laws of the paths

A path outside the kernel tree is cut at a directory of the kernel. The directories are looked for one after the other
in the order of the table, so the cut is at the leftmost one just if it is the first of the table that the path has
(`relKernelPath_leftmost_iff`).
-/

namespace Vock.Report

open List

variable {i : Nat} {kd : List U8}

/-- A directory stands in a path at an index, between two slashes. -/
def standsAt (file : List U8) (i : Nat) (kd : List U8) : Bool := (byte '/' :: kd).isPrefixOf (file.drop i)

/-- The leftmost place of a directory of the kernel. In an absolute path every directory has a slash in front. -/
def leftmost (file : List U8) : Option Nat :=
  (List.range (file.length + 1)).find? fun i => kernelDirs.any (standsAt file i)

/-- The directory at the place is the first of the table that the path has. -/
def FirstAt (file : List U8) (l : Nat) : Prop :=
  (kernelDirs.find? fun kd => (dirIndex file kd).isSome) = kernelDirs.find? (standsAt file l)

/-! ## Outside -/

theorem common_le (fs ss : List (List U8)) : common fs ss ≤ ss.length := by
  fun_induction common fs ss with
  | case1 fs f ss ih => simpa only [length_cons, Nat.add_le_add_iff_right] using ih
  | case2 | case3 => exact Nat.zero_le _

theorem isPrefix_of_common (fs ss : List (List U8)) (h : common fs ss = ss.length) : ss <+: fs := by
  fun_induction common fs ss with
  | case1 fs f ss ih => exact (prefix_cons_inj f).mpr (ih (Nat.succ.inj h))
  | case2 => simp only [length_cons] at h; omega
  | case3 fs ss hnot =>
    cases ss with
    | nil => exact List.nil_prefix
    | cons s ss =>
      cases fs with
      | nil => simp only [length_cons] at h; omega
      | cons f fs => exact absurd rfl (hnot f fs s ss rfl)

theorem isPrefix_intercalate (sep a : List U8) (l : List (List U8)) : a <+: sep.intercalate (a :: l) := by
  cases l with
  | nil => simp
  | cons b l => rw [intercalate_cons_cons, append_assoc]; exact List.prefix_append _ _

variable {file kernelSrc : List U8}

/-- The relative path of a file outside goes up. -/
theorem relpath_outside (h : ¬ components kernelSrc <+: components file) :
    (utf8 "..").isPrefixOf (relpath file kernelSrc) = true := by
  have hle := common_le (components file) (components kernelSrc)
  have hne : common (components file) (components kernelSrc) ≠ (components kernelSrc).length := by
    intro heq
    exact h (isPrefix_of_common _ _ heq)
  obtain ⟨n, hn⟩ : ∃ n, (components kernelSrc).length - common (components file) (components kernelSrc) = n + 1 :=
    ⟨_, (Nat.sub_add_cancel (by omega)).symm⟩
  unfold relpath
  simp only [hn]
  exact List.isPrefixOf_iff_prefix.mpr (isPrefix_intercalate _ _ _)

/-! ## The search -/

theorem indexOf_eq_some_iff {pat s : List U8} :
    indexOf pat s = some i ↔
      pat.isPrefixOf (s.drop i) = true ∧ i < s.length + 1 ∧ ∀ j < i, pat.isPrefixOf (s.drop j) = false := by
  unfold indexOf
  simp

theorem leftmost_eq_some_iff {l : Nat} :
    leftmost file = some l ↔
      (∃ kd ∈ kernelDirs, standsAt file l kd = true) ∧ l < file.length + 1 ∧
        ∀ j < l, ∀ kd ∈ kernelDirs, standsAt file j kd = false := by
  unfold leftmost
  simp

theorem lt_length_of_standsAt (h : standsAt file i kd = true) : i < file.length := by
  have hlen := (List.isPrefixOf_iff_prefix.mp h).length_le
  rw [length_cons, length_drop] at hlen
  omega

theorem dirIndex_isSome_of_standsAt (h : standsAt file i kd = true) : (dirIndex file kd).isSome = true := by
  unfold dirIndex indexOf
  rw [find?_isSome]
  exact ⟨i, mem_range.mpr (by have := lt_length_of_standsAt h; omega), h⟩

/-- No directory of the table begins another. -/
theorem kernelDirs_apart : ∀ a ∈ kernelDirs, ∀ b ∈ kernelDirs, a <+: b → a = b := by decide +kernel

theorem eq_of_standsAt {a b : List U8} (ha : a ∈ kernelDirs) (hb : b ∈ kernelDirs)
    (hia : standsAt file i a = true) (hib : standsAt file i b = true) : a = b := by
  have hpa := List.isPrefixOf_iff_prefix.mp hia
  have hpb := List.isPrefixOf_iff_prefix.mp hib
  rcases prefix_or_prefix_of_prefix hpa hpb with h | h
  · exact kernelDirs_apart a ha b hb ((prefix_cons_inj _).mp h)
  · exact (kernelDirs_apart b hb a ha ((prefix_cons_inj _).mp h)).symm

/-- The first directory of the table that the path has gives the cut. -/
theorem relKernelPath_outside (hout : ¬ components kernelSrc <+: components file)
    (hkd : kernelDirs.find? (fun kd => (dirIndex file kd).isSome) = some kd) (hi : dirIndex file kd = some i) :
    relKernelPath file kernelSrc = file.drop (i + 1) := by
  obtain ⟨-, before, behind, htable, hbefore⟩ := find?_eq_some_iff_append.mp hkd
  have hcut : kernelDirs.findSome? (dirIndex file) = some i := by
    apply findSome?_eq_some_iff.mpr
    refine ⟨before, kd, behind, htable, hi, ?_⟩
    intro a ha
    simpa only [Bool.not_eq_eq_eq_not, Bool.not_true, Option.isSome_eq_false_iff, Option.isNone_iff_eq_none]
      using hbefore a ha
  unfold relKernelPath
  simp [relpath_outside hout, hcut]

/-- The cut is at the leftmost directory just if that is the first of the table that the path has. -/
theorem relKernelPath_eq_drop_iff {l : Nat} (hout : ¬ components kernelSrc <+: components file)
    (hl : leftmost file = some l) : relKernelPath file kernelSrc = file.drop (l + 1) ↔ FirstAt file l := by
  obtain ⟨⟨kl, hkl, hstands⟩, -, hleft⟩ := leftmost_eq_some_iff.mp hl
  have hpresent : (kernelDirs.find? fun kd => (dirIndex file kd).isSome).isSome = true :=
    find?_isSome.mpr ⟨kl, hkl, dirIndex_isSome_of_standsAt hstands⟩
  obtain ⟨kd, hfirst⟩ := Option.isSome_iff_exists.mp hpresent
  have hkd : kd ∈ kernelDirs := mem_of_find?_eq_some hfirst
  obtain ⟨i, hi⟩ := Option.isSome_iff_exists.mp (find?_some (p := fun kd => (dirIndex file kd).isSome) hfirst)
  obtain ⟨hat, -, hbefore⟩ := indexOf_eq_some_iff.mp hi
  have hilt := lt_length_of_standsAt hat
  -- the place of a directory of the table is not left of `l`
  have hle : l ≤ i := by
    apply Nat.le_of_not_lt
    intro hlt
    exact absurd hat (Bool.eq_false_iff.mp (hleft i hlt kd hkd))
  rw [relKernelPath_outside hout hfirst hi, FirstAt, hfirst]
  constructor
  · intro hcut
    have hlen := congrArg length hcut
    rw [length_drop, length_drop] at hlen
    obtain rfl : i = l := by omega
    cases hfind : kernelDirs.find? (standsAt file i) with
    | none => exact absurd hat (find?_eq_none.mp hfind kd hkd)
    | some k => rw [eq_of_standsAt hkd (mem_of_find?_eq_some hfind) hat (find?_some hfind)]
  · intro hsame
    have hstandsKd : standsAt file l kd = true := find?_some hsame.symm
    have hge : i ≤ l := by
      apply Nat.le_of_not_lt
      intro hlt
      exact absurd hstandsKd (Bool.eq_false_iff.mp (hbefore l hlt))
    rw [Nat.le_antisymm hge hle]

/-! ## Two paths -/

/-- A directory of the table has its slash at its end only. -/
theorem kernelDirs_slash : ∀ kd ∈ kernelDirs, byte '/' ∉ kd.dropLast := by decide +kernel

/-- A word with its slash at its end that begins a path ends with the first slash. -/
theorem isPrefix_of_slash {k Q R : List U8} (hslash : byte '/' ∉ k.dropLast) (h : k <+: Q ++ byte '/' :: R) :
    k <+: Q ++ [byte '/'] := by
  have hfirst : Q ++ [byte '/'] <+: Q ++ byte '/' :: R :=
    (prefix_append_right_inj Q).mpr ((prefix_cons_inj _).mpr List.nil_prefix)
  rcases prefix_or_prefix_of_prefix h hfirst with hk | ⟨t, rfl⟩
  · exact hk
  · cases t with
    | nil => rw [append_nil]
    | cons a t =>
      refine absurd ?_ hslash
      rw [dropLast_append_cons]
      exact mem_append_left _ (mem_append_right _ mem_cons_self)

/-- Behind directories that are none of the kernel, the leftmost place is where the rest begins. -/
theorem leftmost_append {P R : List U8} (hP : leftmost (P ++ [byte '/']) = none) (hkd : kd ∈ kernelDirs)
    (hR : kd <+: R) : leftmost (P ++ byte '/' :: R) = some P.length := by
  apply leftmost_eq_some_iff.mpr
  refine ⟨⟨kd, hkd, ?_⟩, ?_, ?_⟩
  · rw [standsAt, drop_left]
    exact List.isPrefixOf_iff_prefix.mpr ((prefix_cons_inj _).mpr hR)
  · rw [length_append]
    omega
  · intro j hj k hk
    apply Bool.eq_false_iff.mpr
    intro hstands
    have hpre := List.isPrefixOf_iff_prefix.mp hstands
    rw [drop_append_of_le_length (Nat.le_of_lt hj), drop_eq_getElem_cons hj, cons_append,
      cons_prefix_cons] at hpre
    have hearlier : standsAt (P ++ [byte '/']) j k = true := by
      apply List.isPrefixOf_iff_prefix.mpr
      rw [drop_append_of_le_length (Nat.le_of_lt hj), drop_eq_getElem_cons hj, cons_append,
        cons_prefix_cons]
      exact ⟨hpre.1, isPrefix_of_slash (kernelDirs_slash k hk) hpre.2⟩
    refine absurd (find?_eq_none.mp hP j (mem_range.mpr ?_)) (not_not_intro (any_eq_true.mpr ⟨k, hk, hearlier⟩))
    have := lt_length_of_standsAt hearlier
    omega

/-- A path outside the kernel tree is cut at its leftmost directory of the kernel just if that is the first of the
table that the path has. Two paths that are cut so and differ behind the same directories stay apart. -/
theorem relKernelPath_leftmost_iff (kernelSrc : List U8) :
    (∀ file l, ¬ components kernelSrc <+: components file → leftmost file = some l →
      (relKernelPath file kernelSrc = file.drop (l + 1) ↔ FirstAt file l)) ∧
    ∀ P R R' : List U8, leftmost (P ++ [byte '/']) = none →
      (∃ kd ∈ kernelDirs, kd <+: R) → (∃ kd ∈ kernelDirs, kd <+: R') →
      ¬ components kernelSrc <+: components (P ++ byte '/' :: R) →
      ¬ components kernelSrc <+: components (P ++ byte '/' :: R') →
      FirstAt (P ++ byte '/' :: R) P.length → FirstAt (P ++ byte '/' :: R') P.length → R ≠ R' →
      relKernelPath (P ++ byte '/' :: R) kernelSrc ≠ relKernelPath (P ++ byte '/' :: R') kernelSrc := by
  refine ⟨fun file l => relKernelPath_eq_drop_iff, ?_⟩
  rintro P R R' hP ⟨kd, hkd, hR⟩ ⟨kd', hkd', hR'⟩ hout hout' hfirst hfirst' hne
  have hcut := (relKernelPath_eq_drop_iff hout (leftmost_append hP hkd hR)).mpr hfirst
  have hcut' := (relKernelPath_eq_drop_iff hout' (leftmost_append hP hkd' hR')).mpr hfirst'
  have hrest : ∀ T : List U8, (P ++ byte '/' :: T).drop (P.length + 1) = T := by
    intro T
    rw [← drop_drop, drop_left, drop_succ_cons, drop_zero]
  rw [hcut, hcut', hrest, hrest]
  exact hne

/-- A path with one directory of the kernel. -/
theorem relKernelPath_leftmost_fs :
    relKernelPath (utf8 "/x/fs/open.c") (utf8 "/k") = utf8 "fs/open.c" :=
  ((relKernelPath_leftmost_iff (utf8 "/k")).1 (utf8 "/x/fs/open.c") 2 (by decide +kernel) (by decide +kernel)).mpr
    (by unfold FirstAt; decide +kernel)

/-- A driver and a file of the network: the first is cut behind its leftmost directory, and the two are one. -/
theorem relKernelPath_merges :
    leftmost (utf8 "/x/drivers/net/a.c") = some 2 ∧ leftmost (utf8 "/x/net/a.c") = some 2 ∧
      relKernelPath (utf8 "/x/drivers/net/a.c") (utf8 "/k") = utf8 "net/a.c" ∧
      relKernelPath (utf8 "/x/net/a.c") (utf8 "/k") = utf8 "net/a.c" := by
  decide +kernel

end Vock.Report
