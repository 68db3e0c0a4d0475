import Vock.Laws.Replay

/-!
# Replaying a decoded call

How each formatter of `decode_syscall` fills the positions of its line: with a number for the value, or
with words at which a reader of the trace gets stuck (`decodes_decodeLine`). With what the readers do,
this says which traced calls are replayed with the values of their numbers (`replayed_iff`).

The values are those of the numbers alone: a string or a name of a flag is no value here. Not established: that a
replayed call does what the traced one did.
-/

namespace Vock.Replay

open Library Fuzz List

variable {t s : List U8} {names : List (List U8)} {v : U64} {bits : List (U64 × String)} {flags : U64}

/-! ## Numbers -/

theorem parsed_of_exact (h : Exact t v) : parsed t = v := by
  rcases h with ⟨rfl, hmin⟩ | ⟨rfl, hlt⟩
  · rw [(showI64_number v).2, if_neg hmin]
  · rw [(hex_number v).2, if_pos hlt]

theorem told_of (hzero : v = 0#64 → parsed t = 0#64) (h : parsed t = v → v = 0#64 ∨ Exact t v) : Told t v := by
  refine ⟨h, ?_⟩
  rintro (hv | hexact)
  · rw [hzero hv, hv]
  · exact parsed_of_exact hexact

theorem told_showI64 (v : U64) : Told (showI64 v) v := by
  have hparsed := (showI64_number v).2
  by_cases hmin : v = intMin
  · rw [if_pos hmin] at hparsed
    exact told_of (fun _ => hparsed) fun h => .inl (h ▸ hparsed)
  · rw [if_neg hmin] at hparsed
    exact told_of (fun hv => hparsed.trans hv) fun _ => .inr (.inl ⟨rfl, hmin⟩)

theorem told_hex (v : U64) : Told (hex v) v := by
  have hparsed := (hex_number v).2
  by_cases hlt : v.toNat < 2 ^ 63
  · rw [if_pos hlt] at hparsed
    exact told_of (fun hv => hparsed.trans hv) fun _ => .inr (.inr ⟨rfl, hlt⟩)
  · rw [if_neg hlt] at hparsed
    exact told_of (fun _ => hparsed) fun h => .inl (h ▸ hparsed)

theorem told_dec (v : U64) : Told (dec v.toNat) v := by
  have hparsed := (dec_number v.toNat).2
  by_cases hlt : v.toNat < 2 ^ 63
  · have hshow : dec v.toNat = showI64 v := by
      rw [showI64, BitVec.msb_eq_decide, decide_eq_false (by omega)]
      rfl
    rw [hshow]
    exact told_showI64 v
  · rw [if_neg hlt] at hparsed
    exact told_of (fun _ => hparsed) fun h => .inl (h ▸ hparsed)

/-- A part of the value that is read right is the whole value. -/
theorem told_base (v : U64) : Told (showI64 (v &&& 0xf#64)) v := by
  have hmin : v &&& 0xf#64 ≠ intMin := by
    intro h
    have hbit := congrArg (·.getLsbD 63) h
    simp [intMin] at hbit
  have hparsed := (showI64_number (v &&& 0xf#64)).2
  rw [if_neg hmin] at hparsed
  refine told_of (fun hv => by rw [hparsed, hv]; rfl) fun h => .inr (.inl ?_)
  rw [hparsed] at h
  rw [h] at hmin
  exact ⟨by rw [h], hmin⟩

theorem octal_number (v : U64) : IsNumber (octal v) := by
  have hdigit : ∀ d < 8, isDigitOf 10 (digitByte d) = true := by decide
  refine ⟨false, false, octal v, ?_, ?_, rfl⟩
  · exact append_ne_nil_of_right_ne_nil _ (numeral_ne_nil _)
  · intro b hb
    rcases mem_append.mp hb with hb | hb
    · rw [eq_of_mem_replicate hb]
      decide
    · obtain ⟨d, hd, rfl⟩ := mem_numeral (by decide) hb
      exact hdigit d hd

/-! ## Words -/

/-- A position: a number, which is told where the reader is not stuck, or words. -/
def Position (stuck : Bool) (t : List U8) (v : U64) : Prop := (IsNumber t ∧ (stuck = true ∨ Told t v)) ∨ Words t

theorem Rendered.position {stuck : Bool} {ts : List (List U8)} {vs : List U64}
    (h : Position stuck t v) (rest : Rendered stuck ts vs) : Rendered stuck (t :: ts) (v :: vs) := by
  rcases h with ⟨hnum, htold⟩ | hwords
  · exact .number hnum htold rest
  · exact .words hwords rest.weaken

/-- A name, which begins with a stop and has no line end. -/
def isName (t : List U8) : Bool := (t.head?.any isStop) && t.all (· != byte '\n')

theorem newline_of_isName (h : isName t = true) : byte '\n' ∉ t := by
  intro hmem
  have hall := all_eq_true.mp (Bool.and_eq_true_iff.mp h).2 _ hmem
  exact absurd hall (by decide)

theorem words_name (h : isName t = true) (hs : byte '\n' ∉ s) : Words (t ++ s) := by
  have hline : byte '\n' ∉ t ++ s := by
    rw [mem_append, not_or]
    exact ⟨newline_of_isName h, hs⟩
  cases t with
  | nil => exact absurd h (by decide)
  | cons b u => exact words_of_stop (Bool.and_eq_true_iff.mp h).1 hline

theorem words_of_isName (h : isName t = true) : Words t := by
  have hwords := words_name h not_mem_nil
  rwa [append_nil] at hwords

theorem mem_takeBits :
    ∀ t ∈ (takeBits bits flags).1, t ∈ bits.map fun bit => utf8 bit.2 := by
  induction bits generalizing flags with
  | nil => exact fun t ht => absurd ht not_mem_nil
  | cons bit bits ih =>
    intro t ht
    rw [takeBits] at ht
    split at ht
    · rcases mem_cons.mp ht with rfl | ht
      · exact mem_cons_self
      · exact mem_cons_of_mem _ (ih t ht)
    · exact mem_cons_of_mem _ (ih t ht)

theorem takeBits_of_nil (h : (takeBits bits flags).1 = []) :
    (takeBits bits flags).2 = flags := by
  induction bits with
  | nil => rfl
  | cons bit bits ih =>
    rw [takeBits] at h ⊢
    split
    next hset =>
      rw [if_pos hset] at h
      cases h
    next hclear =>
      rw [if_neg hclear] at h
      exact ih h

theorem newline_printRest (flags : U64) : byte '\n' ∉ printRest flags := by
  rw [printRest]
  split
  · rw [mem_cons, not_or]
    exact ⟨by decide, newline_not_mem_number (hex_number flags).1⟩
  · exact not_mem_nil

/-- Barred names and what is left begin with a bar, or there are none. -/
theorem barred_cases (h : ∀ t ∈ names, isName t = true) (flags : U64) :
    barred names ++ printRest flags = [] ∨
      ∃ s, byte '\n' ∉ s ∧ barred names ++ printRest flags = byte '|' :: s := by
  have hline : byte '\n' ∉ barred names ++ printRest flags := by
    rw [mem_append, not_or]
    refine ⟨fun hmem => ?_, newline_printRest flags⟩
    obtain ⟨t, ht, hb⟩ := mem_flatMap.mp hmem
    rcases mem_cons.mp hb with heq | hb
    · exact absurd heq (by decide)
    · exact newline_of_isName (h t ht) hb
  cases names with
  | nil =>
    rw [printRest] at hline ⊢
    split
    next hset =>
      rw [if_pos hset] at hline
      exact .inr ⟨hex flags, fun hmem => hline (mem_cons_of_mem _ hmem), rfl⟩
    next => exact .inl rfl
  | cons t ts => exact .inr ⟨_, fun hmem => hline (mem_cons_of_mem _ hmem), rfl⟩

theorem newline_of_barred (h : ∀ t ∈ names, isName t = true) (flags : U64) :
    byte '\n' ∉ barred names ++ printRest flags := by
  rcases barred_cases h flags with heq | ⟨s, hs, heq⟩
  · rw [heq]
    exact not_mem_nil
  · rw [heq, mem_cons, not_or]
    exact ⟨by decide, hs⟩

/-! ## Printed positions -/

section

variable (stuck : Bool) (libc : Libc) (mem : Traced)

theorem position_showI64 (v : U64) : Position stuck (showI64 v) v :=
  .inl ⟨(showI64_number v).1, .inr (told_showI64 v)⟩

theorem position_hex (v : U64) : Position stuck (hex v) v := .inl ⟨(hex_number v).1, .inr (told_hex v)⟩

theorem position_dec (v : U64) : Position stuck (dec v.toNat) v :=
  .inl ⟨(dec_number v.toNat).1, .inr (told_dec v)⟩

theorem position_printAddr (addr : U64) : Position stuck (printAddr addr) addr := by
  rw [printAddr]
  split
  · exact .inr (words_of_isName (by decide))
  · exact position_hex stuck addr

theorem newline_printByte (c : U8) : byte '\n' ∉ printByte c := by
  have hall : ∀ c : U8, byte '\n' ∉ printByte c := by decide +kernel
  exact hall c

/-- A string, or the address of what could not be read. -/
theorem position_printStr (addr : U64) : Position stuck (printStr mem addr) addr := by
  rw [printStr]
  split
  next buf _ =>
    split
    · refine .inr (words_of_stop (by decide) ?_)
      rw [mem_cons, mem_append, not_or, not_or]
      refine ⟨by decide, fun hmem => ?_, by decide⟩
      obtain ⟨c, -, hc⟩ := mem_flatMap.mp hmem
      exact newline_printByte c hc
    · exact position_printAddr stuck addr
  next => exact position_printAddr stuck addr

theorem words_printOpenFlags (flags : U64) : Words (printOpenFlags libc flags) := by
  refine words_name ?_ (newline_of_barred (fun t ht => ?_) _)
  · split
    · decide
    · split <;> decide
  · have hnames : ∀ t ∈ [utf8 "O_CREAT", utf8 "O_EXCL", utf8 "O_TRUNC", utf8 "O_APPEND", utf8 "O_NONBLOCK",
        utf8 "O_CLOEXEC", utf8 "O_DIRECTORY", utf8 "O_LARGEFILE"], isName t = true := by decide
    exact hnames t (mem_takeBits t ht)

theorem newline_intercalate (h : ∀ t ∈ names, isName t = true) : byte '\n' ∉ [byte '|'].intercalate names :=
  not_mem_intercalate (by decide) fun t ht => newline_of_isName (h t ht)

/-- Names with bars between them are words, or there are none. -/
theorem words_intercalate (h : ∀ t ∈ names, isName t = true)
    (hs : byte '\n' ∉ s) (hne : names ≠ []) : Words ([byte '|'].intercalate names ++ s) := by
  cases names with
  | nil => exact absurd rfl hne
  | cons t ts =>
    have hname := h t mem_cons_self
    cases ts with
    | nil =>
      rw [intercalate_singleton]
      exact words_name hname hs
    | cons u us =>
      have hrest := newline_intercalate fun t' ht' => h t' (mem_cons_of_mem t ht')
      rw [intercalate_cons_cons, append_assoc, append_assoc]
      refine words_name hname ?_
      rw [mem_append, mem_append, not_or, not_or]
      exact ⟨by decide, hrest, hs⟩

theorem words_printMmapProt (prot : U64) : Words (printMmapProt prot) := by
  rw [printMmapProt]
  split
  · exact words_of_isName (by decide)
  next hne =>
    have hnames : ∀ t ∈ [utf8 "PROT_READ", utf8 "PROT_WRITE", utf8 "PROT_EXEC"], isName t = true := by decide
    by_cases hnil : (takeBits [(1#64, "PROT_READ"), (2#64, "PROT_WRITE"), (4#64, "PROT_EXEC")] prot).1 = []
    · -- no bit has a name, so there is a rest
      have hrest : printRest prot = byte '|' :: hex prot := if_pos hne
      simp only [hnil, takeBits_of_nil hnil, hrest]
      exact words_of_stop (by decide) (hrest ▸ newline_printRest prot)
    · refine words_intercalate (fun t ht => ?_) (newline_printRest _) hnil
      exact hnames t (mem_takeBits t ht)

/-- A number with names behind it is a number, or words. -/
theorem position_suffix (ht : IsNumber t) (htold : stuck = true ∨ Told t v)
    (hs : s = [] ∨ ∃ u, byte '\n' ∉ u ∧ s = byte '|' :: u) : Position stuck (t ++ s) v := by
  rcases hs with rfl | ⟨u, hu, rfl⟩
  · rw [append_nil]
    exact .inl ⟨ht, htold⟩
  · exact .inr (words_of_bar ht hu)

theorem position_printMmapFlags (flags : U64) : Position true (printMmapFlags libc flags) flags := by
  have hnames : ∀ t ∈ (takeBits [(libc.mapAnonymous, "MAP_ANONYMOUS"), (libc.mapFixed, "MAP_FIXED"),
      (libc.mapPopulate, "MAP_POPULATE")] (flags &&& ~~~0xf#64)).1, isName t = true := by
    have hall : ∀ t ∈ [utf8 "MAP_ANONYMOUS", utf8 "MAP_FIXED", utf8 "MAP_POPULATE"], isName t = true := by decide
    exact fun t ht => hall t (mem_takeBits t ht)
  rw [printMmapFlags]
  split
  · exact .inr (words_name (by decide) (newline_of_barred hnames _))
  · split
    · exact .inr (words_name (by decide) (newline_of_barred hnames _))
    · exact position_suffix true (hex_number _).1 (.inl rfl) (barred_cases hnames _)

theorem position_printSocketDomain (d : U64) : Position stuck (printSocketDomain libc d) d := by
  rw [printSocketDomain]
  split
  · exact .inr (words_of_isName (by decide))
  split
  · exact .inr (words_of_isName (by decide))
  split
  · exact .inr (words_of_isName (by decide))
  split
  · exact .inr (words_of_isName (by decide))
  split
  · exact .inr (words_of_isName (by decide))
  · exact position_showI64 stuck d

theorem position_printSocketType (ty : U64) : Position stuck (printSocketType libc ty) ty := by
  have hsuffix : ∀ p q : Prop, ∀ [Decidable p] [Decidable q],
      (if p then utf8 "|SOCK_NONBLOCK" else []) ++ (if q then utf8 "|SOCK_CLOEXEC" else []) = [] ∨
        ∃ u, byte '\n' ∉ u ∧
          (if p then utf8 "|SOCK_NONBLOCK" else []) ++ (if q then utf8 "|SOCK_CLOEXEC" else []) = byte '|' :: u := by
    intro p q _ _
    split <;> split
    · exact .inr ⟨utf8 "SOCK_NONBLOCK" ++ utf8 "|SOCK_CLOEXEC", by decide, rfl⟩
    · exact .inr ⟨utf8 "SOCK_NONBLOCK", by decide, rfl⟩
    · exact .inr ⟨utf8 "SOCK_CLOEXEC", by decide, rfl⟩
    · exact .inl rfl
  have hline : ∀ {s : List U8}, (s = [] ∨ ∃ u, byte '\n' ∉ u ∧ s = byte '|' :: u) → byte '\n' ∉ s := by
    rintro s (rfl | ⟨u, hu, rfl⟩)
    · exact not_mem_nil
    · rw [mem_cons, not_or]
      exact ⟨by decide, hu⟩
  rw [printSocketType]
  split
  · exact .inr (words_name (by decide) (hline (hsuffix _ _)))
  split
  · exact .inr (words_name (by decide) (hline (hsuffix _ _)))
  split
  · exact .inr (words_name (by decide) (hline (hsuffix _ _)))
  split
  · exact .inr (words_name (by decide) (hline (hsuffix _ _)))
  · exact position_suffix stuck (showI64_number _).1 (.inr (told_base ty)) (hsuffix _ _)

end

/-! ## Formatters -/

theorem toList_args (a : Args) : a.toList = [a.get 0, a.get 1, a.get 2, a.get 3, a.get 4, a.get 5] := by
  refine ext_getElem (by simp) fun i h _ => ?_
  match i, h with
  | 0, _ | 1, _ | 2, _ | 3, _ | 4, _ | 5, _ =>
    rw [Vector.getElem_toList]
    rfl

section

variable (libc : Libc) (mem : Traced) (a : Args) (ret : U64)

/-- The mode of a created file, behind the flags. -/
theorem rendered_mode {p : Prop} [Decidable p] (mode : U64) (vs : List U64) :
    Rendered true (if p then [octal mode] else []) (mode :: vs) := by
  split
  · exact .number (octal_number mode) (.inl rfl) .nil
  · exact .nil

theorem rendered_fmtOpenat : Rendered false (fmtOpenat libc mem a ret).args a.toList := by
  rw [toList_args]
  refine .position ?_ (.position (position_printStr _ mem _) (.words (words_printOpenFlags libc _) (rendered_mode _ _)))
  split
  · exact .inr (words_of_isName (by decide))
  · exact position_showI64 _ _

theorem rendered_fmtOpen : Rendered false (fmtOpen libc mem a ret).args a.toList := by
  rw [toList_args]
  exact .position (position_printStr _ mem _) (.words (words_printOpenFlags libc _) (rendered_mode _ _))

theorem rendered_fmtBuffer (name : String) : Rendered false (fmtBuffer name a ret).args a.toList := by
  rw [toList_args]
  exact .position (position_showI64 _ _) (.position (position_hex _ _) (.position (position_dec _ _) .nil))

theorem rendered_fmtClose : Rendered false (fmtClose a ret).args a.toList := by
  rw [toList_args]
  exact .position (position_showI64 _ _) .nil

theorem rendered_fmtMmap : Rendered false (fmtMmap libc a ret).args a.toList := by
  rw [toList_args]
  exact .position (position_printAddr _ _) (.position (position_dec _ _) (.words (words_printMmapProt _)
    (.position (position_printMmapFlags libc _) (.position (position_showI64 _ _)
      (.position (position_showI64 _ _) .nil)))))

theorem rendered_fmtMprotect : Rendered false (fmtMprotect a ret).args a.toList := by
  rw [toList_args]
  exact .position (position_hex _ _) (.position (position_dec _ _) (.words (words_printMmapProt _) .nil))

theorem rendered_fmtSocket : Rendered false (fmtSocket libc a ret).args a.toList := by
  rw [toList_args]
  exact .position (position_printSocketDomain _ libc _) (.position (position_printSocketType _ libc _)
    (.position (position_showI64 _ _) .nil))

theorem rendered_fmtExecve : Rendered false (fmtExecve mem a ret).args a.toList := by
  rw [toList_args]
  exact .position (position_printStr _ mem _) (.position (position_hex _ _) (.position (position_hex _ _) .nil))

theorem rendered_fmtAccess : Rendered false (fmtAccess mem a ret).args a.toList := by
  have hnames : ∀ t ∈ [utf8 "R_OK", utf8 "W_OK", utf8 "X_OK"], isName t = true := by decide
  rw [toList_args]
  refine .position (position_printStr _ mem _) ?_
  by_cases hzero : a[1] = 0#64
  · rw [if_pos hzero]
    exact .words (words_of_isName (by decide)) .nil
  · rw [if_neg hzero]
    by_cases hnil : (takeBits [(4#64, "R_OK"), (2#64, "W_OK"), (1#64, "X_OK")] a[1]).1 = []
    · rw [hnil]
      exact .blank
    · have hset : ∀ t ∈ (takeBits [(4#64, "R_OK"), (2#64, "W_OK"), (1#64, "X_OK")] a[1]).1, isName t = true :=
        fun t ht => hnames t (mem_takeBits t ht)
      have hwords := words_intercalate hset not_mem_nil hnil
      rw [append_nil] at hwords
      exact .words hwords .nil

theorem rendered_fmtBrk : Rendered false (fmtBrk a ret).args a.toList := by
  rw [toList_args]
  exact .position (position_printAddr _ _) .nil

theorem rendered_fmtGeneric (arch : Arch) (nr : U64) : Rendered false (fmtGeneric arch nr a ret).args a.toList := by
  have hall : ∀ vs : List U64,
      Rendered false (vs.map fun arg => if arg = 0#64 then ascii ['0'] else hex arg) vs := by
    intro vs
    induction vs with
    | nil => exact .nil
    | cons v vs ih =>
      refine .position ?_ ih
      by_cases hzero : v = 0#64
      · simp only [hzero]
        exact position_showI64 false 0#64
      · simp only [hzero]
        exact position_hex false v
  exact hall a.toList

end

/-- A line for a call: its positions are rendered, its name is that of the number, and its return value is
a number. -/
structure Decodes (arch : Arch) (sc : Syscall) (l : Line) : Prop where
  rendered : Rendered false l.args sc.args.toList
  name : ∀ name, syscallName arch sc.nr = some name → l.name = name
  ret : IsNumber l.ret

theorem decodes_fmtGeneric (arch : Arch) (sc : Syscall) : Decodes arch sc (fmtGeneric arch sc.nr sc.args sc.ret) where
  rendered := rendered_fmtGeneric _ _ _ _
  name name h := by rw [fmtGeneric, h]; rfl
  ret := (showI64_number _).1

/-- A formatter that writes the name of its number, where the others write a line. -/
theorem decodes_ite {arch : Arch} {sc : Syscall} {l m : Line} {nr : U64} (hname : syscallName arch nr = some l.name)
    (hret : IsNumber l.ret) (hargs : Rendered false l.args sc.args.toList) (hm : Decodes arch sc m) :
    Decodes arch sc (if sc.nr = nr then l else m) := by
  split
  next hnr =>
    refine ⟨hargs, fun name h => ?_, hret⟩
    rw [hnr, hname] at h
    exact Option.some.inj h
  next => exact hm

/-- Whatever formatter `decode_syscall` goes to writes a line for the call. -/
theorem decodes_decodeLine (arch : Arch) (libc : Libc) (mem : Traced) (sc : Syscall) :
    Decodes arch sc (decodeLine arch libc mem sc) := by
  have hret := fun v => (showI64_number v).1
  have hret' := fun v => (hex_number v).1
  cases arch with
  | x8664 =>
    refine decodes_ite rfl (hret _) (rendered_fmtBuffer _ _ _) ?_
    refine decodes_ite rfl (hret _) (rendered_fmtBuffer _ _ _) ?_
    refine decodes_ite rfl (hret _) (rendered_fmtOpen libc mem _ _) ?_
    refine decodes_ite rfl (hret _) (rendered_fmtClose _ _) ?_
    refine decodes_ite rfl (hret' _) (rendered_fmtMmap libc _ _) ?_
    refine decodes_ite rfl (hret _) (rendered_fmtMprotect _ _) ?_
    refine decodes_ite rfl (hret' _) (rendered_fmtBrk _ _) ?_
    refine decodes_ite rfl (hret _) (rendered_fmtAccess mem _ _) ?_
    refine decodes_ite rfl (hret _) (rendered_fmtSocket libc _ _) ?_
    refine decodes_ite rfl (hret _) (rendered_fmtBuffer _ _ _) ?_
    refine decodes_ite rfl (hret _) (rendered_fmtExecve mem _ _) ?_
    refine decodes_ite rfl (hret _) (rendered_fmtOpenat libc mem _ _) ?_
    exact decodes_fmtGeneric _ _
  | aarch64 =>
    refine decodes_ite rfl (hret _) (rendered_fmtBuffer _ _ _) ?_
    refine decodes_ite rfl (hret _) (rendered_fmtBuffer _ _ _) ?_
    refine decodes_ite rfl (hret _) (rendered_fmtOpenat libc mem _ _) ?_
    refine decodes_ite rfl (hret _) (rendered_fmtClose _ _) ?_
    refine decodes_ite rfl (hret' _) (rendered_fmtMmap libc _ _) ?_
    refine decodes_ite rfl (hret _) (rendered_fmtMprotect _ _) ?_
    refine decodes_ite rfl (hret' _) (rendered_fmtBrk _ _) ?_
    refine decodes_ite rfl (hret _) (rendered_fmtSocket libc _ _) ?_
    refine decodes_ite rfl (hret _) (rendered_fmtBuffer _ _ _) ?_
    refine decodes_ite rfl (hret _) (rendered_fmtExecve mem _ _) ?_
    exact decodes_fmtGeneric _ _

/-! ## The line -/

/-- What is written in front of the line end. -/
def body (l : Line) : List U8 :=
  l.name ++ byte '(' :: joined l.args (byte ')' :: (ascii [' ', '=', ' '] ++ l.ret))

theorem text_eq (l : Line) : l.text = body l ++ byte '\n' :: [] := by
  simp [Line.text, body, joined, ascii]

section

variable {arch : Arch} {sc : Syscall} {l : Line} {name : List U8}

theorem name_not_mem (hname : syscallName arch sc.nr = some name) {b : U8} (hb : isCallByte b = false) : b ∉ name := by
  intro hmem
  rw [isCallByte_syscallName hname b hmem] at hb
  cases hb

theorem newline_body (h : Decodes arch sc l) (hname : syscallName arch sc.nr = some name) : byte '\n' ∉ body l := by
  rw [body, h.name name hname, joined, mem_append, mem_cons, mem_append, mem_cons, mem_append]
  have hargs : byte '\n' ∉ (ascii [',', ' ']).intercalate l.args :=
    not_mem_intercalate (by decide) h.rendered.newline_not_mem
  have hret := newline_not_mem_number h.ret
  have hfront := name_not_mem hname (b := byte '\n') (by decide)
  tauto

theorem withoutReturn_body (h : Decodes arch sc l) : withoutReturn (body l) = body l := by
  rw [withoutReturn, if_neg]
  intro hlast
  obtain ⟨b, s, hret, -⟩ := head_number h.ret
  have hend : (body l).getLast? = l.ret.getLast? := by
    simp [body, joined, hret, getLast?_cons]
  rw [hend] at hlast
  exact absurd (mem_number h.ret _ (mem_of_getLast? hlast)) (by decide)

theorem parseCall_body (h : Decodes arch sc l) (hname : syscallName arch sc.nr = some name) :
    parseCall arch (body l) =
      some (sc.nr, parseArgs (joined l.args (byte ')' :: (ascii [' ', '=', ' '] ++ l.ret)))) := by
  have hopen : ∀ b ∈ name, (b == byte '(') = false := by
    intro b hb
    rw [beq_eq_false_iff_ne]
    rintro rfl
    exact name_not_mem hname (by decide) hb
  have hparen : (body l).findIdx? (· == byte '(') = some name.length := by
    rw [body, h.name name hname]
    exact findIdx?_append_cons (p := (· == byte '(')) (beq_self_eq_true _) hopen _
  have hdrop : (body l).drop (name.length + 1) = joined l.args (byte ')' :: (ascii [' ', '=', ' '] ++ l.ret)) := by
    rw [body, h.name name hname, ← drop_drop, drop_left, drop_one, tail_cons]
  have htake : (body l).take name.length = name := by
    rw [body, h.name name hname, take_left]
  rw [parseCall, hparen]
  simp [htake, hdrop, syscallNr_syscallName hname]

theorem isComment_body (h : Decodes arch sc l) (hname : syscallName arch sc.nr = some name) :
    isComment (body l) = false ∧ body l ≠ [] := by
  rw [body, h.name name hname]
  cases hcases : name with
  | nil => exact ⟨rfl, cons_ne_nil _ _⟩
  | cons b s =>
    refine ⟨decide_eq_false fun hhead => ?_, cons_ne_nil _ _⟩
    rw [cons_append, head?_cons, Option.some_inj] at hhead
    exact name_not_mem hname (b := byte '#') (by decide) (by rw [hcases, hhead]; exact mem_cons_self)

/-- A line end behind a line that has none yields that line. -/
theorem parseLines_body {β : Type} {f : List U8 → Option β} (hnil : f [] = none) (hline : byte '\n' ∉ body l) {c : β}
    (hf : f (body l) = some c) : parseLines (· == byte '\n') f l.text = [c] := by
  have hopen : ∀ b ∈ body l, (b == byte '\n') = false := by
    intro b hb
    rw [beq_eq_false_iff_ne]
    rintro rfl
    exact hline hb
  rw [text_eq, parseLines_append_cons (p := (· == byte '\n')) (beq_self_eq_true _), parseLines_open hopen,
    parseLines_open (fun b hb => absurd hb not_mem_nil), hf, hnil]
  rfl

/-- Both readers read the number and the arguments of the line. -/
theorem readers_text (h : Decodes arch sc l) (hname : syscallName arch sc.nr = some name) :
    parseTrace arch l.text = [(sc.nr, parseArgs (joined l.args (byte ')' :: (ascii [' ', '=', ' '] ++ l.ret))))] ∧
      (prog2cTraces arch l.text).map (fun c => (c.nr, c.args)) =
        [(sc.nr, parseArgs (joined l.args (byte ')' :: (ascii [' ', '=', ' '] ++ l.ret))))] := by
  have hline := newline_body h hname
  obtain ⟨hcomment, hne⟩ := isComment_body h hname
  have hcall := parseCall_body h hname
  constructor
  · rw [parseTrace, parseLines_body rfl hline
      (by simp only [withoutReturn_body h, hcomment, hne, hcall]; rfl)]
    rfl
  · rw [prog2cTraces, parseLines_body rfl hline
      (by simp only [withoutReturn_body h, hcomment, hcall]; rfl)]
    rfl

end

/-- A traced call with a name is read back with its number, by either reader. Its numbers are read back for
their values exactly where each value is 0, or all the positions in front of it are numbers and its text
is the whole value in the range of an `i64`. -/
theorem replayed_iff (arch : Arch) (libc : Libc) (mem : Traced) (sc : Syscall) (name : List U8)
    (hname : syscallName arch sc.nr = some name) :
    (∃ args : Args, parseTrace arch (decodeSyscall arch libc mem sc) = [(sc.nr, args)] ∧
        (prog2cTraces arch (decodeSyscall arch libc mem sc)).map (fun c => (c.nr, c.args)) = [(sc.nr, args)] ∧
        ∀ (i : Fin 6) (t : List U8), (decodeLine arch libc mem sc).args[(i : Nat)]? = some t → IsNumber t →
          args[i] = sc.args[i]) ↔
      ∀ (i : Fin 6) (t : List U8), (decodeLine arch libc mem sc).args[(i : Nat)]? = some t → IsNumber t →
        sc.args[i] = 0#64 ∨
          (∀ u ∈ (decodeLine arch libc mem sc).args.take i, IsNumber u) ∧ Exact t sc.args[i] := by
  have hdecodes := decodes_decodeLine arch libc mem sc
  obtain ⟨htrace, hprog⟩ := readers_text hdecodes hname
  rw [decodeSyscall, htrace, hprog]
  have hread : ∀ (i : Fin 6) (t : List U8), (decodeLine arch libc mem sc).args[(i : Nat)]? = some t → IsNumber t →
      ((parseArgs (joined (decodeLine arch libc mem sc).args
          (byte ')' :: (ascii [' ', '=', ' '] ++ (decodeLine arch libc mem sc).ret))))[i] = sc.args[i] ↔
        sc.args[i] = 0#64 ∨
          (∀ u ∈ (decodeLine arch libc mem sc).args.take i, IsNumber u) ∧ Exact t sc.args[i]) := by
    intro i t ht hnum
    have hvalue : sc.args.toList[(i : Nat)]? = some sc.args[i] := by simp
    have hlen := hdecodes.rendered.length_le
    rw [Vector.length_toList] at hlen
    rw [← readArgs_rendered hdecodes.rendered hlen _ ht hvalue hnum, parseArgs, Fin.getElem_fin, Vector.getElem_ofFn]
    rfl
  constructor
  · rintro ⟨args, heq, -, hall⟩ i t ht hnum
    obtain rfl : _ = args := (Prod.mk.inj (singleton_inj.mp heq)).2
    exact (hread i t ht hnum).mp (hall i t ht hnum)
  · intro hall
    exact ⟨_, rfl, rfl, fun i t ht hnum => (hread i t ht hnum).mpr (hall i t ht hnum)⟩

/-- The constants on x86_64 with glibc. -/
def glibc : Libc where
  oCreat := 0x40#64
  oExcl := 0x80#64
  oTrunc := 0x200#64
  oAppend := 0x400#64
  oNonblock := 0x800#64
  oCloexec := 0x80000#64
  oDirectory := 0x10000#64
  oLargefile := 0#64
  mapPrivate := 2#64
  mapShared := 1#64
  mapAnonymous := 0x20#64
  mapFixed := 0x10#64
  mapPopulate := 0x8000#64
  afUnix := 1#64
  afInet := 2#64
  afInet6 := 10#64
  afNetlink := 16#64
  afPacket := 17#64
  sockStream := 1#64
  sockDgram := 2#64
  sockRaw := 3#64
  sockSeqpacket := 5#64
  sockNonblock := 0x800#64
  sockCloexec := 0x80000#64

/-- `read(3, 0x1000, 64) = 64`. -/
def readCall : Syscall := ⟨0#64, #v[3#64, 0x1000#64, 64#64, 0#64, 0#64, 0#64], 64#64⟩

theorem replayed_iff_read :
    ∃ args : Args, parseTrace .x8664 (decodeSyscall .x8664 glibc (fun _ => none) readCall) = [(0#64, args)] ∧
      (prog2cTraces .x8664 (decodeSyscall .x8664 glibc (fun _ => none) readCall)).map (fun c => (c.nr, c.args)) =
        [(0#64, args)] ∧
      ∀ (i : Fin 6) (t : List U8), (decodeLine .x8664 glibc (fun _ => none) readCall).args[(i : Nat)]? = some t →
        IsNumber t → args[i] = readCall.args[i] := by
  refine (replayed_iff .x8664 glibc (fun _ => none) readCall (utf8 "read") rfl).mpr fun i t ht hnum => .inr ?_
  have hfirst : IsNumber (showI64 3#64) := (showI64_number 3#64).1
  have hsecond : IsNumber (hex 0x1000#64) := (hex_number 0x1000#64).1
  match i with
  | 0 =>
    obtain rfl : showI64 3#64 = t := Option.some.inj ht
    exact ⟨fun u hu => absurd hu not_mem_nil, .inl ⟨rfl, by decide⟩⟩
  | 1 =>
    obtain rfl : hex 0x1000#64 = t := Option.some.inj ht
    exact ⟨forall_mem_singleton.mpr hfirst, .inr ⟨rfl, by decide⟩⟩
  | 2 =>
    obtain rfl : showI64 64#64 = t := Option.some.inj ht
    exact ⟨forall_mem_cons.mpr ⟨hfirst, forall_mem_singleton.mpr hsecond⟩, .inl ⟨rfl, by decide⟩⟩
  | 3 | 4 | 5 => cases ht

/-- `mmap(NULL, 8192, PROT_READ, MAP_PRIVATE, 3, 0) = 0x0`. -/
def mmapCall : Syscall := ⟨9#64, #v[0#64, 8192#64, 1#64, 2#64, 3#64, 0#64], 0#64⟩

/-- Behind `NULL` the length of a mapping and its file are read as 0. -/
theorem mmap_length_lost :
    syscallName .x8664 mmapCall.nr = some (utf8 "mmap") ∧
      (decodeLine .x8664 glibc (fun _ => none) mmapCall).args[1]? = some (dec 8192) ∧ IsNumber (dec 8192) ∧
      parseTrace .x8664 (decodeSyscall .x8664 glibc (fun _ => none) mmapCall) =
        [(9#64, #v[0#64, 0#64, 0#64, 0#64, 0#64, 0#64])] :=
  ⟨rfl, rfl, (dec_number 8192).1, by decide +kernel⟩

end Vock.Replay
