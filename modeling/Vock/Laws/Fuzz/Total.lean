import Vock.Laws.Fuzz.Literals
import Vock.Laws.Fuzz.ProgTextChecked

/-!
# Any text is parsed

The lines of a text are cut in front of and behind ASCII bytes only, so that the parts are texts again and the arguments
of a call are read as `Vock.Laws.Fuzz.ProgTextChecked` says. With the loops of `matching_paren` and `comment_pos`, which
get on by a byte or two, nothing stops the parser (`parseProg_total`).

The depth in `matching_paren` is an `i32` and wraps around, while `Vock.Fuzz.ProgText` counts without a bound. The two
find the same on a line of less than two gigabytes; on a longer one the parser is not stopped either.
-/

namespace Vock.Fuzz.Machine

open Library Checked

variable {line s : List U8} {quote : U8} {d : BitVec 32}

/-! ## Where a line is cut -/

theorem hash_lt : byte '#' < 0x80#8 := byte_lt (by decide)

theorem open_lt : byte '(' < 0x80#8 := byte_lt (by decide)

theorem close_lt : byte ')' < 0x80#8 := byte_lt (by decide)

theorem equals_lt : byte '=' < 0x80#8 := byte_lt (by decide)

theorem length_trim_le (s : List U8) : (trim s).length ≤ s.length :=
  Nat.le_trans (length_trimEnd_le _) (length_trimStart_le s)

/-! ## Comments -/

/-- A position counted from `n` bytes further on. -/
theorem map_shift (o : Option Nat) (n i : Nat) : o.map (· + (i + n)) = (o.map (· + n)).map (· + i) := by
  rw [Option.map_map]
  apply congrArg (Option.map · o)
  funext k
  show k + (i + n) = k + n + i
  omega

theorem commentStep_eq (s : List U8) (i : Nat) (quote : U8) :
    commentStep s (i, quote) = pure (.inr ((commentFrom quote (s.drop i)).map (· + i))) ∨
      ∃ st, commentStep s (i, quote) = pure (.inl st) ∧
        (commentFrom st.2 (s.drop st.1)).map (· + st.1) = (commentFrom quote (s.drop i)).map (· + i) ∧
        s.length - st.1 < s.length - i := by
  unfold commentStep
  dsimp only
  cases h : s.drop i with
  | nil =>
    rw [if_neg (Nat.not_lt.mpr (List.drop_eq_nil_iff.mp h))]
    exact .inl rfl
  | cons c rest =>
    have hlt := lt_of_drop h
    have next := drop_succ_of_drop h
    rw [if_pos hlt, get_of_drop h, pure_bind, commentFrom.eq_def]
    dsimp only
    split
    · split
      · refine .inr ⟨_, rfl, ?_, by dsimp only; omega⟩
        rw [show s.drop (i + 2) = rest.drop 1 by rw [← next, List.drop_drop]]
        cases rest with
        | nil => rfl
        | cons d rest => exact map_shift _ 2 i
      · refine .inr ⟨_, rfl, ?_, by dsimp only; omega⟩
        dsimp only
        rw [next]
        exact map_shift _ 1 i
    · split
      · refine .inr ⟨_, rfl, ?_, by dsimp only; omega⟩
        dsimp only
        rw [next]
        exact map_shift _ 1 i
      · split
        · rw [Option.map_some, Nat.zero_add]
          exact .inl rfl
        · refine .inr ⟨_, rfl, ?_, by dsimp only; omega⟩
          rw [next]
          exact map_shift _ 1 i

theorem commentPos_eq (s : List U8) : commentPos s = pure (Fuzz.commentPos s) := by
  unfold commentPos
  rw [repeatFor_eq (fun st : Nat × U8 => (commentFrom st.2 (s.drop st.1)).map (· + st.1)) (fun st => s.length - st.1)
    (fun st => commentStep_eq s st.1 st.2) (Nat.lt_succ_of_le (Nat.sub_le _ _))]
  simp [Fuzz.commentPos]

/-- A comment begins with its `#`. -/
theorem getElem?_commentFrom {k : Nat} (h : commentFrom quote s = some k) : s[k]? = some (byte '#') := by
  have behind {o : Option Nat} {n k : Nat} {t t' : List U8} (hdrop : t = t'.drop n) (h : o.map (· + n) = some k)
      (ih : ∀ k, o = some k → t[k]? = some (byte '#')) : t'[k]? = some (byte '#') := by
    obtain ⟨j, hj, rfl⟩ := Option.map_eq_some_iff.mp h
    have := ih j hj
    rwa [hdrop, List.getElem?_drop, Nat.add_comm] at this
  fun_induction commentFrom quote s generalizing k with
  | case1 | case2 => cases h
  | case3 => exact behind rfl h ‹_›
  | case4 | case5 | case7 => exact behind rfl h ‹_›
  | case6 =>
    obtain rfl := Option.some.inj h
    rfl

theorem withoutComment_eq (h : Utf8 line) :
    withoutComment line = pure (Fuzz.withoutComment line) ∧ Utf8 (Fuzz.withoutComment line) ∧
      (Fuzz.withoutComment line).length ≤ line.length := by
  unfold withoutComment Fuzz.withoutComment
  rw [commentPos_eq, pure_bind]
  cases hpos : Fuzz.commentPos line with
  | none => exact ⟨rfl, h, Nat.le_refl _⟩
  | some pos =>
    have hget := getElem?_commentFrom hpos
    dsimp only
    rw [strSlice_before hget hash_lt]
    exact ⟨rfl, utf8_trim (h.take_drop hget hash_lt).1,
      Nat.le_trans (length_trim_le _) (List.length_take_le' pos line)⟩

/-! ## Brackets -/

/-- What the loop of `matching_paren` keeps on a line of less than two gigabytes: it finds what is to be found, and its
depth did not wrap around. -/
structure Follows (s : List U8) (pos : Nat) (st : Scan) : Prop where
  model : (matchingFrom st.quote st.depth.toInt (s.drop st.i)).map (· + st.i) = Fuzz.matchingParen s pos
  low : -(st.i : Int) ≤ st.depth.toInt
  high : st.depth.toInt ≤ st.i

/-- What `matching_paren` finds. -/
structure Found (s : List U8) (pos : Nat) (o : Option Nat) : Prop where
  close : ∀ k, o = some k → pos ≤ k ∧ s[k]? = some (byte ')')
  model : s.length < 2 ^ 31 → o = Fuzz.matchingParen s pos

theorem toInt_succ (h : d.toInt + 1 < 2 ^ 31) : (d + 1#32).toInt = d.toInt + 1 := by
  have low := BitVec.le_toInt d
  rw [BitVec.toInt_add, show (1#32).toInt = 1 from rfl]
  exact Int.bmod_eq_of_le (by omega) (by omega)

theorem toInt_pred (h : -2 ^ 31 < d.toInt) : (d - 1#32).toInt = d.toInt - 1 := by
  have high := BitVec.toInt_lt (x := d)
  rw [BitVec.toInt_sub, show (1#32).toInt = 1 from rfl]
  exact Int.bmod_eq_of_le (by omega) (by omega)

/-- What a round of the loop leaves: the next state, further on, or what is found. -/
def Scanned (s : List U8) (pos i : Nat) : Scan ⊕ Option Nat → Prop :=
  Sum.elim (fun st => (pos ≤ st.i ∧ (s.length < 2 ^ 31 → Follows s pos st)) ∧ s.length - st.i < s.length - i) (Found s pos)

section

variable {s rest : List U8} {pos : Nat} {st : Scan} {c : U8} (hdrop : s.drop st.i = c :: rest) (hle : pos ≤ st.i)
  (h : s.length < 2 ^ 31 → Follows s pos st)
include hdrop hle h

/-- A round that goes on: what it finds further on is what is found from here, and it counts at most one bracket. -/
theorem scanned_goOn {n : Nat} {depth : BitVec 32} (hn : 0 < n)
    (follows : s.length < 2 ^ 31 → Follows s pos st → st.depth.toInt - 1 ≤ depth.toInt ∧
      depth.toInt ≤ st.depth.toInt + 1 ∧ (matchingFrom quote depth.toInt (s.drop (st.i + n))).map (· + n) =
        matchingFrom st.quote st.depth.toInt (c :: rest)) :
    Answers (pure (.inl ⟨st.i + n, quote, depth⟩)) (Scanned s pos st.i) := by
  have hlt := lt_of_drop hdrop
  refine .of_pure ⟨⟨Nat.le_add_right_of_le hle, fun short => ?_⟩, by dsimp only; omega⟩
  obtain ⟨low, high, same⟩ := follows short (h short)
  obtain ⟨model, hlow, hhigh⟩ := h short
  refine ⟨?_, by dsimp only; omega, by dsimp only; omega⟩
  rw [map_shift, same, ← hdrop, model]

/-- Inside of a literal. -/
theorem scanned_quoted (hquote : st.quote ≠ 0#8) :
    Answers (if c = byte '\\' then pure (.inl { st with i := st.i + 2 })
      else pure (.inl { st with i := st.i + 1, quote := if c = st.quote then 0#8 else st.quote })) (Scanned s pos st.i) := by
  have next := drop_succ_of_drop hdrop
  split
  next hc =>
    refine scanned_goOn hdrop hle h (by omega) fun _ _ => ⟨by omega, by omega, ?_⟩
    rw [show s.drop (st.i + 2) = rest.drop 1 by rw [← next, List.drop_drop], hc]
    cases rest with
    | nil | cons d rest => rw [matchingFrom, if_pos hquote]; rfl
  next hc =>
    refine scanned_goOn hdrop hle h (by omega) fun _ _ => ⟨by omega, by omega, ?_⟩
    rw [next, matchingFrom_in _ _ hquote hc]

/-- A closing bracket. -/
theorem scanned_close (hzero : st.quote = 0#8) (hc : c = byte ')') :
    Answers (if st.depth - 1#32 = 0#32 then pure (.inr (some st.i))
      else pure (.inl { st with i := st.i + 1, depth := st.depth - 1#32 })) (Scanned s pos st.i) := by
  have next := drop_succ_of_drop hdrop
  have up (short : s.length < 2 ^ 31) : (st.depth - 1#32).toInt = st.depth.toInt - 1 := by
    have := (h short).low
    have := lt_of_drop hdrop
    exact toInt_pred (by omega)
  split
  next hlast =>
    refine .of_pure ⟨fun k hk => ?_, fun short => ?_⟩
    · obtain rfl := Option.some.inj hk
      refine ⟨hle, ?_⟩
      rw [← List.head?_drop, hdrop, List.head?_cons, hc]
    · have zero : st.depth.toInt - 1 = 0 := by rw [← up short, hlast]; rfl
      rw [← (h short).model, hdrop, hzero, hc, matchingFrom_out, if_neg (by decide), if_neg (by decide), if_pos rfl,
        if_pos zero, Option.map_some, Nat.zero_add]
  next hlast =>
    refine scanned_goOn hdrop hle h (by omega) fun short _ => ?_
    have nonzero : st.depth.toInt - 1 ≠ 0 := fun zero => hlast (BitVec.eq_of_toInt_eq ((up short).trans zero))
    refine ⟨by rw [up short], by rw [up short]; omega, ?_⟩
    rw [next, hzero, hc, matchingFrom_out, if_neg (by decide), if_neg (by decide), if_pos rfl, if_neg nonzero, up short]

end

theorem matchingStep_at {pos : Nat} {st : Scan} (hle : pos ≤ st.i)
    (h : s.length < 2 ^ 31 → Follows s pos st) : Answers (matchingStep s st) (Scanned s pos st.i) := by
  unfold matchingStep
  cases hdrop : s.drop st.i with
  | nil =>
    rw [if_neg (Nat.not_lt.mpr (List.drop_eq_nil_iff.mp hdrop))]
    refine .of_pure ⟨nofun, fun short => ?_⟩
    have := (h short).model
    rw [hdrop] at this
    exact this
  | cons c rest =>
    have hlt := lt_of_drop hdrop
    have next := drop_succ_of_drop hdrop
    rw [if_pos hlt, get_of_drop hdrop, pure_bind]
    by_cases hquote : st.quote ≠ 0#8
    · rw [if_pos hquote]
      exact scanned_quoted hdrop hle h hquote
    have hzero : st.quote = 0#8 := Decidable.not_not.mp hquote
    rw [if_neg hquote]
    by_cases hopens : c = byte '"' ∨ c = byte '\''
    · rw [if_pos hopens]
      refine scanned_goOn hdrop hle h (by omega) fun _ _ => ⟨by omega, by omega, ?_⟩
      rw [next, hzero, matchingFrom_out, if_pos hopens]
    rw [if_neg hopens]
    by_cases hopen : c = byte '('
    · rw [if_pos hopen]
      refine scanned_goOn hdrop hle h (by omega) fun short ⟨_, _, high⟩ => ?_
      have deeper := toInt_succ (d := st.depth) (by omega)
      refine ⟨by omega, by omega, ?_⟩
      rw [next, hzero, matchingFrom_out, if_neg hopens, if_pos hopen, deeper]
    rw [if_neg hopen]
    by_cases hclose : c = byte ')'
    · rw [if_pos hclose]
      exact scanned_close hdrop hle h hzero hclose
    · rw [if_neg hclose]
      refine scanned_goOn hdrop hle h (by omega) fun _ _ => ⟨by omega, by omega, ?_⟩
      rw [next, hzero, matchingFrom_out, if_neg hopens, if_neg hopen, if_neg hclose]

theorem matchingParen_answers (s : List U8) (pos : Nat) : Answers (matchingParen s pos) (Found s pos) := by
  refine Answers.repeatFor (P := fun st => pos ≤ st.i ∧ (s.length < 2 ^ 31 → Follows s pos st)) (fun st => s.length - st.i)
    (fun st hst => matchingStep_at hst.1 hst.2) ⟨Nat.le_refl pos, fun _ => ⟨rfl, ?_, ?_⟩⟩
    (Nat.lt_succ_of_le (Nat.sub_le _ _))
  · show -(pos : Int) ≤ 0
    omega
  · show (0 : Int) ≤ pos
    omega

/-! ## Statements -/

theorem getElem?_of_findIdx? {c : U8} {k : Nat} (h : s.findIdx? (· == c) = some k) : s[k]? = some c := by
  obtain ⟨hlt, heq, -⟩ := List.findIdx?_eq_some_iff_getElem.mp h
  rw [List.getElem?_eq_getElem hlt, eq_of_beq heq]

theorem setProp_eq (call : Call) (part : List U8) : setProp call part = pure (Fuzz.setProp call part) := by
  unfold setProp Fuzz.setProp
  dsimp only
  split
  · rfl
  · cases (trim part).dropPrefix? (ascii ['f', 'a', 'i', 'l', '_', 'n', 't', 'h', ':']) with
    | some v =>
      dsimp only
      rw [parseInt_eq, attempt_of, pure_bind]
    | none => rfl

theorem parseProps_eq (s : List U8) (call : Call) : parseProps s call = pure (Fuzz.parseProps s call) := by
  have each : setProp = fun call part => pure (Fuzz.setProp call part) := by
    funext call part
    exact setProp_eq call part
  rw [parseProps, each, List.foldlM_pure]
  rfl

theorem withProps_eq {tail : List U8} (h : Utf8 tail) (call : Call) :
    withProps tail call = pure (Fuzz.withProps tail call) := by
  unfold withProps Fuzz.withProps
  cases hfirst : tail.findIdx? (· == byte '(') with
  | none => rfl
  | some first =>
    cases hlast : rposition (· == byte ')') tail with
    | none => rfl
    | some last =>
      dsimp only
      split
      next hlt =>
        obtain ⟨c, hget, hc⟩ := getElem?_of_rposition hlast
        obtain rfl := eq_of_beq hc
        rw [(strSlice_between h hget close_lt (getElem?_of_findIdx? hfirst) open_lt hlt).1,
          pure_bind, parseProps_eq]
      next => rfl

theorem splitResult_eq {line : List U8} {paren : Nat} (h : Utf8 line) (hparen : line.findIdx? (· == byte '(') = some paren) :
    splitResult line paren = pure (Fuzz.splitResult line paren) ∧ Utf8 (Fuzz.splitResult line paren).2 ∧
      (Fuzz.splitResult line paren).2.length ≤ line.length := by
  have hget := getElem?_of_findIdx? hparen
  unfold splitResult Fuzz.splitResult
  rw [strSlice_before hget open_lt, pure_bind]
  cases heq : (line.take paren).findIdx? (· == byte '=') with
  | none => exact ⟨rfl, h, Nat.le_refl _⟩
  | some k =>
    have hget' : (line)[k]? = some (byte '=') := by
      have := getElem?_of_findIdx? heq
      obtain ⟨hlt, -⟩ := List.getElem?_eq_some_iff.mp this
      rwa [List.getElem?_take_of_lt (by rw [List.length_take] at hlt; omega)] at this
    dsimp only
    rw [strSlice_before hget' equals_lt, strSlice_behind h hget' equals_lt]
    exact ⟨rfl, utf8_trim (h.take_drop hget' equals_lt).2,
      Nat.le_trans (length_trim_le _) (by rw [List.length_drop]; omega)⟩

section

variable {lossy : List U8 → List U8} (hlossy : ∀ t, Utf8 t → lossy t = t) (syscallNr : List U8 → Option Int)
include hlossy

/-- The arguments of a call, up to the end of their text. -/
theorem list_answers {body : List U8} (h : Utf8 body) :
    Answers (list body (arg lossy body maxDepth 0) 0#8 0) fun p => p.1 = (Fuzz.list (Fuzz.arg maxDepth) 0#8 body).1 := by
  have start : At body 0 body := ⟨Nat.zero_le _, rfl, h⟩
  have harg {i : Nat} {rest : List U8} (hat : At body i rest) := takes_arg hlossy (Nat.zero_add maxDepth) hat
  exact (listLoop_at harg (by decide) start (Nat.lt_succ_self _) (Nat.lt_succ_self _)).weaken fun _ hp => hp.1

theorem statement_answers (h : Utf8 line) :
    ∃ o, statement lossy syscallNr line = of o ∧ (line.length < 2 ^ 31 → o = Fuzz.statement syscallNr line) := by
  unfold statement Fuzz.statement
  cases hparen : line.findIdx? (· == byte '(') with
  | none => exact ⟨none, rfl, fun _ => rfl⟩
  | some paren =>
    obtain ⟨hsplit, hrest, hlen⟩ := splitResult_eq h hparen
    rw [of_some, pure_bind, hsplit, pure_bind, Option.bind_eq_bind, Option.bind_some]
    generalize Fuzz.splitResult line paren = split at hrest hlen
    obtain ⟨res, rest⟩ := split
    dsimp only at hrest hlen ⊢
    cases hopen : rest.findIdx? (· == byte '(') with
    | none => exact ⟨none, rfl, fun _ => rfl⟩
    | some first =>
      have hfirst := getElem?_of_findIdx? hopen
      rw [of_some, pure_bind, strSlice_before hfirst open_lt, pure_bind, Option.bind_some]
      by_cases hname : trim (rest.take first) = []
      · rw [if_pos hname, if_pos hname]
        exact ⟨none, rfl, fun _ => rfl⟩
      rw [if_neg hname, if_neg hname]
      obtain ⟨found, hfound, hclose, hmodel⟩ := matchingParen_answers rest first
      rw [hfound, pure_bind]
      cases found with
      | none =>
        refine ⟨none, rfl, fun short => ?_⟩
        rw [← hmodel (by omega)]
        rfl
      | some close =>
        obtain ⟨hle, hlast⟩ := hclose close rfl
        have hlt : first < close := by
          refine Nat.lt_of_le_of_ne hle fun heq => ?_
          rw [← heq, hfirst] at hlast
          exact absurd (Option.some.inj hlast) (by decide)
        obtain ⟨hbody, hutf8⟩ := strSlice_between hrest hlast close_lt hfirst open_lt hlt
        have htail := (hrest.take_drop hlast close_lt).2
        obtain ⟨⟨args, end'⟩, hlist, hargs⟩ := list_answers hlossy hutf8
        rw [of_some, pure_bind, hbody, pure_bind, hlist, pure_bind, strSlice_behind hrest hlast close_lt,
          pure_bind, withProps_eq (utf8_trim htail)]
        refine ⟨some _, rfl, fun short => ?_⟩
        rw [← hmodel (by omega), hargs]
        rfl

theorem parseCall_answers (h : Utf8 line) :
    ∃ o, parseCall lossy syscallNr line = of o ∧ (line.length < 2 ^ 31 → o = Fuzz.parseCall syscallNr line) := by
  unfold parseCall Fuzz.parseCall
  by_cases hempty : isEmptyLine (trim line) = true
  · rw [if_pos hempty, if_pos hempty]
    exact ⟨none, rfl, fun _ => rfl⟩
  · obtain ⟨hcomment, hutf8, hlen⟩ := withoutComment_eq (utf8_trim h)
    obtain ⟨o, hstatement, hmodel⟩ := statement_answers hlossy syscallNr hutf8
    have := length_trim_le line
    rw [if_neg hempty, if_neg hempty, hcomment, pure_bind]
    exact ⟨o, hstatement, fun short => hmodel (by omega)⟩

theorem progLine_answers (calls : List Call) (h : Utf8 line) :
    ∃ o : Option Call, progLine lossy syscallNr calls line = pure (calls ++ o.toList) ∧
      (line.length < 2 ^ 31 → o = Fuzz.progLine syscallNr line) := by
  unfold progLine Fuzz.progLine
  by_cases hempty : isEmptyLine (trim line) = true
  · rw [if_pos hempty, if_pos hempty]
    exact ⟨none, by rw [Option.toList_none, List.append_nil], fun _ => rfl⟩
  · obtain ⟨o, hcall, hmodel⟩ := parseCall_answers hlossy syscallNr (utf8_trim h)
    have := length_trim_le line
    rw [if_neg hempty, if_neg hempty, hcall]
    exact ⟨o, rfl, fun short => hmodel (by omega)⟩

theorem lines_answers {ls : List (List U8)} (h : ∀ line ∈ ls, Utf8 line) (calls : List Call) :
    Answers (ls.foldlM (progLine lossy syscallNr) calls) fun r =>
      (∀ line ∈ ls, line.length < 2 ^ 31) → r = calls ++ ls.filterMap (Fuzz.progLine syscallNr) := by
  induction ls generalizing calls with
  | nil => exact .of_pure fun _ => (List.append_nil calls).symm
  | cons line ls ih =>
    obtain ⟨o, hline, hmodel⟩ := progLine_answers hlossy syscallNr calls (h line List.mem_cons_self)
    rw [List.foldlM_cons, hline]
    refine (ih (fun l hl => h l (List.mem_cons_of_mem line hl)) _).weaken fun r hr short => ?_
    rw [hr fun l hl => short l (List.mem_cons_of_mem line hl), hmodel (short line List.mem_cons_self), List.filterMap_cons,
      List.append_assoc]
    cases Fuzz.progLine syscallNr line with
    | none | some c => rfl

end

/-! ## Programs -/

theorem utf8_lines {text : List U8} (h : Utf8 text) : ∀ line ∈ lines text, Utf8 line := by
  have parts : ∀ part ∈ text.splitOnP (· == byte '\n'), Utf8 part :=
    h.splitOnP fun b hb => eq_of_beq hb ▸ byte_lt (by decide)
  intro line hline
  rcases List.mem_append.mp hline with hwhole | hlast
  · obtain ⟨part, hpart, rfl⟩ := List.mem_map.mp hwhole
    have hutf8 := parts part (List.dropLast_subset _ hpart)
    cases hdrop : part.dropSuffix? (ascii ['\r']) with
    | none => exact hutf8
    | some line =>
      obtain ⟨v, rfl, hv⟩ := List.dropSuffix?_eq_some_iff.mp hdrop
      rw [eq_of_beq hv] at hutf8
      exact (hutf8.around (byte_lt (by decide))).1
  · obtain ⟨hmem, -⟩ := Option.mem_filter_iff.mp (Option.mem_toList.mp hlast)
    exact parts line (List.mem_of_getLast? hmem)

/-- The bytes of a string are the text of its characters. -/
theorem utf8_ofList (cs : List Char) : utf8 (String.ofList cs) = cs.flatMap charBytes := by
  rw [utf8, String.toByteArray_ofList, List.utf8Encode, List.data_toByteArray, List.map_flatMap]
  rfl

theorem utf8_iff : Utf8 s ↔ ∃ text : String, s = utf8 text := by
  constructor
  · rintro ⟨cs, rfl⟩
    exact ⟨String.ofList cs, (utf8_ofList cs).symm⟩
  · rintro ⟨text, rfl⟩
    refine ⟨text.toList, ?_⟩
    rw [← utf8_ofList, String.ofList_toList]

/-- Every text is parsed: no index, bound or character boundary stops the program, each round of the loop in `list` that
goes on is past where it began, and `arg` does not go below its sixty-four levels. -/
theorem parseProg_total (lossy : List U8 → List U8) (hlossy : ∀ t : String, lossy (utf8 t) = utf8 t)
    (syscallNr : List U8 → Option Int) (text : String) :
    ∃ prog, parseProg lossy syscallNr (utf8 text) = pure prog ∧
      ((∀ line ∈ lines (utf8 text), line.length < 2 ^ 31) → prog = Fuzz.parseProg syscallNr (utf8 text)) := by
  have keeps : ∀ t, Utf8 t → lossy t = t := by
    intro t ht
    obtain ⟨text, rfl⟩ := utf8_iff.mp ht
    exact hlossy text
  have hutf8 := utf8_lines (utf8_iff.mpr ⟨text, rfl⟩)
  obtain ⟨calls, hcalls, hmodel⟩ := lines_answers keeps syscallNr hutf8 []
  refine ⟨⟨calls⟩, ?_, fun short => ?_⟩
  · rw [parseProg, hcalls, pure_bind]
  · rw [hmodel short]
    rfl

/-- A backslash in front of a character of two bytes, and white space of three. -/
theorem parseProg_total_accents :
    ∃ prog, parseProg id (fun _ => none) (utf8 "r0 = f$ü(<é>, \"\\é\", \u2003)") = pure prog ∧
      prog = Fuzz.parseProg (fun _ => none) (utf8 "r0 = f$ü(<é>, \"\\é\", \u2003)") := by
  obtain ⟨prog, parsed, same⟩ := parseProg_total id (fun _ => rfl) (fun _ => none) "r0 = f$ü(<é>, \"\\é\", \u2003)"
  exact ⟨prog, parsed, same (by decide +kernel)⟩

end Vock.Fuzz.Machine
