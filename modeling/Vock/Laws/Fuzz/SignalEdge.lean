import Mathlib.Data.Set.Card
import Vock.Fuzz.SignalEdge

/-!
# What the corpus keeps

The edges of the map are those of the entries, through all calls (`Sound`). The loop of `minimize` keeps the number
of references of each edge, and an edge of its own for each entry that it has passed (`Swept`), so that it ends with
entries of which none can be left out (`Minimal`).

Not established: that they are as few as they could be, as the loop is greedy; nor that different edges have different
hashes: an edge is what is left of it in the map.
-/

namespace Vock.Fuzz.SignalEdge

open Library List

variable {edges : List Nat} {r : Counts} {c : SignalCorpus} {entries : List SignalCorpusEntry} {e : Nat}
  {s : EdgeSignal} {x : SignalCorpusEntry} {α : Type} {calls : List Call}

/-- What `edge_signal_from_pcs` gives: no edge twice, and all of them in the map. -/
def Edges (edges : List Nat) : Prop := edges.Nodup ∧ ∀ e ∈ edges, e < signalMapSize

/-! ## Signals of programs -/

theorem edgeHash_lt (pc prev : U64) : edgeHash pc prev < signalMapSize := by
  exact Nat.lt_of_le_of_lt Nat.and_le_right (by decide)

/-- The edges between consecutive PCs. -/
def pcEdges (prev : U64) (pcs : List U64) : List Nat := (pcs.zip (prev :: pcs)).map fun p => edgeHash p.1 p.2

theorem newEdges_spec (pcs : List U64) (seen : Bitmap (signalMapSize / 64 + 1)) (prev : U64) :
    (newEdges seen prev pcs).Nodup ∧
      ∀ e, e ∈ newEdges seen prev pcs ↔ e ∈ pcEdges prev pcs ∧ ¬ seen.test e = true := by
  induction pcs generalizing seen prev with
  | nil => exact ⟨nodup_nil, by simp [newEdges, pcEdges]⟩
  | cons pc pcs ih =>
    have hcons : pcEdges prev (pc :: pcs) = edgeHash pc prev :: pcEdges pc pcs := rfl
    rw [newEdges, hcons]
    split
    next hold =>
      refine ⟨(ih seen pc).1, fun e => ?_⟩
      rw [(ih seen pc).2, mem_cons]
      grind
    next hnew =>
      obtain ⟨hnodup, hmem⟩ := ih (seen.mark (edgeHash pc prev)) pc
      have hlt : edgeHash pc prev < 64 * (signalMapSize / 64 + 1) := (edgeHash_lt pc prev).trans (by decide)
      simp only [Bitmap.test_mark seen hlt, Bool.or_eq_true, decide_eq_true_eq] at hmem
      refine ⟨nodup_cons.mpr ⟨fun h => ((hmem _).mp h).2 (.inl rfl), hnodup⟩, fun e => ?_⟩
      rw [mem_cons, hmem, mem_cons]
      grind

/-- The signal of a program is its edges in ascending order, each once, and all of them are in the map. -/
theorem edgeSignalFromPcs_exact (pcs : List U64) :
    Edges (edgeSignalFromPcs pcs) ∧ (edgeSignalFromPcs pcs).Pairwise (· ≤ ·) ∧
      ∀ e, e ∈ edgeSignalFromPcs pcs ↔ e ∈ pcEdges 0#64 pcs := by
  obtain ⟨hnodup, hmem⟩ := newEdges_spec pcs (.empty _) 0#64
  have hperm := mergeSort_perm (newEdges (.empty _) 0#64 pcs) fun a b => decide (a ≤ b)
  have hedges : ∀ e, e ∈ edgeSignalFromPcs pcs ↔ e ∈ pcEdges 0#64 pcs := by
    intro e
    rw [edgeSignalFromPcs, hperm.mem_iff, hmem, and_iff_left (by rw [Bitmap.test_empty]; exact Bool.false_ne_true)]
  refine ⟨⟨hperm.nodup_iff.mpr hnodup, fun e he => ?_⟩, pairwise_mergeSort' (· ≤ ·) _, hedges⟩
  obtain ⟨p, -, rfl⟩ := mem_map.mp ((hedges e).mp he)
  exact edgeHash_lt p.1 p.2

/-! ## Loops over edges -/

section

variable {v : Nat → α}

theorem bucket_of_lt (h : e < signalMapSize) : bucket v e = some (v e) := if_pos h

/-- A loop that counts. -/
theorem foldlM_count {p : α → Prop} [DecidablePred p] (h : ∀ e ∈ edges, e < signalMapSize) (n : Nat) :
    edges.foldlM (fun n e => (bucket v e).map fun x => if p x then n + 1 else n) n = some (n + edges.countP fun e => p (v e)) := by
  induction edges generalizing n with
  | nil => rfl
  | cons e edges ih =>
    obtain ⟨he, hrest⟩ := forall_mem_cons.mp h
    rw [foldlM_cons, bucket_of_lt he, Option.map_some, Option.bind_eq_bind, Option.bind_some, ih hrest, countP_cons]
    simp only [decide_eq_true_eq]
    split
    · rw [Nat.add_assoc, Nat.add_comm 1]
    · rfl

/-- A loop that changes the place of each edge. -/
theorem foldlM_update {f : Counts → Nat → Option Counts} {g : BitVec 16 → BitVec 16}
    (hnodup : edges.Nodup)
    (h : ∀ e ∈ edges, ∀ r' : Counts, r' e = r e → f r' e = some (Function.update r' e (g (r e)))) :
    edges.foldlM f r = some fun e => if e ∈ edges then g (r e) else r e := by
  induction edges generalizing r with
  | nil => rfl
  | cons a edges ih =>
    obtain ⟨ha, hnodup⟩ := nodup_cons.mp hnodup
    obtain ⟨hfirst, hrest⟩ := forall_mem_cons.mp h
    have hother : ∀ e ∈ edges, Function.update r a (g (r a)) e = r e := by
      intro e he
      exact Function.update_of_ne (by rintro rfl; exact ha he) _ _
    rw [foldlM_cons, hfirst r rfl, Option.bind_eq_bind, Option.bind_some, ih hnodup]
    · refine congrArg some (funext fun e => ?_)
      by_cases he : e ∈ edges
      · rw [if_pos he, if_pos (mem_cons_of_mem a he), hother e he]
      · rw [if_neg he]
        by_cases hea : e = a
        · rw [hea, Function.update_self, if_pos mem_cons_self]
        · rw [Function.update_of_ne hea, if_neg fun hmem => (mem_cons.mp hmem).elim hea he]
    · intro e he r' hr'
      rw [hother e he] at hr' ⊢
      exact hrest e he r' hr'

theorem anyM_bucket {p : α → Bool} (h : ∀ e ∈ edges, e < signalMapSize) :
    edges.anyM (fun e => (bucket v e).map p) = some (edges.any fun e => p (v e)) := by
  induction edges with
  | nil => rfl
  | cons e edges ih =>
    obtain ⟨he, hrest⟩ := forall_mem_cons.mp h
    rw [anyM, bucket_of_lt he, Option.map_some, any_cons]
    cases p (v e) with
    | true => rfl
    | false => exact ih hrest

end

/-! ## Hits -/

/-- The edges with a hit. -/
def covered (s : EdgeSignal) : Finset Nat := (Finset.range signalMapSize).filter fun e => s.map e ≠ 0#8

theorem mem_covered : e ∈ covered s ↔ e < signalMapSize ∧ s.map e ≠ 0#8 := by
  rw [covered, Finset.mem_filter, Finset.mem_range]

/-- A hit covers its edge, and is counted where the edge was not covered. -/
theorem hit_spec (he : e < signalMapSize) (htotal : s.totalEdges = (covered s).card) :
    ∃ s', s.hit e = some s' ∧ covered s' = insert e (covered s) ∧ s'.totalEdges = (covered s').card := by
  have hstep : ∀ v : U8, (if v < 255#8 then v + 1#8 else v) ≠ 0#8 ∧ ((if v < 255#8 then v + 1#8 else v) = 1#8 ↔ v = 0#8) := by
    decide +kernel
  obtain ⟨hne, hone⟩ := hstep (s.map e)
  rw [EdgeSignal.hit, bucket_of_lt he, Option.map_some]
  dsimp only
  generalize (if s.map e < 255#8 then s.map e + 1#8 else s.map e) = v at hne hone
  have hcovered : covered ⟨Function.update s.map e v, if v = 1#8 then s.totalEdges + 1 else s.totalEdges⟩ = insert e (covered s) := by
    ext e'
    rw [mem_covered, Finset.mem_insert, mem_covered]
    dsimp only
    by_cases heq : e' = e
    · rw [heq, Function.update_self]
      exact iff_of_true ⟨he, hne⟩ (.inl rfl)
    · rw [Function.update_of_ne heq, or_iff_right heq]
  refine ⟨_, rfl, hcovered, ?_⟩
  rw [hcovered]
  by_cases hzero : s.map e = 0#8
  · have hnotin : e ∉ covered s := fun hmem => (mem_covered.mp hmem).2 hzero
    rw [if_pos (hone.mpr hzero), Finset.card_insert_of_notMem hnotin, htotal]
  · have hin : e ∈ covered s := mem_covered.mpr ⟨he, hzero⟩
    rw [if_neg (mt hone.mp hzero), Finset.insert_eq_of_mem hin, htotal]

/-- Hits of all edges of a program. -/
theorem hits_spec (h : ∀ e ∈ edges, e < signalMapSize)
    (htotal : s.totalEdges = (covered s).card) :
    ∃ s', edges.foldlM EdgeSignal.hit s = some s' ∧ (∀ e, e ∈ covered s' ↔ e ∈ covered s ∨ e ∈ edges) ∧
      s'.totalEdges = (covered s').card := by
  induction edges generalizing s with
  | nil => exact ⟨s, rfl, fun e => (or_iff_left not_mem_nil).symm, htotal⟩
  | cons a edges ih =>
    obtain ⟨ha, hrest⟩ := forall_mem_cons.mp h
    obtain ⟨s₁, hhit, hcovered₁, htotal₁⟩ := hit_spec ha htotal
    obtain ⟨s₂, hhits, hcovered₂, htotal₂⟩ := ih hrest htotal₁
    refine ⟨s₂, ?_, fun e => ?_, htotal₂⟩
    · rw [foldlM_cons, hhit]
      exact hhits
    · rw [hcovered₂, hcovered₁, Finset.mem_insert, mem_cons, or_assoc, or_left_comm]

/-! ## Entries -/

/-- The edges with a hit are those of the entries, and they are counted. -/
structure Sound (c : SignalCorpus) : Prop where
  edges : ∀ x ∈ c.entries, Edges x.edges
  covered : ∀ e, e ∈ covered c.maxSignal ↔ ∃ x ∈ c.entries, e ∈ x.edges
  total : c.maxSignal.totalEdges = (SignalEdge.covered c.maxSignal).card

theorem sound_new : Sound SignalCorpus.new where
  edges := nofun
  covered e := iff_of_false (fun h => (mem_covered.mp h).2 rfl) (by rintro ⟨_, h, _⟩; exact not_mem_nil h)
  total := by
    have hempty : covered SignalCorpus.new.maxSignal = ∅ := Finset.filter_eq_empty_iff.mpr fun e _ h => h rfl
    rw [hempty]
    rfl

/-- A program is added with its edges, or has none that is new. -/
theorem add_sound (hc : Sound c) (progId : Int) (hedges : Edges edges) :
    ∃ accepted c', c.add progId edges = some (accepted, c') ∧ Sound c' ∧
      c'.entries.length = c.entries.length + (if accepted then 1 else 0) ∧ covered c.maxSignal ⊆ covered c'.maxSignal := by
  have hcount : c.newCount edges = some (edges.countP fun e => decide (c.maxSignal.map e = 0#8)) := by
    rw [SignalCorpus.newCount, foldlM_count hedges.2, Nat.zero_add]
  rw [SignalCorpus.add, hcount, Option.bind_eq_bind, Option.bind_some]
  split
  next => exact ⟨false, c, rfl, hc, rfl, Finset.Subset.refl _⟩
  next =>
    obtain ⟨s, hhits, hcovered, htotal⟩ := hits_spec hedges.2 hc.total
    rw [hhits]
    refine ⟨true, _, rfl, ⟨?_, fun e => ?_, htotal⟩, ?_, fun e he => (hcovered e).mpr (.inl he)⟩
    · exact forall_mem_append.mpr ⟨hc.edges, fun x hx => by rw [mem_singleton.mp hx]; exact hedges⟩
    · dsimp only
      rw [hcovered, hc.covered]
      simp
    · rw [length_append]
      rfl

/-! ## References -/

/-- The counts are the numbers of the entries that have the edges. -/
def Counted (r : Counts) (entries : List SignalCorpusEntry) : Prop :=
  ∀ e, (r e).toNat = degree SignalCorpusEntry.edges entries e

theorem refer_edges (hedges : Edges edges) (hroom : ∀ e ∈ edges, (r e).toNat < 65535) :
    edges.foldlM Counts.refer r = some fun e => if e ∈ edges then r e + 1#16 else r e := by
  refine foldlM_update (g := fun n => n + 1#16) hedges.1 fun e he r' hr' => ?_
  have hlt : r e < 0xffff#16 := BitVec.lt_def.mpr (hroom e he)
  rw [Counts.refer, bucket_of_lt (hedges.2 e he), Option.map_some, hr', if_pos hlt]

theorem release_edges (hedges : Edges edges) (hpos : ∀ e ∈ edges, 0 < (r e).toNat) :
    edges.foldlM Counts.release r = some fun e => if e ∈ edges then r e - 1#16 else r e := by
  refine foldlM_update (g := fun n => n - 1#16) hedges.1 fun e he r' hr' => ?_
  have hne : r e ≠ 0#16 := fun h => absurd (hpos e he) (by rw [h]; decide)
  rw [Counts.release, bucket_of_lt (hedges.2 e he), Option.bind_some, hr', if_neg hne]

/-- The references of one entry more. -/
theorem refer_counted (hx : Edges x.edges)
    (hr : Counted r entries) (hlen : entries.length < 65535) :
    ∃ r', x.edges.foldlM Counts.refer r = some r' ∧ Counted r' (x :: entries) := by
  have hroom : ∀ e, (r e).toNat < 65535 := fun e => by
    have hle := degree_le_length (S := SignalCorpusEntry.edges) entries e
    rw [hr e]
    omega
  refine ⟨_, refer_edges hx fun e _ => hroom e, fun e => ?_⟩
  rw [degree_cons, ← hr e]
  have := hroom e
  split
  next => 
    exact Nat.mod_eq_of_lt (by simp only [BitVec.toNat_ofNat]; omega)
  next => rfl

/-- The references of one entry less. -/
theorem release_counted (hx : Edges x.edges)
    (hr : Counted r (x :: entries)) : ∃ r', x.edges.foldlM Counts.release r = some r' ∧ Counted r' entries := by
  have hpos : ∀ e ∈ x.edges, 0 < (r e).toNat := fun e he => by
    rw [hr e, degree_cons, if_pos he]
    exact Nat.succ_pos _
  refine ⟨_, release_edges hx hpos, fun e => ?_⟩
  have hre := hr e
  rw [degree_cons] at hre
  by_cases he : e ∈ x.edges
  · have hone : 1#16 ≤ r e := BitVec.le_def.mpr (hpos e he)
    rw [if_pos he] at hre
    rw [if_pos he, BitVec.toNat_sub_of_le hone, hre]
    rfl
  · rw [if_neg he] at hre
    rw [if_neg he, hre]
    rfl

theorem countAll_counted (hedges : ∀ x ∈ entries, Edges x.edges)
    (hlen : entries.length ≤ 65535) : ∃ r, countAll entries = some r ∧ Counted r entries := by
  suffices hall : ∀ done r, Counted r done → done.length + entries.length ≤ 65535 →
      ∃ r', entries.foldlM (fun r x => x.edges.foldlM Counts.refer r) r = some r' ∧ Counted r' (entries.reverse ++ done) by
    obtain ⟨r, hr, hcounted⟩ := hall [] (fun _ => 0#16) (fun e => rfl) (by rw [length_nil]; omega)
    refine ⟨r, hr, fun e => ?_⟩
    rw [hcounted e, append_nil, degree_perm entries.reverse_perm]
  clear hlen
  induction entries with
  | nil => exact fun done r hr _ => ⟨r, rfl, hr⟩
  | cons x entries ih =>
    intro done r hr hlen
    obtain ⟨hx, hrest⟩ := forall_mem_cons.mp hedges
    rw [length_cons] at hlen
    obtain ⟨r₁, hfirst, hr₁⟩ := refer_counted hx hr (by omega)
    obtain ⟨r₂, hothers, hr₂⟩ := ih hrest (x :: done) r₁ hr₁ (by rw [length_cons]; omega)
    refine ⟨r₂, ?_, ?_⟩
    · rw [foldlM_cons, hfirst]
      exact hothers
    · rwa [reverse_cons, append_assoc]

/-! ## Minimizing -/

/-- The state of the loop of `minimize` at a place: references are counted, and each entry before the place has an
edge of its own. -/
structure Swept (i : Nat) (entries : List SignalCorpusEntry) (r : Counts) : Prop where
  edges : ∀ x ∈ entries, Edges x.edges
  counted : Counted r entries
  own : ∀ j < i, ∃ e, Lone SignalCorpusEntry.edges entries j e

section

variable {i : Nat} {entries : List SignalCorpusEntry} {r : Counts} {x : SignalCorpusEntry}

/-- The edges that are referred to once. -/
theorem Swept.eq_one_iff (h : Swept i entries r) (e : Nat) : r e = 1#16 ↔ degree SignalCorpusEntry.edges entries e = 1 := by
  rw [← h.counted e, ← BitVec.toNat_inj]
  rfl

/-- An entry with an edge of its own is passed. -/
theorem Swept.pass (h : Swept i entries r) (hi : entries[i]? = some x) (hown : x.edges.any fun e => decide (r e = 1#16)) :
    Swept (i + 1) entries r := by
  refine ⟨h.edges, h.counted, fun j hj => ?_⟩
  rcases Nat.lt_succ_iff_lt_or_eq.mp hj with hlt | rfl
  · exact h.own j hlt
  · obtain ⟨e, he, hone⟩ := any_eq_true.mp hown
    exact ⟨e, (lone_iff hi).mpr ⟨he, (h.eq_one_iff e).mp (of_decide_eq_true hone)⟩⟩

/-- An entry without one is removed, and no edge is lost. -/
theorem Swept.remove (h : Swept i entries r) (hi : entries[i]? = some x)
    (hown : ¬ x.edges.any fun e => decide (r e = 1#16)) :
    ∃ r', x.edges.foldlM Counts.release r = some r' ∧ Swept i (swapRemove entries i) r' ∧
      ∀ e, (∃ y ∈ swapRemove entries i, e ∈ y.edges) ↔ ∃ y ∈ entries, e ∈ y.edges := by
  obtain ⟨hlt, _⟩ := List.getElem?_eq_some_iff.mp hi
  have hperm := perm_swapRemove hi
  have hdegree : ∀ e, degree SignalCorpusEntry.edges entries e =
      degree SignalCorpusEntry.edges (swapRemove entries i) e + if e ∈ x.edges then 1 else 0 := fun e => by
    rw [degree_perm hperm, degree_cons]
  have hnot : ∀ e ∈ x.edges, degree SignalCorpusEntry.edges entries e ≠ 1 := fun e he hone =>
    hown (any_eq_true.mpr ⟨e, he, decide_eq_true ((h.eq_one_iff e).mpr hone)⟩)
  have hcounted : Counted r (x :: swapRemove entries i) := fun e => by rw [h.counted e, degree_perm hperm]
  obtain ⟨r', hrelease, hr'⟩ := release_counted (h.edges x (mem_of_getElem? hi)) hcounted
  refine ⟨r', hrelease, ⟨fun y hy => ?_, hr', fun j hj => ?_⟩, fun e => ?_⟩
  · exact h.edges y (hperm.mem_iff.mpr (mem_cons_of_mem x hy))
  · -- the edge of an entry in front is not one of the removed entry
    obtain ⟨e, he⟩ := h.own j hj
    obtain ⟨⟨y, hy, hmem⟩, hothers⟩ := he
    have hone := ((lone_iff hy).mp ⟨⟨y, hy, hmem⟩, hothers⟩).2
    have hy' : (swapRemove entries i)[j]? = some y := by rw [getElem?_swapRemove hlt hj, hy]
    refine ⟨e, (lone_iff hy').mpr ⟨hmem, ?_⟩⟩
    rw [hdegree e, if_neg (hothers i x (by omega) hi)] at hone
    exact hone
  · rw [← degree_pos_iff, ← degree_pos_iff, hdegree e]
    by_cases he : e ∈ x.edges
    · have hne := hnot e he
      rw [hdegree e, if_pos he] at hne
      omega
    · rw [if_neg he, Nat.add_zero]

/-- The loop ends with entries that all have an edge of their own, and with the edges there were. -/
theorem sweep_spec (h : Swept i entries r) {fuel : Nat} (hfuel : entries.length - i < fuel) (removed : Nat) :
    ∃ entries' r' removed', sweep fuel i entries r removed = some (entries', r', removed') ∧
      Swept entries'.length entries' r' ∧ (∀ e, (∃ y ∈ entries', e ∈ y.edges) ↔ ∃ y ∈ entries, e ∈ y.edges) ∧
      removed' + entries'.length = removed + entries.length := by
  induction fuel generalizing i entries r removed with
  | zero => omega
  | succ fuel ih =>
    rw [sweep]
    cases hi : entries[i]? with
    | none =>
      have hle := getElem?_eq_none_iff.mp hi
      exact ⟨entries, r, removed, rfl, ⟨h.edges, h.counted, fun j hj => h.own j (by omega)⟩, fun e => Iff.rfl, rfl⟩
    | some x =>
      obtain ⟨hlt, _⟩ := List.getElem?_eq_some_iff.mp hi
      have hany := anyM_bucket (v := r) (p := fun n => decide (n = 1#16)) (h.edges x (mem_of_getElem? hi)).2
      dsimp only
      rw [hany, Option.bind_eq_bind, Option.bind_some]
      split
      next hown => exact ih (h.pass hi hown) (by omega) removed
      next hown =>
        obtain ⟨r₁, hrelease, hswept, hunion⟩ := h.remove hi hown
        have hlen := length_swapRemove hlt
        obtain ⟨entries', r', removed', hsweep, hfinal, hunion', hcount⟩ := ih hswept (by omega) (removed + 1)
        refine ⟨entries', r', removed', ?_, hfinal, fun e => (hunion' e).trans (hunion e), by omega⟩
        rw [hrelease]
        exact hsweep

end

/-- Each entry has an edge of its own, and their numbers are known. -/
structure Minimal (c : SignalCorpus) : Prop where
  own : ∀ i < c.entries.length, ∃ e, Lone SignalCorpusEntry.edges c.entries i e
  unique : ∀ i x, c.entries[i]? = some x → x.uniqueEdges = Set.ncard {e | Lone SignalCorpusEntry.edges c.entries i e}

/-- The number of the edges of its own of an entry. -/
theorem countP_eq_ncard (hswept : Swept entries.length entries r) {i : Nat} (hi : entries[i]? = some x) :
    x.edges.countP (fun e => decide (r e = 1#16)) = Set.ncard {e | Lone SignalCorpusEntry.edges entries i e} := by
  have hset : {e | Lone SignalCorpusEntry.edges entries i e} = ↑(x.edges.filter fun e => decide (r e = 1#16)).toFinset := by
    ext e
    rw [Set.mem_ofPred_eq, lone_iff hi, Finset.mem_coe, mem_toFinset, mem_filter, decide_eq_true_eq, hswept.eq_one_iff]
  have hnodup := (hswept.edges x (mem_of_getElem? hi)).1.filter fun e => decide (r e = 1#16)
  rw [hset, Set.ncard_coe_finset, toFinset_card_of_nodup hnodup, countP_eq_length_filter]

/-- The entry with the number of its edges that are referred to once. -/
def withUnique (r : Counts) (x : SignalCorpusEntry) : SignalCorpusEntry :=
  { x with uniqueEdges := x.edges.countP fun e => decide (r e = 1#16) }

theorem lone_withUnique (r : Counts) (entries : List SignalCorpusEntry) (i e : Nat) :
    Lone SignalCorpusEntry.edges (entries.map (withUnique r)) i e ↔ Lone SignalCorpusEntry.edges entries i e :=
  lone_map (f := withUnique r) fun _ => rfl

theorem mapM_countUnique (hedges : ∀ x ∈ entries, Edges x.edges) :
    entries.mapM (countUnique r) = some (entries.map (withUnique r)) := by
  induction entries with
  | nil => rfl
  | cons x entries ih =>
    obtain ⟨hx, hrest⟩ := forall_mem_cons.mp hedges
    rw [mapM_cons, countUnique, foldlM_count hx.2, Nat.zero_add, ih hrest]
    rfl

theorem minimize_sound (hc : Sound c) (hlen : c.entries.length ≤ 65535) :
    ∃ removed c', c.minimize = some (removed, c') ∧ Sound c' ∧ c'.entries.length ≤ c.entries.length ∧
      (2 ≤ c'.entries.length → Minimal c') ∧ c'.maxSignal = c.maxSignal := by
  rw [SignalCorpus.minimize]
  split
  next hfew => exact ⟨0, c, rfl, hc, Nat.le_refl _, fun hmany => by omega, rfl⟩
  next =>
    obtain ⟨r, hcount, hcounted⟩ := countAll_counted hc.edges hlen
    have hstart : Swept 0 c.entries r := ⟨hc.edges, hcounted, nofun⟩
    obtain ⟨entries, r', removed, hsweep, hswept, hunion, hremoved⟩ :=
      sweep_spec hstart (show c.entries.length - 0 < c.entries.length + 1 by omega) 0
    rw [hcount, Option.bind_eq_bind, Option.bind_some, hsweep, Option.bind_eq_bind, Option.bind_some]
    dsimp only
    rw [mapM_countUnique hswept.edges]
    refine ⟨removed, _, rfl, ⟨fun y hy => ?_, fun e => ?_, hc.total⟩, ?_, fun _ => ⟨fun i hi => ?_, fun i y hy => ?_⟩, rfl⟩
    · obtain ⟨x, hx, rfl⟩ := mem_map.mp hy
      exact hswept.edges x hx
    · rw [hc.covered, ← hunion]
      simp only [mem_map, exists_exists_and_eq_and]
      exact Iff.rfl
    · rw [length_map]
      omega
    · rw [length_map] at hi
      obtain ⟨e, he⟩ := hswept.own i hi
      exact ⟨e, (lone_withUnique r' entries i e).mpr he⟩
    · rw [getElem?_map] at hy
      obtain ⟨x, hx, rfl⟩ := Option.map_eq_some_iff.mp hy
      simp only [lone_withUnique]
      exact countP_eq_ncard hswept hx

/-! ## Runs -/

/-- A call. -/
inductive Call where
  | add (progId : Int) (edges : List Nat)
  | minimize

/-- What a call does: whether a program was accepted, and the corpus behind it. -/
def Call.run (c : SignalCorpus) : Call → Option (Bool × SignalCorpus)
  | .add progId edges => c.add progId edges
  | .minimize => c.minimize.map fun p => (false, p.2)

/-- Calls one after the other: the number of the accepted programs, and the corpus in the end. -/
def runCalls (c : SignalCorpus) : List Call → Option (Nat × SignalCorpus)
  | [] => some (0, c)
  | call :: calls => do
    let (accepted, c) ← call.run c
    let (n, c) ← runCalls c calls
    some (n + if accepted then 1 else 0, c)

theorem run_sound (hc : Sound c) (hlen : c.entries.length ≤ 65535) {call : Call}
    (hcall : ∀ progId edges, call = .add progId edges → Edges edges) :
    ∃ accepted c', call.run c = some (accepted, c') ∧ Sound c' ∧
      c'.entries.length ≤ c.entries.length + (if accepted then 1 else 0) ∧
      (call = .minimize → 2 ≤ c'.entries.length → Minimal c') ∧ covered c.maxSignal ⊆ covered c'.maxSignal := by
  cases call with
  | add progId edges =>
    obtain ⟨accepted, c', hadd, hsound, hcount, hkeeps⟩ := add_sound hc progId (hcall progId edges rfl)
    exact ⟨accepted, c', hadd, hsound, hcount.le, nofun, hkeeps⟩
  | minimize =>
    obtain ⟨removed, c', hmin, hsound, hcount, hminimal, hsignal⟩ := minimize_sound hc hlen
    exact ⟨false, c', by rw [Call.run, hmin, Option.map_some], hsound, hcount, fun _ => hminimal, by rw [hsignal]⟩

/-- What the calls of a run keep, with room for the programs that are accepted. -/
theorem runCalls_sound (hcalls : ∀ progId edges, .add progId edges ∈ calls → Edges edges)
    (hc : Sound c) {k : Nat} (hlen : c.entries.length ≤ k)
    (hroom : ∀ pre n c', pre <+: calls → runCalls c pre = some (n, c') → k + n ≤ 65535) :
    ∃ n c', runCalls c calls = some (n, c') ∧ Sound c' ∧
      (∀ pre m c₁, pre <+: calls → runCalls c pre = some (m, c₁) → covered c₁.maxSignal ⊆ covered c'.maxSignal) ∧
      (calls.getLast? = some .minimize → 2 ≤ c'.entries.length → Minimal c') := by
  induction calls generalizing c k with
  | nil =>
    refine ⟨0, c, rfl, hc, fun pre m c₁ hpre hrun => ?_, nofun⟩
    obtain rfl := List.prefix_nil.mp hpre
    cases hrun
    exact Finset.Subset.refl _
  | cons call calls ih =>
    have hk := hroom [] 0 c (List.nil_prefix) rfl
    obtain ⟨accepted, c₁, hrun, hc₁, hlen₁, hminimal₁, hkeeps₁⟩ := run_sound hc (by omega) fun progId edges heq =>
      hcalls progId edges (heq ▸ mem_cons_self)
    have hstep : ∀ pre n c', runCalls c₁ pre = some (n, c') →
        runCalls c (call :: pre) = some (n + (if accepted then 1 else 0), c') := fun pre n c' h => by
      rw [runCalls, hrun, Option.bind_eq_bind, Option.bind_some]
      dsimp only
      rw [h]
      rfl
    have hroom₁ : ∀ pre n c', pre <+: calls → runCalls c₁ pre = some (n, c') → k + (if accepted then 1 else 0) + n ≤ 65535 := by
      intro pre n c' hpre h
      have := hroom (call :: pre) _ c' (prefix_cons_inj call |>.mpr hpre) (hstep pre n c' h)
      omega
    obtain ⟨n, c₂, hrest, hc₂, hkeeps₂, hminimal₂⟩ :=
      ih (fun progId edges h => hcalls progId edges (mem_cons_of_mem _ h)) hc₁ (by omega) hroom₁
    refine ⟨_, c₂, hstep calls n c₂ hrest, hc₂, fun pre m c' hpre h => ?_, fun hlast => ?_⟩
    · cases pre with
      | nil =>
        cases h
        exact hkeeps₁.trans (hkeeps₂ [] 0 c₁ List.nil_prefix rfl)
      | cons first pre =>
        obtain ⟨rfl, hrest'⟩ := cons_prefix_cons.mp hpre
        rw [runCalls, hrun, Option.bind_eq_bind, Option.bind_some] at h
        obtain ⟨⟨m', c''⟩, h', h⟩ := Option.bind_eq_some_iff.mp h
        cases h
        exact hkeeps₂ pre m' c' hrest' h'
    · cases calls with
      | nil =>
        cases hrest
        exact hminimal₁ (Option.some.inj hlast)
      | cons next calls => exact hminimal₂ (by rwa [getLast?_cons_cons] at hlast)

/-- Through all calls the edges with a hit are those of the entries, and they are counted; no reference count goes
below 0, and no edge that was covered behind some of the calls is lost by those behind them. Behind `minimize` each of two or more entries has an edge of its own, and their numbers are right. -/
theorem corpus_keeps_coverage {calls : List Call} (hcalls : ∀ progId edges, .add progId edges ∈ calls → Edges edges)
    (haccepted : ∀ pre n c, pre <+: calls → runCalls SignalCorpus.new pre = some (n, c) → n ≤ 65535) :
    ∃ n c, runCalls SignalCorpus.new calls = some (n, c) ∧ Sound c ∧
      (∀ pre m c₁, pre <+: calls → runCalls SignalCorpus.new pre = some (m, c₁) →
        covered c₁.maxSignal ⊆ covered c.maxSignal) ∧
      (calls.getLast? = some .minimize → 2 ≤ c.entries.length → Minimal c) := by
  refine runCalls_sound hcalls sound_new (Nat.le_refl 0) fun pre n c hpre hrun => ?_
  rw [Nat.zero_add]
  exact haccepted pre n c hpre hrun

/-- No more programs are accepted than there are calls. -/
theorem runCalls_le {c' : SignalCorpus} {n : Nat} (h : runCalls c calls = some (n, c')) :
    n ≤ calls.length := by
  induction calls generalizing c n with
  | nil =>
    cases h
    exact Nat.le_refl 0
  | cons call calls ih =>
    obtain ⟨⟨accepted, c₁⟩, _, h⟩ := Option.bind_eq_some_iff.mp h
    obtain ⟨⟨m, c₂⟩, hrest, h⟩ := Option.bind_eq_some_iff.mp h
    obtain ⟨rfl, rfl⟩ := Prod.mk.inj (Option.some.inj h)
    have hle := ih hrest
    rw [length_cons]
    split <;> omega

/-- Three programs of which the first one is not needed. -/
def threePrograms : List Call := [.add 1 [10, 20], .add 2 [10, 30], .add 3 [20, 40], .minimize]

theorem corpus_keeps_coverage_three :
    ∃ n c, runCalls SignalCorpus.new threePrograms = some (n, c) ∧ Sound c ∧
      (∀ pre m c₁, pre <+: threePrograms → runCalls SignalCorpus.new pre = some (m, c₁) →
        covered c₁.maxSignal ⊆ covered c.maxSignal) ∧
      (threePrograms.getLast? = some .minimize → 2 ≤ c.entries.length → Minimal c) := by
  refine corpus_keeps_coverage (fun progId edges hmem => ?_) fun pre n c hpre hrun => ?_
  · simp only [threePrograms, mem_cons, reduceCtorEq, not_mem_nil, or_false] at hmem
    rcases hmem with ⟨_, rfl⟩ | ⟨_, rfl⟩ | ⟨_, rfl⟩
    · exact ⟨by decide, by decide⟩
    · exact ⟨by decide, by decide⟩
    · exact ⟨by decide, by decide⟩
  · have hle := (runCalls_le hrun).trans hpre.length_le
    exact hle.trans (by decide)

end Vock.Fuzz.SignalEdge
