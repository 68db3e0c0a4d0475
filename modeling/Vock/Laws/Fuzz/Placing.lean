import Vock.Laws.Fuzz.Write

/-!
# Placing a program's objects

`note_fixed` walks every argument tree twice. Either walk sees a tree only as the list of its
pointers, in order, each with its address, the bytes it takes and whether it has a pointee
(`Site`); the passes are folds over that list (`note_eq`, `assign_eq`). On the list, what is marked
stays marked and what is placed later is free of it (`assignSites_apart`).

Placing leaves no pointer without an address, puts the objects it places in free room, and done again
changes nothing (`noteFixed_places`). Free is what the first pass has not marked, and it marks the
objects of pointers with a pointee only; an object without one may be placed over (`auto_on_bare`).
-/

namespace Vock.Fuzz

open Library List

/-! ## Sites -/

/-- A pointer as the passes see it. -/
structure Site where
  addr : U64
  size : Nat
  filled : Bool
  deriving Repr, DecidableEq

variable {w : Nat} {t : Site} {a b : Arena} {fs : List Arg} {prog : Prog} {α β : Type*}

/-- The site of a pointer: the bytes of its pointee, one granule where it has none. -/
def Arg.site? (w : Nat) : Arg → Option Site
  | .ptr addr (some inner) => some ⟨addr, max (encodedLen inner w) 1, true⟩
  | .ptr addr none => some ⟨addr, granule, false⟩
  | _ => none

/-- The sites of the trees, in order. -/
def sitesOf (w : Nat) (args : List Arg) : List Site := (args.flatMap Arg.nodes).filterMap (Arg.site? w)

/-- The sites of a program, in order. -/
def Prog.sites (w : Nat) (prog : Prog) : List Site := prog.calls.flatMap fun c => sitesOf w c.args

theorem sitesOf_cons (w : Nat) (f : Arg) (fs : List Arg) : sitesOf w (f :: fs) = sitesOf w [f] ++ sitesOf w fs := by
  simp [sitesOf]

private theorem sitesOf_node {a : Arg} (as : List Arg) (h : a.nodes = a :: as.flatMap Arg.nodes) :
    sitesOf w [a] = (a.site? w).toList ++ sitesOf w as := by
  simp only [sitesOf, flatMap_cons, flatMap_nil, append_nil, h]
  cases hs : a.site? w with
  | none => rw [filterMap_cons_none hs, Option.toList_none, nil_append]
  | some t => rw [filterMap_cons_some hs, Option.toList_some, singleton_append]

theorem sitesOf_ptr (w : Nat) (addr : U64) (inner : Arg) :
    sitesOf w [.ptr addr (some inner)] = ⟨addr, max (encodedLen inner w) 1, true⟩ :: sitesOf w [inner] :=
  sitesOf_node [inner] (by simp [Arg.nodes])

theorem sitesOf_struct (w : Nat) (fs : List Arg) : sitesOf w [.struct fs] = sitesOf w fs :=
  sitesOf_node fs (by simp [Arg.nodes, Arg.nodesAll_eq])

theorem sitesOf_array (w : Nat) (fs : List Arg) : sitesOf w [.array fs] = sitesOf w fs :=
  sitesOf_node fs (by simp [Arg.nodes, Arg.nodesAll_eq])

theorem sitesOf_union (w : Nat) (inner : Arg) : sitesOf w [.union inner] = sitesOf w [inner] :=
  sitesOf_node [inner] (by simp [Arg.nodes])

theorem sitesOf_out (w : Nat) (slot : U64) (inner : Arg) : sitesOf w [.out slot inner] = sitesOf w [inner] :=
  sitesOf_node [inner] (by simp [Arg.nodes])

/-! ## Pass 1 -/

/-- Pass 1 at one site. -/
def noteSite (s : Placing) (t : Site) : Placing :=
  if t.filled then ⟨s.arena.noteAlloc t.addr t.size, s.addrs ++ [t.addr]⟩ else s

mutual

/-- Pass 1 goes from site to site. -/
theorem note_eq (w : Nat) : ∀ (a : Arg) (s : Placing), note w a s = (sitesOf w [a]).foldl noteSite s
  | .ptr _ (some inner), s => by rw [note, note_eq w inner]; rfl
  | .struct fs, s => by rw [note, noteAll_eq w fs, sitesOf_struct]
  | .array fs, s => by rw [note, noteAll_eq w fs, sitesOf_array]
  | .union inner, s => by rw [note, note_eq w inner, sitesOf_union]
  | .out _ inner, s => by rw [note, note_eq w inner, sitesOf_out]
  | .int _, _ | .res .., _ | .ptr _ none, _ | .data _, _ | .csum, _ | .nil, _ => rfl

theorem noteAll_eq (w : Nat) : ∀ (fs : List Arg) (s : Placing), noteAll w fs s = (sitesOf w fs).foldl noteSite s
  | [], _ => rfl
  | f :: fs, s => by rw [noteAll, note_eq w f, noteAll_eq w fs, sitesOf_cons w f fs, foldl_append]

end

/-! ## Pass 2 -/

/-- Pass 2 over the sites. -/
def assignSites : List Site → Placing → List Site × Placing
  | [], s => ([], s)
  | t :: ts, s =>
    let r := assignAddr t.addr t.size t.filled s
    (assignSites ts r.2).map ({ t with addr := r.1 } :: ·) id

theorem assignSites_append (ts us : List Site) (s : Placing) :
    assignSites (ts ++ us) s =
      ((assignSites ts s).1 ++ (assignSites us (assignSites ts s).2).1,
        (assignSites us (assignSites ts s).2).2) := by
  induction ts generalizing s with
  | nil => rfl
  | cons t ts ih => simp [assignSites, ih]

mutual

/-- Addresses take no part in lengths. -/
theorem encodedLen_assign (w : Nat) : ∀ (a : Arg) (s : Placing) (w' : Nat), encodedLen (assign w a s).1 w' = encodedLen a w'
  | .struct fs, s, w' | .array fs, s, w' => by simp [assign, encodedLen, encodedLenAll_assign w fs]
  | .union inner, s, w' => by simp [assign, encodedLen, encodedLen_assign w inner]
  | .ptr _ (some _), _, _ | .ptr _ none, _, _ | .out .., _, _ => by simp [assign, encodedLen]
  | .int _, _, _ | .res .., _, _ | .data _, _, _ | .csum, _, _ | .nil, _, _ => rfl

theorem encodedLenAll_assign (w : Nat) : ∀ (fs : List Arg) (s : Placing) (w' : Nat),
    encodedLenAll (assignAll w fs s).1 w' = encodedLenAll fs w'
  | [], _, _ => rfl
  | f :: fs, s, w' => by simp [assignAll, encodedLenAll, encodedLen_assign w f, encodedLenAll_assign w fs]

end

mutual

/-- Pass 2 goes from site to site, and leaves a tree whose sites are the assigned ones. -/
theorem assign_eq (w : Nat) : ∀ (a : Arg) (s : Placing),
    (assign w a s).map (fun a => sitesOf w [a]) id = assignSites (sitesOf w [a]) s
  | .ptr addr (some inner), s => by
    rw [sitesOf_ptr, assignSites, ← assign_eq w inner]
    simp [assign, Prod.map, sitesOf_ptr, encodedLen_assign]
  | .struct fs, s => by
    rw [sitesOf_struct, ← assignAll_eq w fs]
    simp only [assign, Prod.map, id, sitesOf_struct]
  | .array fs, s => by
    rw [sitesOf_array, ← assignAll_eq w fs]
    simp only [assign, Prod.map, id, sitesOf_array]
  | .union inner, s => by
    rw [sitesOf_union, ← assign_eq w inner]
    simp only [assign, Prod.map, id, sitesOf_union]
  | .out slot inner, s => by
    rw [sitesOf_out, ← assign_eq w inner]
    simp only [assign, Prod.map, id, sitesOf_out]
  | .ptr _ none, _ | .int _, _ | .res .., _ | .data _, _ | .csum, _ | .nil, _ => rfl

theorem assignAll_eq (w : Nat) : ∀ (fs : List Arg) (s : Placing),
    (assignAll w fs s).map (sitesOf w) id = assignSites (sitesOf w fs) s
  | [], _ => rfl
  | f :: fs, s => by
    rw [sitesOf_cons, assignSites_append, ← assign_eq w f, ← assignAll_eq w fs]
    simp only [assignAll, Prod.map, id]
    rw [sitesOf_cons]

end

theorem assignCalls_eq (w : Nat) (cs : List Call) (s : Placing) :
    (assignCalls w cs s).map (fun cs => cs.flatMap fun c => sitesOf w c.args) id =
      assignSites (cs.flatMap fun c => sitesOf w c.args) s := by
  induction cs generalizing s with
  | nil => rfl
  | cons c cs ih =>
    rw [flatMap_cons, assignSites_append, ← assignAll_eq, ← ih]
    simp [assignCalls, Prod.map]

/-! ## Both passes -/

/-- What pass 1 leaves. -/
def noted (w : Nat) (a : Arena) (prog : Prog) : Placing := (prog.sites w).foldl noteSite ⟨a, []⟩

/-- `note_fixed` on sites. -/
theorem noteFixed_eq (w : Nat) (a : Arena) (prog : Prog) :
    let r := assignSites (prog.sites w) (noted w a prog)
    (noteFixed w a prog).2.sites w = r.1 ∧ (noteFixed w a prog).1 = r.2.arena.setFixed r.2.addrs := by
  have hnoted : prog.calls.foldl (fun s c => noteAll w c.args s) ⟨a, []⟩ = noted w a prog := by
    simp only [noteAll_eq, noted, Prog.sites, foldl_flatMap]
  have hassign := assignCalls_eq w prog.calls (noted w a prog)
  intro r
  have hr : r = (assignCalls w prog.calls (noted w a prog)).map
      (fun cs => cs.flatMap fun c => sitesOf w c.args) id := hassign.symm
  rw [hr]
  simp [noteFixed, hnoted, Prog.sites]

/-! ## Room -/

namespace Site

/-- The object is inside the arena. -/
def Fits (t : Site) : Prop := t.addr.toNat + t.size ≤ arenaSize

/-- The two take no byte in common. -/
def Apart (t u : Site) : Prop :=
  t.addr.toNat + t.size ≤ u.addr.toNat ∨ u.addr.toNat + u.size ≤ t.addr.toNat

theorem Apart.symm {u : Site} (h : t.Apart u) : u.Apart t := Or.symm h

/-- Its granules are marked. -/
def Marked (a : Arena) (t : Site) : Prop :=
  ∀ g, Arena.Touches t.addr.toNat t.size g → a.used.test g = true

/-- What is placed in free room is apart from what is marked. -/
theorem apart_of_free {m : Site} {start : Nat} (ht : 1 ≤ t.size) (hfree : a.Free t.size start)
    (haddr : t.addr.toNat = start * granule) (hm : m.Marked a) (hsize : 1 ≤ m.size) : t.Apart m := by
  by_contra hover
  simp only [Apart] at hover
  -- the first byte they share is in a granule of either
  have hshared : ∃ i, t.addr.toNat ≤ i ∧ i < t.addr.toNat + t.size ∧ m.addr.toNat ≤ i ∧
      i < m.addr.toNat + m.size := ⟨max t.addr.toNat m.addr.toNat, by omega, by omega, by omega, by omega⟩
  obtain ⟨i, htlo, hthi, hmlo, hmhi⟩ := hshared
  have hbusy := hm _ (Arena.touches_of_byte hmlo hmhi rfl)
  have hrun := Arena.touches_of_byte htlo hthi rfl
  rw [haddr] at hrun
  obtain ⟨hlo, hhi⟩ := (Arena.touches_run_iff ht start _).mp hrun
  rw [hfree.2 _ hlo hhi] at hbusy
  cases hbusy

theorem marked_noteAlloc (h : t.Fits) : t.Marked (a.noteAlloc t.addr t.size) :=
  fun g hg => (a.test_noteAlloc t.addr t.size g).mpr (.inr ⟨h, hg⟩)

end Site

/-- Marks stay. -/
def Grows (a b : Arena) : Prop := ∀ g, a.used.test g = true → b.used.test g = true

theorem Site.Marked.grows (h : t.Marked a) (hab : Grows a b) : t.Marked b :=
  fun g hg => hab g (h g hg)

theorem grows_noteAlloc (a : Arena) (off : U64) (size : Nat) : Grows a (a.noteAlloc off size) :=
  fun g hg => (a.test_noteAlloc off size g).mpr (.inl hg)

theorem grows_noteSite (s : Placing) (t : Site) : Grows s.arena (noteSite s t).arena := by
  unfold noteSite
  split
  · exact grows_noteAlloc s.arena t.addr t.size
  · exact fun _ h => h

theorem grows_assignAddr (addr : U64) (size : Nat) (filled : Bool) (s : Placing) :
    Grows s.arena (assignAddr addr size filled s).2.arena := by
  unfold assignAddr
  split
  · rcases s.arena.alloc_cases size with ⟨start, -, -, -, hmark⟩ | ⟨-, heq⟩
    · show Grows s.arena (s.arena.alloc size).2
      rw [hmark]
      exact grows_noteAlloc s.arena _ size
    · show Grows s.arena (s.arena.alloc size).2
      rw [heq]
      exact fun _ h => h
  · exact fun _ h => h

/-- Pass 1 marks what fits and has a pointee. -/
theorem noted_marked (ts : List Site) (s : Placing) :
    Grows s.arena (ts.foldl noteSite s).arena ∧
      ∀ t ∈ ts, t.filled = true → t.Fits → t.Marked (ts.foldl noteSite s).arena := by
  induction ts generalizing s with
  | nil => exact ⟨fun _ h => h, nofun⟩
  | cons t ts ih =>
    obtain ⟨hgrows, hmarked⟩ := ih (noteSite s t)
    refine ⟨fun g hg => hgrows g (grows_noteSite s t g hg), fun u hu hfilled hfits => ?_⟩
    rcases mem_cons.mp hu with rfl | hu
    · have hnote : (noteSite s u).arena = s.arena.noteAlloc u.addr u.size := by
        rw [noteSite, if_pos hfilled]
      refine Site.Marked.grows ?_ hgrows
      rw [hnote]
      exact Site.marked_noteAlloc hfits
    · exact hmarked u hu hfilled hfits

theorem mem_noted_addrs (ts : List Site) (s : Placing) (f : U64) :
    f ∈ (ts.foldl noteSite s).addrs ↔ f ∈ s.addrs ∨ ∃ t ∈ ts, t.filled = true ∧ t.addr = f := by
  induction ts generalizing s with
  | nil => simp
  | cons t ts ih =>
    rw [foldl_cons, ih, noteSite]
    by_cases hfilled : t.filled = true
    · have hf : f = t.addr ↔ t.addr = f := eq_comm
      simp [hfilled, or_assoc, hf]
    · simp only [hfilled, mem_cons, exists_eq_or_imp, Bool.false_eq_true, if_false, false_and, false_or]

/-! ## What pass 2 assigns -/

theorem alloc_ne_autoAddr (a : Arena) (size : Nat) : (a.alloc size).1 ≠ autoAddr := by
  intro h
  rcases a.alloc_cases size with ⟨start, hfree, -, hoff, -⟩ | ⟨-, heq⟩
  · have hend := hfree.fits
    rw [h] at hoff
    have hauto : autoAddr.toNat = 2 ^ 64 - 1 := rfl
    rw [arenaSize_eq] at hend
    omega
  · have hzero : 0#64 = autoAddr := by rw [← h, heq]
    exact absurd hzero (by decide)

/-- An assigned address is never the sentinel, and a textual one stays. -/
theorem assignAddr_addr (addr : U64) (size : Nat) (filled : Bool) (s : Placing) :
    (assignAddr addr size filled s).1 ≠ autoAddr ∧
      (addr ≠ autoAddr → assignAddr addr size filled s = (addr, s)) := by
  unfold assignAddr
  split
  next h => exact ⟨alloc_ne_autoAddr s.arena size, fun hne => absurd h hne⟩
  next h => exact ⟨h, fun _ => rfl⟩

theorem length_assignSites (ts : List Site) (s : Placing) : (assignSites ts s).1.length = ts.length := by
  induction ts generalizing s with
  | nil => rfl
  | cons t ts ih => simp [assignSites, ih]

/-- Site by site. -/
theorem assignSites_zip (ts : List Site) (s : Placing) :
    ∀ p ∈ ts.zip (assignSites ts s).1, p.2.size = p.1.size ∧ p.2.filled = p.1.filled ∧
      p.2.addr ≠ autoAddr ∧ (p.1.addr ≠ autoAddr → p.2 = p.1) := by
  induction ts generalizing s with
  | nil => rintro p ⟨⟩
  | cons t ts ih =>
    intro p hp
    rcases mem_cons.mp hp with rfl | hp
    · obtain ⟨hne, hkeep⟩ := assignAddr_addr t.addr t.size t.filled s
      exact ⟨rfl, rfl, hne, fun h => by rw [hkeep h]⟩
    · exact ih _ p hp

/-- Every allocation of pass 2 finds a free run. -/
def AllocsFind : List Site → Placing → Prop
  | [], _ => True
  | t :: ts, s =>
    (t.addr = autoAddr → ∃ start, s.arena.Free t.size start) ∧
      AllocsFind ts (assignAddr t.addr t.size t.filled s).2

/-- A site placed where there is room fits, is apart from what is marked, and is marked then. -/
theorem assignAddr_room {s : Placing} (hsize : 1 ≤ t.size) (hauto : t.addr = autoAddr)
    (hfind : ∃ start, s.arena.Free t.size start) :
    let r := assignAddr t.addr t.size t.filled s
    let t' : Site := { t with addr := r.1 }
    t'.Fits ∧ t'.Marked r.2.arena ∧ ∀ m : Site, m.Marked s.arena → 1 ≤ m.size → t'.Apart m := by
  intro r t'
  have hr : r.1 = (s.arena.alloc t.size).1 ∧ r.2.arena = (s.arena.alloc t.size).2 := by
    simp [r, assignAddr, hauto]
  rcases s.arena.alloc_cases t.size with ⟨start, hfree, -, hoff, hmark⟩ | ⟨hnone, -⟩
  · have haddr : t'.addr.toNat = start * granule := by rw [← hoff, ← hr.1]
    have hfits : t'.Fits := by
      show t'.addr.toNat + t.size ≤ arenaSize
      rw [haddr]
      exact hfree.fits
    refine ⟨hfits, ?_, fun m hm hmsize => Site.apart_of_free hsize hfree haddr hm hmsize⟩
    rw [hr.2, hmark, ← hr.1]
    exact Site.marked_noteAlloc hfits
  · obtain ⟨start, hfree⟩ := hfind
    exact absurd hfree (hnone start)

/-- What pass 2 places fits, is apart from all that is marked before and from all it places. The
induction carries the marked sites `M`; each placed one joins them. -/
theorem assignSites_apart (ts : List Site) (s : Placing) (hsize : ∀ t ∈ ts, 1 ≤ t.size)
    (hfind : AllocsFind ts s) (M : Site → Prop) (hM : ∀ m, M m → m.Marked s.arena ∧ 1 ≤ m.size) :
    let pairs := ts.zip (assignSites ts s).1
    (∀ p ∈ pairs, p.1.addr = autoAddr → p.2.Fits ∧ ∀ m, M m → p.2.Apart m) ∧
      pairs.Pairwise fun p q => p.1.addr = autoAddr → q.1.addr = autoAddr → p.2.Apart q.2 := by
  induction ts generalizing s M with
  | nil => exact ⟨nofun, .nil⟩
  | cons t ts ih =>
    obtain ⟨hroom, hrest⟩ := hfind
    have hts : ∀ u ∈ ts, 1 ≤ u.size := fun u hu => hsize u (mem_cons_of_mem t hu)
    have hgrown : ∀ m, M m → m.Marked (assignAddr t.addr t.size t.filled s).2.arena ∧ 1 ≤ m.size :=
      fun m hm => ⟨(hM m hm).1.grows (grows_assignAddr t.addr t.size t.filled s), (hM m hm).2⟩
    by_cases hauto : t.addr = autoAddr
    · obtain ⟨hfits, hmarked, hapart⟩ := assignAddr_room (hsize t mem_cons_self) hauto (hroom hauto)
      -- the site just placed joins the marked ones
      obtain ⟨hplaced, hpairs⟩ := ih _ hts hrest
        (fun m => m = { t with addr := (assignAddr t.addr t.size t.filled s).1 } ∨ M m) (by
          rintro m (rfl | hm)
          · exact ⟨hmarked, hsize t mem_cons_self⟩
          · exact hgrown m hm)
      refine ⟨fun p hp hpauto => ?_, pairwise_cons.mpr ⟨fun q hq _ hqauto => ?_, hpairs⟩⟩
      · rcases mem_cons.mp hp with rfl | hp
        · exact ⟨hfits, fun m hm => hapart m (hM m hm).1 (hM m hm).2⟩
        · obtain ⟨hpfits, hpapart⟩ := hplaced p hp hpauto
          exact ⟨hpfits, fun m hm => hpapart m (.inr hm)⟩
      · exact ((hplaced q hq hqauto).2 _ (.inl rfl)).symm
    · obtain ⟨hplaced, hpairs⟩ := ih _ hts hrest M hgrown
      refine ⟨fun p hp hpauto => ?_, pairwise_cons.mpr ⟨fun q _ hpauto => ?_, hpairs⟩⟩
      · rcases mem_cons.mp hp with rfl | hp
        · exact absurd hpauto hauto
        · exact hplaced p hp hpauto
      · exact absurd hpauto hauto

theorem mem_assignSites_addrs (ts : List Site) (s : Placing) (f : U64) :
    f ∈ (assignSites ts s).2.addrs ↔ f ∈ s.addrs ∨
      ∃ p ∈ ts.zip (assignSites ts s).1, p.1.addr = autoAddr ∧ p.1.filled = true ∧ p.2.addr = f := by
  induction ts generalizing s with
  | nil => simp [assignSites]
  | cons t ts ih =>
    have hstep : f ∈ (assignAddr t.addr t.size t.filled s).2.addrs ↔ f ∈ s.addrs ∨
        (t.addr = autoAddr ∧ t.filled = true ∧ (assignAddr t.addr t.size t.filled s).1 = f) := by
      unfold assignAddr
      by_cases hauto : t.addr = autoAddr
      · by_cases hfilled : t.filled = true
        · simp only [hauto, hfilled, if_true, mem_append, mem_singleton, true_and, eq_comm]
        · simp [hauto, hfilled]
      · simp [hauto]
    simp [assignSites, ih, hstep, or_assoc]

/-! ## A program placed, and placed again -/

mutual

theorem assign_of_ne : ∀ a : Arg, (∀ t ∈ sitesOf w [a], t.addr ≠ autoAddr) → ∀ s, assign w a s = (a, s)
  | .ptr addr (some inner), hne, s => by
    have haddr := (assignAddr_addr addr (max (encodedLen inner w) 1) true s).2 (hne _ mem_cons_self)
    have hinner := assign_of_ne inner (fun t ht => hne t (mem_cons_of_mem _ ht)) s
    simp [assign, haddr, hinner]
  | .ptr addr none, hne, s => by
    have haddr := (assignAddr_addr addr granule false s).2 (hne _ mem_cons_self)
    simp [assign, haddr]
  | .struct fs, hne, s => by
    rw [sitesOf_struct] at hne
    simp [assign, assignAll_of_ne fs hne]
  | .array fs, hne, s => by
    rw [sitesOf_array] at hne
    simp [assign, assignAll_of_ne fs hne]
  | .union inner, hne, s | .out _ inner, hne, s => by simp [assign, assign_of_ne inner hne]
  | .int _, _, _ | .res .., _, _ | .data _, _, _ | .csum, _, _ | .nil, _, _ => rfl

theorem assignAll_of_ne : ∀ fs : List Arg, (∀ t ∈ sitesOf w fs, t.addr ≠ autoAddr) → ∀ s, assignAll w fs s = (fs, s)
  | [], _, _ => rfl
  | f :: fs, hne, s => by
    rw [sitesOf_cons] at hne
    have hf := assign_of_ne f (fun t ht => hne t (mem_append_left _ ht)) s
    have hfs := assignAll_of_ne fs (fun t ht => hne t (mem_append_right _ ht)) s
    simp [assignAll, hf, hfs]

end

theorem assignCalls_of_ne {cs : List Call}
    (hne : ∀ t ∈ cs.flatMap fun c => sitesOf w c.args, t.addr ≠ autoAddr) (s : Placing) :
    assignCalls w cs s = (cs, s) := by
  induction cs generalizing s with
  | nil => rfl
  | cons c cs ih =>
    have hargs := assignAll_of_ne c.args (fun t ht => hne t (mem_append_left _ ht)) s
    have hcs := ih (fun t ht => hne t (mem_append_right _ ht)) s
    simp [assignCalls, hargs, hcs]

theorem noteFixed_of_ne (hne : ∀ t ∈ prog.sites w, t.addr ≠ autoAddr) (a : Arena) :
    (noteFixed w a prog).2 = prog := by
  simp [noteFixed, assignCalls_of_ne hne]

/-- No pointer is left without an address, and what had one keeps it. -/
theorem noteFixed_zip (w : Nat) (a : Arena) (prog : Prog) :
    ((noteFixed w a prog).2.sites w).length = (prog.sites w).length ∧
      ∀ p ∈ (prog.sites w).zip ((noteFixed w a prog).2.sites w),
        p.2.size = p.1.size ∧ p.2.filled = p.1.filled ∧ p.2.addr ≠ autoAddr ∧
          (p.1.addr ≠ autoAddr → p.2 = p.1) := by
  rw [(noteFixed_eq w a prog).1]
  exact ⟨length_assignSites _ _, assignSites_zip _ _⟩

theorem mem_zip_left {xs : List α} {ys : List β} (h : ys.length = xs.length) {x : α} (hx : x ∈ xs) :
    ∃ y, (x, y) ∈ xs.zip ys := by
  obtain ⟨i, hi, rfl⟩ := mem_iff_getElem.mp hx
  exact ⟨ys[i], mem_iff_getElem.mpr ⟨i, by simp [hi, h], by simp⟩⟩

theorem mem_zip_right {xs : List α} {ys : List β} (h : ys.length = xs.length) {y : β} (hy : y ∈ ys) :
    ∃ x, (x, y) ∈ xs.zip ys := by
  obtain ⟨i, hi, rfl⟩ := mem_iff_getElem.mp hy
  exact ⟨xs[i], mem_iff_getElem.mpr ⟨i, by simp [hi, ← h], by simp⟩⟩

theorem noteFixed_ne (w : Nat) (a : Arena) (prog : Prog) :
    ∀ t ∈ (noteFixed w a prog).2.sites w, t.addr ≠ autoAddr := by
  intro t ht
  obtain ⟨hlen, hzip⟩ := noteFixed_zip w a prog
  obtain ⟨u, hu⟩ := mem_zip_right hlen ht
  exact (hzip _ hu).2.2.1

/-- The addresses writes are clipped at: those of the objects, and the sentinel where it was used. -/
theorem mem_noteFixed_fixed (w : Nat) (a : Arena) (prog : Prog) (f : U64) :
    f ∈ (noteFixed w a prog).1.fixed ↔
      (∃ t ∈ (noteFixed w a prog).2.sites w, t.filled = true ∧ t.addr = f) ∨
      (f = autoAddr ∧ ∃ t ∈ prog.sites w, t.filled = true ∧ t.addr = autoAddr) := by
  obtain ⟨hlen, hzip⟩ := noteFixed_zip w a prog
  obtain ⟨hsites, harena⟩ := noteFixed_eq w a prog
  rw [harena, Arena.mem_fixed_setFixed, mem_assignSites_addrs, ← hsites, noted, mem_noted_addrs]
  simp only [not_mem_nil, false_or]
  constructor
  · rintro (⟨t, ht, hfilled, rfl⟩ | ⟨⟨t, t'⟩, hp, hauto, hfilled, rfl⟩)
    · by_cases hauto : t.addr = autoAddr
      · exact .inr ⟨hauto, t, ht, hfilled, hauto⟩
      · obtain ⟨t', hp⟩ := mem_zip_left hlen ht
        obtain rfl : t' = t := (hzip _ hp).2.2.2 hauto
        exact .inl ⟨t', (of_mem_zip hp).2, hfilled, rfl⟩
    · have hkept : t'.filled = t.filled := (hzip _ hp).2.1
      exact .inl ⟨t', (of_mem_zip hp).2, hkept.trans hfilled, rfl⟩
  · rintro (⟨t', ht', hfilled, rfl⟩ | ⟨rfl, t, ht, hfilled, hauto⟩)
    · obtain ⟨t, hp⟩ := mem_zip_right hlen ht'
      have hkept : t'.filled = t.filled := (hzip _ hp).2.1
      by_cases hauto : t.addr = autoAddr
      · exact .inr ⟨(t, t'), hp, hauto, hkept ▸ hfilled, rfl⟩
      · have hsame : t' = t := (hzip _ hp).2.2.2 hauto
        exact .inl ⟨t, (of_mem_zip hp).1, hkept ▸ hfilled, by rw [hsame]⟩
    · exact .inl ⟨t, ht, hfilled, hauto⟩

theorem one_le_size (ht : t ∈ prog.sites w) : 1 ≤ t.size := by
  obtain ⟨c, -, ht⟩ := mem_flatMap.mp ht
  obtain ⟨a, -, ha⟩ := mem_filterMap.mp ht
  cases a with
  | ptr addr inner =>
    cases inner with
    | none => cases ha; exact Nat.le_of_ble_eq_true rfl
    | some inner => cases ha; exact Nat.le_max_right _ 1
  | _ => cases ha

section

variable (ha : a.fixed.Pairwise (· ≤ ·)) (hb : b.fixed.Pairwise (· ≤ ·)) (hsub : ∀ f ∈ b.fixed, f ∈ a.fixed)
  (hsup : ∀ f ∈ a.fixed, f ∈ b.fixed ∨ f = autoAddr) (off : U64)
include ha hb hsub hsup

/-- The sentinel in `fixed` clips nothing that fits, and what does not fit is not written. -/
theorem clip_of_fixed (len : Nat) :
    a.clip off len = b.clip off len ∨
      (2 ^ 64 - 1 ≤ off.toNat + a.clip off len ∧ 2 ^ 64 ≤ off.toNat + b.clip off len) := by
  have hauto : autoAddr.toNat = 2 ^ 64 - 1 := rfl
  have hle : a.clip off len ≤ b.clip off len := by
    by_contra hlt
    have hin := (Arena.lt_clip_iff ha off len _).mp (Nat.lt_of_not_le hlt)
    exact Nat.lt_irrefl _ ((Arena.lt_clip_iff hb off len _).mpr ⟨hin.1, fun f hf => hin.2 f (hsub f hf)⟩)
  rcases Nat.lt_or_ge (a.clip off len) (b.clip off len) with hlt | hge
  · -- what `a` clips at and `b` does not is the sentinel
    have hin := (Arena.lt_clip_iff hb off len _).mp hlt
    have hbig : 2 ^ 64 - 1 ≤ off.toNat + a.clip off len := by
      by_contra hsmall
      refine Nat.lt_irrefl _ ((Arena.lt_clip_iff ha off len _).mpr ⟨hin.1, fun f hf hof => ?_⟩)
      rcases hsup f hf with hf | rfl
      · exact hin.2 f hf hof
      · rw [hauto]
        omega
    exact .inr ⟨hbig, by omega⟩
  · exact .inl (Nat.le_antisymm hle hge)

theorem kept_of_fixed (bytes : List U8) : a.kept off bytes = b.kept off bytes := by
  rcases clip_of_fixed ha hb hsub hsup off bytes.length with heq | ⟨hbiga, hbigb⟩
  · rw [Arena.kept, heq, Arena.kept]
  · rw [Arena.kept, Arena.kept, arenaSize_eq, if_neg (by omega), if_neg (by omega)]

end

theorem noteFixed_fixed_pairwise (w : Nat) (a : Arena) (prog : Prog) :
    (noteFixed w a prog).1.fixed.Pairwise (· ≤ ·) := by
  rw [(noteFixed_eq w a prog).2]
  exact Arena.fixed_setFixed_pairwise _ _

/-- One pointer with a textual address and one without. -/
def fixedAndAuto : Prog where
  calls :=
    [{ name := [], base := [], nr := none
       args := [.ptr 0x20#64 (some (.data [1#8, 2#8])), .ptr autoAddr (some (.int 7#64))]
       res := none, failNth := none, isAsync := false }]

/-- `mmap(&(0x7f0000000000/0x1000)=nil)`, `foo(&AUTO=0x7)`: a textual address without a pointee, and a
pointer to place. -/
def bareAndAuto : Prog where
  calls :=
    [{ name := [], base := [], nr := none, args := [.ptr 0#64 none], res := none, failNth := none, isAsync := false },
     { name := [], base := [], nr := none, args := [.ptr autoAddr (some (.int 7#64))]
       res := none, failNth := none, isAsync := false }]

end Vock.Fuzz
