import Vock.Fuzz.PseudoSyscalls

/-!
# Descriptors of a pass

Every descriptor that a pass opens is closed, held under a name, or lost (`Acct`). It is lost where its name is given to
another one or where it has none, so that each is closed once at the end exactly if that never happens
(`closed_once_iff`).
-/

namespace Vock.Fuzz.PseudoSyscalls

open Library

/-! ## What leaves descriptors alone -/

variable {α β : Type} {x : Usb α} {κ : Type}

/-- No descriptor is opened or closed. -/
def Quiet (x : Usb α) : Prop := ∀ w, (x.run w).2.opened = w.opened ∧ (x.run w).2.closed = w.closed

/-- A descriptor is closed exactly where there is an error. -/
def GivesUp (fd : Nat) (x : Usb (Except Int α)) : Prop :=
  ∀ w, (x.run w).2.opened = w.opened ∧ (x.run w).2.closed = w.closed ++ if (x.run w).1.isOk then [] else [fd]

theorem quiet_pure (a : α) : Quiet (pure a : Usb α) := fun _ => ⟨rfl, rfl⟩

theorem Quiet.bind {f : α → Usb β} (hx : Quiet x) (hf : ∀ a, Quiet (f a)) : Quiet (x >>= f) := by
  intro w
  obtain ⟨hopened, hclosed⟩ := hx w
  obtain ⟨hopened', hclosed'⟩ := hf (x.run w).1 (x.run w).2
  exact ⟨hopened'.trans hopened, hclosed'.trans hclosed⟩

theorem Quiet.givesUp {fd : Nat} {f : α → Usb (Except Int β)} (hx : Quiet x) (hf : ∀ a, GivesUp fd (f a)) :
    GivesUp fd (x >>= f) := by
  intro w
  obtain ⟨hopened, hclosed⟩ := hx w
  obtain ⟨hopened', hclosed'⟩ := hf (x.run w).1 (x.run w).2
  rw [hclosed] at hclosed'
  exact ⟨hopened'.trans hopened, hclosed'⟩

theorem givesUp_giveUp (fd : Nat) (rv : Int) : GivesUp fd (giveUp fd rv : Usb (Except Int α)) := fun _ => ⟨rfl, rfl⟩

theorem givesUp_ok (fd : Nat) (a : α) : GivesUp fd (pure (.ok a) : Usb (Except Int α)) :=
  fun w => ⟨rfl, (List.append_nil w.closed).symm⟩

theorem quiet_ioctl (fd : Nat) (request : Request) : Quiet (ioctl fd request) := fun _ => ⟨rfl, rfl⟩

theorem quiet_disableEps (fd : Nat) (eps : List EpIndex) : Quiet (disableEps fd eps) := by
  induction eps with
  | nil => exact quiet_pure ()
  | cons ep eps ih =>
    rw [disableEps]
    split
    · exact Quiet.bind (fun _ => ⟨rfl, rfl⟩) fun _ => ih
    · exact ih

theorem quiet_enableEps (fd n i : Nat) (eps : List EpIndex) : Quiet (enableEps fd n i eps) := by
  induction eps generalizing i with
  | nil => exact quiet_pure []
  | cons ep eps ih => exact (quiet_ioctl _ _).bind fun _ => (ih (i + 1)).bind fun _ => quiet_pure _

theorem quiet_setInterface (fd : Nat) (index : DeviceIndex) (n : Int) : Quiet (setInterface fd index n) := by
  have hleave : Quiet (leaveInterface fd index) := by
    rw [leaveInterface]
    split
    · exact quiet_pure ()
    · exact quiet_disableEps fd _
  refine hleave.bind fun _ => ?_
  split
  · exact quiet_pure index
  · exact (quiet_enableEps _ _ _ _).bind fun _ => quiet_pure _

theorem quiet_configureDevice (fd : Nat) (index : DeviceIndex) : Quiet (configureDevice fd index) := by
  refine (quiet_ioctl _ _).bind fun _ => ?_
  split
  · exact quiet_pure _
  · refine (quiet_ioctl _ _).bind fun _ => ?_
    split
    · exact quiet_pure _
    · exact (quiet_setInterface _ _ _).bind fun _ => quiet_pure _

theorem givesUp_enumerate (fd : Nat) (events : List (Option (BitVec 32 × Vector U8 8))) (index : DeviceIndex) :
    GivesUp fd (enumerate fd events index) := by
  have hevents : ∀ rest, Quiet (modify fun w => { w with events := rest } : Usb Unit) := fun _ _ => ⟨rfl, rfl⟩
  induction events generalizing index with
  | nil => exact givesUp_giveUp fd (-1)
  | cons event rest ih =>
    obtain _ | ⟨ty, data⟩ := event
    · exact (hevents rest).givesUp fun _ => givesUp_giveUp fd (-1)
    · rw [enumerate]
      refine (hevents rest).givesUp fun _ => ?_
      have hanswer : ∀ (write : Bool) (resp : List U8) (r : Int × DeviceIndex), GivesUp fd (do
          if r.1 < 0 then giveUp fd r.1
          else
            let rv ← ioctl fd (.ep0Io write resp)
            if rv < 0 then giveUp fd rv else if write then enumerate fd rest r.2 else return .ok r.2) := by
        intro write resp r
        split
        · exact givesUp_giveUp fd _
        · refine (quiet_ioctl _ _).givesUp fun rv => ?_
          split
          · exact givesUp_giveUp fd _
          · split
            · exact ih _
            · exact givesUp_ok fd _
      dsimp only
      split
      · exact ih index
      · split
        · exact (quiet_ioctl _ _).givesUp fun _ => ih index
        · split
          · exact (quiet_configureDevice _ _).givesUp fun r => hanswer _ _ r
          · exact (quiet_pure _).givesUp fun r => hanswer _ _ r

theorem givesUp_bringUp (speed : U8) (procid : U64) (fd : Nat) (index : DeviceIndex) :
    GivesUp fd (bringUp speed procid fd index) := by
  have hrun : ∀ rv : Int, GivesUp fd (do
      if rv < 0 then giveUp fd rv
      else
        let rv ← ioctl fd .run
        if rv < 0 then giveUp fd rv else enumerate fd (← get).events index) := by
    intro rv
    split
    · exact givesUp_giveUp fd _
    · refine (quiet_ioctl _ _).givesUp fun rv => ?_
      split
      · exact givesUp_giveUp fd _
      · have hget : Quiet (get : Usb World) := fun _ => ⟨rfl, rfl⟩
        exact hget.givesUp fun w => givesUp_enumerate fd w.events index
  refine (quiet_ioctl _ _).givesUp fun rv => ?_
  split
  · exact (quiet_ioctl _ _).givesUp hrun
  · exact (quiet_pure rv).givesUp hrun

/-- What comes with a descriptor comes with a new one; where there is an error, a descriptor that was opened is closed. -/
structure Opens (fdOf : α → Nat) (x : Usb (Except Int α)) : Prop where
  ok : ∀ w a, (x.run w).1 = .ok a →
    fdOf a = w.opened ∧ (x.run w).2.opened = w.opened + 1 ∧ (x.run w).2.closed = w.closed
  error : ∀ w rv, (x.run w).1 = .error rv →
    ((x.run w).2.opened = w.opened ∧ (x.run w).2.closed = w.closed) ∨
      ((x.run w).2.opened = w.opened + 1 ∧ (x.run w).2.closed = w.closed ++ [w.opened])

theorem opens_error (fdOf : α → Nat) (rv : Int) : Opens fdOf (pure (.error rv)) := ⟨nofun, fun _ _ _ => Or.inl ⟨rfl, rfl⟩⟩

theorem openFile_run (w : World) :
    openFile.run w =
      if w.results.headD (-1) < 0 then (.error (w.results.headD (-1)), { w with results := w.results.tail })
      else (.ok w.opened, { w with opened := w.opened + 1, results := w.results.tail }) := by
  change (if w.results.headD (-1) < 0 then _ else _ : Usb (Except Int Nat)).run { w with results := w.results.tail } = _
  split <;> rfl

theorem opens_openFile : Opens id openFile := by
  refine ⟨fun w fd hok => ?_, fun w rv herror => ?_⟩
  · rw [openFile_run] at hok ⊢
    split at hok
    · exact nomatch hok
    case isFalse h => 
      rw [if_neg h]
      exact ⟨(Except.ok.inj hok).symm, rfl, rfl⟩
  · rw [openFile_run] at herror ⊢
    split at herror
    case isTrue h =>
      rw [if_pos h]
      exact Or.inl ⟨rfl, rfl⟩
    · exact nomatch herror

theorem connect_run {speed : U8} {dev : List U8} {procid : U64} {index : DeviceIndex}
    (hparse : parseUsbDescriptor dev = some index) (w : World) :
    (syzUsbConnect speed dev procid).run w =
      if w.results.headD (-1) < 0 then (.error (w.results.headD (-1)), { w with results := w.results.tail })
      else
        let r := (bringUp speed procid w.opened index).run { w with opened := w.opened + 1, results := w.results.tail }
        (r.1.map (UsbDevice.mk w.opened), r.2) := by
  rw [syzUsbConnect, hparse, StateT.run_bind, openFile_run]
  split <;> rfl

theorem opens_connect (speed : U8) (dev : List U8) (procid : U64) :
    Opens UsbDevice.fd (syzUsbConnect speed dev procid) := by
  cases hparse : parseUsbDescriptor dev with
  | none =>
    rw [syzUsbConnect, hparse]
    exact opens_error _ (-1)
  | some index =>
    have hup : ∀ w : World, ∃ (r : Except Int DeviceIndex) (w' : World),
        (syzUsbConnect speed dev procid).run w = (r.map (UsbDevice.mk w.opened), w') ∧
          ((∃ rv, r = .error rv ∧ w'.opened = w.opened ∧ w'.closed = w.closed) ∨
            (w'.opened = w.opened + 1 ∧ w'.closed = w.closed ++ if r.isOk then [] else [w.opened])) := by
      intro w
      rw [connect_run hparse]
      by_cases hneg : w.results.headD (-1) < 0
      · rw [if_pos hneg]
        exact ⟨.error _, _, rfl, Or.inl ⟨_, rfl, rfl, rfl⟩⟩
      · rw [if_neg hneg]
        exact ⟨_, _, rfl, Or.inr (givesUp_bringUp speed procid w.opened index _)⟩
    refine ⟨fun w d hok => ?_, fun w rv herror => ?_⟩
    · obtain ⟨r, w', hrun, hcase⟩ := hup w
      rw [hrun] at hok ⊢
      cases r with
      | error rv => exact nomatch hok
      | ok index =>
        obtain ⟨_, hr, _⟩ | ⟨hopened, hclosed⟩ := hcase
        · exact nomatch hr
        · obtain rfl := Except.ok.inj hok
          exact ⟨rfl, hopened, hclosed.trans (List.append_nil _)⟩
    · obtain ⟨r, w', hrun, hcase⟩ := hup w
      rw [hrun] at herror ⊢
      cases r with
      | error rv => exact hcase.imp (fun ⟨_, _, h⟩ => h) id
      | ok index => exact nomatch herror

theorem opens_openDev (path : List U8) (id₁ id₂ : U64) : Opens id (syzOpenDev path id₁ id₂) := by
  rw [syzOpenDev]
  split
  · exact opens_error _ (-1)
  · exact opens_openFile

theorem quiet_controlIo (d : UsbDevice) : Quiet (syzUsbControlIo d) := by
  have hfetch : Quiet usbRawEventFetch := fun _ => ⟨rfl, rfl⟩
  refine hfetch.bind fun event => ?_
  split
  · exact quiet_pure _
  · split
    · exact quiet_pure _
    · have hrest : ∀ (write : Bool) (data : List U8) (index : DeviceIndex), Quiet (do
          let _ ← ioctl d.fd (.ep0Io write data)
          return index) := fun _ _ _ => (quiet_ioctl _ _).bind fun _ => quiet_pure _
      dsimp only
      split
      · exact (quiet_pure _).bind fun index => hrest _ _ index
      · split
        · split
          · exact (quiet_setInterface _ _ _).bind fun index => hrest _ _ index
          · exact (quiet_pure _).bind fun index => hrest _ _ index
        · exact (quiet_pure _).bind fun index => hrest _ _ index

/-! ## Tables -/

/-- An entry of a table, and the others. -/
theorem perm_erase [DecidableEq κ] {t : AList fun _ : κ => α} {k : κ} {a : α} (h : t.lookup k = some a) :
    t.entries.Perm (⟨k, a⟩ :: (t.erase k).entries) := by
  have hmem : k ∈ t.entries.keys := AList.lookup_isSome.mp (by rw [h]; rfl)
  obtain ⟨b, l₁, l₂, _, hentries, herased⟩ := List.exists_of_kerase hmem
  have hb : t.lookup k = some b := AList.mem_lookup_iff.mpr (by rw [hentries]; exact List.mem_append_right _ List.mem_cons_self)
  obtain rfl := Option.some.inj (h.symm.trans hb)
  change t.entries.Perm (⟨k, a⟩ :: List.kerase k t.entries)
  rw [herased, hentries]
  exact List.perm_middle

/-- What an entry is replaced with has the same measure. -/
theorem map_kreplace [DecidableEq κ] {l : List (Σ _ : κ, α)} {k : κ} {a : α} (h : l.dlookup k = some a)
    (f : α → β) {b : α} (hb : f b = f a) : (l.kreplace k b).map (fun e => f e.2) = l.map fun e => f e.2 := by
  induction l with
  | nil => exact nomatch h
  | cons e l ih =>
    obtain ⟨k', a'⟩ := e
    by_cases hk : k = k'
    · subst hk
      have hcons : List.kreplace k b (⟨k, a'⟩ :: l) = ⟨k, b⟩ :: l := List.lookmap_cons_some _ l (if_pos rfl)
      rw [List.dlookup_cons_eq] at h
      rw [hcons, List.map_cons, List.map_cons, hb, Option.some.inj h]
    · have hcons : List.kreplace k b (⟨k', a'⟩ :: l) = ⟨k', a'⟩ :: List.kreplace k b l :=
        List.lookmap_cons_none _ l (if_neg hk)
      rw [List.dlookup_cons_ne _ _ hk] at h
      rw [hcons, List.map_cons, List.map_cons, ih h]

/-! ## Accounts -/

/-- The descriptors of the devices, and the others a pass holds. -/
def held (r : Resources) : List Nat := r.usb.entries.map (·.2.fd) ++ r.fds.entries.map (·.2)

/-- Each descriptor that has been opened is one that is closed, held or lost. -/
def Acct (s : Resources × World) (lost : List Nat) : Prop :=
  ∀ fd, s.2.closed.count fd + (held s.1).count fd + lost.count fd = if fd < s.2.opened then 1 else 0

/-- An operation keeps what it opens: a device under a name that no other has, a descriptor under such a name too. -/
def Keeps (procid : U64) (s : Resources × World) : Op → Prop
  | .connect res speed dev =>
    ((syzUsbConnect speed dev procid).run s.2).1.isOk → deviceKey s.1 res ∉ s.1.usb
  | .openDev res path id id2 =>
    ((syzOpenDev path id id2).run s.2).1.isOk → ∃ name, res = some name ∧ name ∉ s.1.fds
  | _ => True

section

variable (procid : U64) {s : Resources × World} {lost : List Nat} {r : Resources} {w : World}

/-- A new descriptor is held, closed or lost, and the others are where they were or lost too. -/
theorem Acct.opened (h : Acct s lost) (hopened : w.opened = s.2.opened + 1)
    {lost' : List Nat}
    (hcount : ∀ fd, w.closed.count fd + (held r).count fd + lost'.count fd =
      s.2.closed.count fd + (held s.1).count fd + lost.count fd + if s.2.opened = fd then 1 else 0) :
    Acct (r, w) lost' := by
  intro fd
  rw [hcount fd, h fd, hopened]
  split_ifs <;> omega

/-- A failure closes what it has opened. -/
theorem Acct.failed (h : Acct s lost)
    (hw : (w.opened = s.2.opened ∧ w.closed = s.2.closed) ∨
      (w.opened = s.2.opened + 1 ∧ w.closed = s.2.closed ++ [s.2.opened])) : Acct (s.1, w) lost := by
  obtain ⟨hopened, hclosed⟩ | ⟨hopened, hclosed⟩ := hw
  · intro fd
    rw [hopened, hclosed]
    exact h fd
  · refine h.opened hopened fun fd => ?_
    rw [hclosed, List.count_append, List.count_singleton, beq_eq_decide]
    simp only [decide_eq_true_eq]
    omega

/-- A success: the new descriptor is held, or lost with what it takes the place of. -/
theorem Acct.kept (h : Acct s lost) (hopened : w.opened = s.2.opened + 1)
    (hclosed : w.closed = s.2.closed) {out : List Nat}
    (hcount : ∀ fd, (held r).count fd + out.count fd = (held s.1).count fd + if s.2.opened = fd then 1 else 0) :
    Acct (r, w) (lost ++ out) := by
  refine h.opened hopened fun fd => ?_
  have hfd := hcount fd
  rw [hclosed, List.count_append]
  omega

/-- A table in which a name is given to something new: what had the name is out. -/
theorem count_insert [DecidableEq κ] (t : AList fun _ : κ => α) (k : κ) (a : α) (f : α → Nat) (fd : Nat) :
    ((t.insert k a).entries.map fun e => f e.2).count fd + ((t.lookup k).toList.map f).count fd =
      (t.entries.map fun e => f e.2).count fd + if f a = fd then 1 else 0 := by
  have hentries : (t.insert k a).entries = ⟨k, a⟩ :: (t.erase k).entries := AList.entries_insert
  rw [hentries, List.map_cons, List.count_cons, beq_eq_decide]
  simp only [decide_eq_true_eq]
  cases hk : t.lookup k with
  | none =>
    have hsame : (t.erase k).entries = t.entries := List.kerase_of_notMem_keys (AList.lookup_eq_none.mp hk)
    rw [hsame]
    rfl
  | some b =>
    have hperm := ((perm_erase hk).map fun e => f e.2).count_eq fd
    rw [List.map_cons, List.count_cons] at hperm
    dsimp only at hperm
    rw [hperm, Option.toList_some, List.map_singleton, List.count_singleton, beq_eq_decide]
    omega

/-- A name that has nothing is one that nothing is lost with. -/
theorem toList_map_eq_nil_iff [DecidableEq κ] {t : AList fun _ : κ => α} {k : κ} (f : α → Nat) :
    (t.lookup k).toList.map f = [] ↔ k ∉ t := by
  rw [List.map_eq_nil_iff, Option.toList_eq_nil_iff, AList.lookup_eq_none]

theorem count_held (r : Resources) (fd : Nat) :
    (held r).count fd = (r.usb.entries.map fun e => e.2.fd).count fd + (r.fds.entries.map fun e => id e.2).count fd :=
  List.count_append

/-- What an operation loses is nothing exactly if it keeps what it opens. -/
theorem acct_runOp (h : Acct s lost) (op : Op) :
    ∃ lost', Acct ((runOp procid s.1 op).run s.2) lost' ∧ (lost' = [] ↔ lost = [] ∧ Keeps procid s op) := by
  cases op with
  | raw nr args => exact ⟨lost, h, (and_iff_left trivial).symm⟩
  | controlIo name =>
    refine ⟨lost, ?_, (and_iff_left trivial).symm⟩
    rw [runOp]
    cases hd : s.1.usb.lookup name with
    | none => exact h
    | some d =>
      obtain ⟨hopened, hclosed⟩ := quiet_controlIo d s.2
      have hsame := map_kreplace hd UsbDevice.fd (b := { d with index := ((syzUsbControlIo d).run s.2).1 }) rfl
      intro fd
      have hbefore := h fd
      rw [count_held, ← hsame, ← hopened, ← hclosed] at hbefore
      rw [count_held]
      exact hbefore
  | disconnect name =>
    refine ⟨lost, ?_, (and_iff_left trivial).symm⟩
    rw [runOp]
    cases hd : s.1.usb.lookup name with
    | none => exact h
    | some d =>
      change Acct ({ s.1 with usb := s.1.usb.erase name }, { s.2 with closed := s.2.closed ++ [d.fd] }) lost
      intro fd
      have hbefore := h fd
      have hperm := ((perm_erase hd).map fun e => e.2.fd).count_eq fd
      rw [List.map_cons, List.count_cons] at hperm
      rw [count_held] at hbefore ⊢
      dsimp only at hperm ⊢
      rw [List.count_append, List.count_singleton]
      omega
  | connect res speed dev =>
    obtain ⟨hok, herror⟩ := opens_connect speed dev procid
    specialize hok s.2
    specialize herror s.2
    rw [Keeps, runOp, StateT.run_bind]
    generalize (syzUsbConnect speed dev procid).run s.2 = r at hok herror
    obtain ⟨_ | d, w⟩ := r
    · exact ⟨lost, h.failed (herror _ rfl), (and_iff_left nofun).symm⟩
    · obtain ⟨hfd, hopened, hclosed⟩ := hok d rfl
      refine ⟨lost ++ (s.1.usb.lookup (deviceKey s.1 res)).toList.map UsbDevice.fd, ?_, ?_⟩
      · refine h.kept hopened hclosed fun fd => ?_
        have hinsert := count_insert s.1.usb (deviceKey s.1 res) d UsbDevice.fd fd
        rw [hfd] at hinsert
        rw [count_held, count_held]
        dsimp only
        omega
      · rw [List.append_eq_nil_iff, toList_map_eq_nil_iff]
        exact and_congr_right fun _ => ⟨fun hnot _ => hnot, fun hnot => hnot rfl⟩
  | openDev res path id₁ id₂ =>
    obtain ⟨hok, herror⟩ := opens_openDev path id₁ id₂
    specialize hok s.2
    specialize herror s.2
    rw [Keeps, runOp, StateT.run_bind]
    generalize (syzOpenDev path id₁ id₂).run s.2 = r at hok herror
    obtain ⟨_ | new, w⟩ := r
    · exact ⟨lost, h.failed (herror _ rfl), (and_iff_left nofun).symm⟩
    · obtain ⟨hfd, hopened, hclosed⟩ := hok new rfl
      cases res with
      | none =>
        refine ⟨lost ++ [new], ?_, ?_⟩
        · refine h.kept hopened hclosed fun fd => ?_
          rw [List.count_singleton, beq_eq_decide, ← hfd]
          simp only [decide_eq_true_eq, id]
        · exact iff_of_false (by simp) fun hk => nomatch hk.2 rfl
      | some name =>
        refine ⟨lost ++ (s.1.fds.lookup name).toList.map id, ?_, ?_⟩
        · refine h.kept hopened hclosed fun fd => ?_
          have hinsert := count_insert s.1.fds name new id fd
          rw [hfd] at hinsert
          rw [count_held, count_held]
          dsimp only
          omega
        · rw [List.append_eq_nil_iff, toList_map_eq_nil_iff]
          refine and_congr_right fun _ => ⟨fun hnot _ => ⟨name, rfl, hnot⟩, fun hnot => ?_⟩
          obtain ⟨_, hname, hmem⟩ := hnot rfl
          exact Option.some.inj hname ▸ hmem

theorem acct_runOps (h : Acct s lost) (ops : List Op) :
    ∃ lost', Acct ((runOps procid s.1 ops).run s.2) lost' ∧
      (lost' = [] ↔ lost = [] ∧ ∀ pre op, pre ++ [op] <+: ops → Keeps procid ((runOps procid s.1 pre).run s.2) op) := by
  induction ops generalizing s lost with
  | nil => exact ⟨lost, h, (and_iff_left fun _ _ hpre => (not_round_nil hpre).elim).symm⟩
  | cons op ops ih =>
    obtain ⟨lost₁, h₁, hiff₁⟩ := acct_runOp procid h op
    obtain ⟨lost₂, h₂, hiff₂⟩ := ih h₁
    refine ⟨lost₂, h₂, ?_⟩
    rw [hiff₂, hiff₁, forall_round_cons_iff, and_assoc]
    rfl

end

/-! ## A pass -/

theorem closeAll_run (fds : List Nat) (w : World) :
    (closeAll fds).run w = ((), { w with closed := w.closed ++ fds }) := by
  induction fds generalizing w with
  | nil =>
    rw [List.append_nil]
    rfl
  | cons fd fds ih =>
    have hclosed : w.closed ++ fd :: fds = w.closed ++ [fd] ++ fds := List.append_cons _ _ _
    rw [closeAll, hclosed]
    exact ih { w with closed := w.closed ++ [fd] }

/-- What is held is closed at the end. -/
theorem runOnce_run (ops : List Op) (procid : U64) (w : World) :
    ((runOnce ops procid).run w).2 =
      let s := (runOps procid ⟨∅, ∅⟩ ops).run w
      { s.2 with closed := s.2.closed ++ held s.1 } := by
  rw [runOnce, StateT.run_bind]
  generalize (runOps procid ⟨∅, ∅⟩ ops).run w = s
  change ((closeAll _ >>= fun _ => closeAll _).run s.2).2 = _
  rw [StateT.run_bind, closeAll_run]
  change ((closeAll _).run _).2 = _
  have hheld : s.2.closed ++ s.1.usb.entries.map (·.2.fd) ++ s.1.fds.entries.map (·.2) = s.2.closed ++ held s.1 :=
    List.append_assoc _ _ _
  rw [closeAll_run]
  rw [hheld]

/-- Every descriptor a pass opens is closed exactly once by its end, if and only if each device and each descriptor is
kept under a name that nothing else has. -/
theorem closed_once_iff (ops : List Op) (procid : U64) (results : List Int)
    (events : List (Option (BitVec 32 × Vector U8 8))) :
    let w : World := ⟨0, [], [], results, events⟩
    (∀ fd < ((runOnce ops procid).run w).2.opened, ((runOnce ops procid).run w).2.closed.count fd = 1) ↔
      ∀ pre op, pre ++ [op] <+: ops → Keeps procid ((runOps procid ⟨∅, ∅⟩ pre).run w) op := by
  intro w
  have hstart : Acct (⟨∅, ∅⟩, w) [] := fun fd => rfl
  obtain ⟨lost, hacct, hiff⟩ := acct_runOps procid hstart ops
  rw [runOnce_run]
  refine Iff.trans ⟨fun hall => ?_, fun hlost fd hfd => ?_⟩ (hiff.trans (and_iff_right rfl))
  · rw [List.eq_nil_iff_forall_not_mem]
    intro fd hmem
    have hcount := hacct fd
    dsimp only at hcount
    have hpos := List.count_pos_iff.mpr hmem
    by_cases hfd : fd < ((runOps procid ⟨∅, ∅⟩ ops).run w).2.opened
    · have hone := hall fd hfd
      rw [List.count_append] at hone
      rw [if_pos hfd] at hcount
      omega
    · rw [if_neg hfd] at hcount
      omega
  · have hcount := hacct fd
    rw [hlost, List.count_nil, if_pos hfd] at hcount
    rw [List.count_append]
    omega

/-- A descriptor without a name, and one whose name is given to another, are never closed. -/
theorem descriptors_lost :
    let run := fun ops => ((runOnce ops 0#64).run ⟨0, [], [], [3, 4], []⟩).2
    let path := ascii ['/', 'd', 'e', 'v', '/', 'n', 'u', 'l', 'l']
    let r0 := ascii ['r', '0']
    ((run [.openDev none path 0#64 0#64]).opened = 1 ∧ (run [.openDev none path 0#64 0#64]).closed = []) ∧
      ((run [.openDev (some r0) path 0#64 0#64, .openDev (some r0) path 0#64 0#64]).opened = 2 ∧
        (run [.openDev (some r0) path 0#64 0#64, .openDev (some r0) path 0#64 0#64]).closed = [1]) :=
  ⟨⟨rfl, rfl⟩, rfl, rfl⟩

end Vock.Fuzz.PseudoSyscalls
