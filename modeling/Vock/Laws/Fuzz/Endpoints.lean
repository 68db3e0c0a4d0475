import Vock.Fuzz.PseudoSyscalls

/-!
# Endpoints of a device

A device, as its requests make it: which endpoint is enabled with which handle (`Device`). The handles of the index
keep to it exactly as long as an endpoint that is enabled is never left: the interface is selected again, and all that
were enabled are enabled once more (`handles_track_iff`).

Not established: that a kernel gives out handles in some order; they are whatever its answers say.
-/

namespace Vock.Fuzz.PseudoSyscalls

open Library List

variable {index : DeviceIndex} {ep : Nat × Nat} {n : Int} {iface : IfaceIndex} {ifaces : List IfaceIndex}

/-! ## Devices -/

/-- The endpoints that are enabled, with their handles; the handles that have been disabled and not enabled since; and
whether one of those has been disabled. -/
structure Device where
  enabled : Nat × Nat → Option Int
  down : List Int
  twice : Bool

/-- What a request does to the device. -/
def Device.step (d : Device) (io : Ioctl) : Device :=
  match io.request with
  | .epEnable ep _ =>
    if 0 ≤ io.result then
      { d with enabled := Function.update d.enabled ep (some io.result), down := d.down.filter (· ≠ io.result) }
    else d
  | .epDisable handle =>
    { enabled := fun ep => if d.enabled ep = some handle then none else d.enabled ep
      down := handle :: d.down
      twice := d.twice || handle ∈ d.down }
  | _ => d

/-- The device after its requests. -/
def device (ioctls : List Ioctl) : Device := ioctls.foldl Device.step ⟨fun _ => none, [], false⟩

/-- An endpoint by its interface and its place there. -/
def DeviceIndex.ep? (index : DeviceIndex) (ep : Nat × Nat) : Option EpIndex :=
  index.ifaces[ep.1]?.bind fun iface => iface.eps[ep.2]?

/-- A handle is that of an endpoint that is enabled with it, or negative; and none has been disabled twice. -/
structure Tracked (s : DeviceIndex × World) : Prop where
  enabled : ∀ ep e, s.1.ep? ep = some e →
    (device s.2.ioctls).enabled ep = if 0 ≤ e.handle then some e.handle else none
  once : (device s.2.ioctls).twice = false

/-- A call of `set_interface`. -/
def select (fd : Nat) (s : DeviceIndex × World) (n : Int) : DeviceIndex × World := (setInterface fd s.1 n).run s.2

/-! ## Requests of a call -/

/-- The endpoints of the current interface. -/
def curEps (index : DeviceIndex) : List EpIndex := (index.iface? index.ifaceCur).elim [] (·.eps)

/-- The handles among some endpoints. -/
def handles (eps : List EpIndex) : List Int := (eps.map (·.handle)).filter (0 ≤ ·)

def disables (fd : Nat) (hs : List Int) : List Ioctl := hs.map fun h => ⟨fd, .epDisable h, 0⟩

/-- Endpoints are asked to be enabled, with these results. -/
def enables (fd n : Nat) : Nat → List Int → List EpIndex → List Ioctl
  | _, _, [] => []
  | i, results, ep :: eps => ⟨fd, .epEnable (n, i) ep.desc, results.headD (-1)⟩ :: enables fd n (i + 1) results.tail eps

/-- The endpoints afterwards. -/
def answered : List Int → List EpIndex → List EpIndex
  | _, [] => []
  | results, ep :: eps =>
    { ep with handle := if 0 ≤ results.headD (-1) then results.headD (-1) else ep.handle } :: answered results.tail eps

theorem disableEps_run (fd : Nat) (eps : List EpIndex) (w : World) :
    (disableEps fd eps).run w = ((), { w with ioctls := w.ioctls ++ disables fd (handles eps) }) := by
  induction eps generalizing w with
  | nil =>
    have hnil : w.ioctls ++ disables fd (handles []) = w.ioctls := append_nil _
    rw [hnil]
    rfl
  | cons ep eps ih =>
    by_cases h : 0 ≤ ep.handle
    · have hcons : handles (ep :: eps) = ep.handle :: handles eps := filter_cons_of_pos (decide_eq_true h)
      rw [disableEps, if_pos h]
      change (disableEps fd eps).run { w with ioctls := w.ioctls ++ [⟨fd, .epDisable ep.handle, 0⟩] } = _
      rw [ih, hcons]
      rw [append_assoc]
      rfl
    · have hcons : handles (ep :: eps) = handles eps := filter_cons_of_neg fun hd => h (of_decide_eq_true hd)
      rw [disableEps, if_neg h, hcons, ← ih]

theorem enableEps_run (fd n i : Nat) (eps : List EpIndex) (w : World) :
    (enableEps fd n i eps).run w =
      (answered w.results eps,
        { w with ioctls := w.ioctls ++ enables fd n i w.results eps, results := w.results.drop eps.length }) := by
  induction eps generalizing i w with
  | nil =>
    have hnil : w.ioctls ++ enables fd n i w.results [] = w.ioctls := append_nil _
    rw [hnil]
    rfl
  | cons ep eps ih =>
    have hasked : (ioctl fd (.epEnable (n, i) ep.desc)).run w =
        (w.results.headD (-1),
          { w with
            ioctls := w.ioctls ++ [⟨fd, .epEnable (n, i) ep.desc, w.results.headD (-1)⟩]
            results := w.results.tail }) := rfl
    rw [enableEps, StateT.run_bind, hasked]
    change (enableEps fd n (i + 1) eps >>= fun eps => pure _).run _ = _
    rw [StateT.run_bind, ih, length_cons, ← drop_tail, enables]
    change (_, { w with ioctls := (w.ioctls ++ [_]) ++ _, results := _ }) = _
    rw [append_assoc]
    rfl

theorem leaveInterface_run (fd : Nat) (index : DeviceIndex) (w : World) :
    (leaveInterface fd index).run w = ((), { w with ioctls := w.ioctls ++ disables fd (handles (curEps index)) }) := by
  rw [leaveInterface, curEps]
  cases index.iface? index.ifaceCur with
  | none => exact disableEps_run fd [] w
  | some iface => exact disableEps_run fd iface.eps w

/-- The requests of a call that selects no interface. -/
theorem select_none (fd : Nat) (w : World) (hn : index.iface? n = none) :
    select fd (index, w) n = (index, { w with ioctls := w.ioctls ++ disables fd (handles (curEps index)) }) := by
  rw [select, setInterface, StateT.run_bind, leaveInterface_run, hn]
  rfl

/-- The requests of a call that selects an interface, and the handles it leaves. -/
theorem select_some (fd : Nat) (w : World)
    (hn : index.iface? n = some iface) :
    select fd (index, w) n =
      ({ index with ifaces := index.ifaces.set n.toNat { iface with eps := answered w.results iface.eps }, ifaceCur := n },
        { w with
          ioctls := w.ioctls ++ disables fd (handles (curEps index)) ++ enables fd n.toNat 0 w.results iface.eps
          results := w.results.drop iface.eps.length }) := by
  rw [select, setInterface, StateT.run_bind, leaveInterface_run, hn]
  change (enableEps fd n.toNat 0 iface.eps >>= fun eps => pure _).run _ = _
  rw [StateT.run_bind, enableEps_run]
  rfl

/-! ## What the requests do -/

theorem getD_tail (results : List Int) (j : Nat) : results.tail.getD j (-1) = results.getD (j + 1) (-1) := by
  cases results <;> rfl

section

variable (fd n i : Nat) (hs : List Int) (results : List Int) (eps : List EpIndex) (d : Device)

/-- What has one of the handles is not enabled any more. -/
theorem enabled_disables (ep : Nat × Nat) :
    ((disables fd hs).foldl Device.step d).enabled ep = if d.enabled ep ∈ hs.map some then none else d.enabled ep := by
  induction hs generalizing d with
  | nil => exact (if_neg not_mem_nil).symm
  | cons h hs ih =>
    have hstep : (d.step ⟨fd, .epDisable h, 0⟩).enabled ep = if d.enabled ep = some h then none else d.enabled ep := rfl
    refine (ih _).trans ?_
    rw [hstep, map_cons]
    by_cases heq : d.enabled ep = some h
    · have hnone : none ∉ hs.map some := by simp
      rw [if_pos heq, if_neg hnone, if_pos (mem_cons.mpr (Or.inl heq))]
    · have hmem : d.enabled ep ∈ some h :: hs.map some ↔ d.enabled ep ∈ hs.map some :=
        mem_cons.trans (or_iff_right heq)
      rw [if_neg heq]
      exact if_congr hmem.symm rfl rfl

/-- No handle is disabled twice: they differ, and none was down. -/
theorem twice_disables :
    ((disables fd hs).foldl Device.step d).twice = false ↔ d.twice = false ∧ hs.Nodup ∧ ∀ h ∈ hs, h ∉ d.down := by
  induction hs generalizing d with
  | nil => exact ⟨fun h => ⟨h, nodup_nil, nofun⟩, fun h => h.1⟩
  | cons h hs ih =>
    have hstep : (d.step ⟨fd, .epDisable h, 0⟩).twice = false ↔ d.twice = false ∧ h ∉ d.down := by
      rw [Device.step, Bool.or_eq_false_iff, decide_eq_false_iff_not]
    have hdown : ∀ x, x ∉ (d.step ⟨fd, .epDisable h, 0⟩).down ↔ x ≠ h ∧ x ∉ d.down := fun x => by
      rw [Device.step, mem_cons, not_or]
    refine (ih _).trans ?_
    simp only [hstep, hdown, nodup_cons, forall_mem_cons]
    constructor
    · rintro ⟨⟨htwice, hnot⟩, hnodup, hrest⟩
      exact ⟨htwice, ⟨fun hmem => (hrest h hmem).1 rfl, hnodup⟩, hnot, fun x hx => (hrest x hx).2⟩
    · rintro ⟨htwice, ⟨hmem, hnodup⟩, hnot, hrest⟩
      exact ⟨⟨htwice, hnot⟩, hnodup, fun x hx => ⟨fun heq => hmem (heq ▸ hx), hrest x hx⟩⟩

/-- What requests to enable endpoints, from the `i`th on, make of a device: an endpoint has the handle that was given for
it, which is not down, and all others stay. -/
structure Enabled (n i len : Nat) (results : List Int) (d d' : Device) : Prop where
  others : ∀ ep : Nat × Nat, ep.1 ≠ n ∨ ep.2 < i ∨ i + len ≤ ep.2 → d'.enabled ep = d.enabled ep
  given : ∀ j < len, d'.enabled (n, i + j) =
    if 0 ≤ results.getD j (-1) then some (results.getD j (-1)) else d.enabled (n, i + j)
  down : ∀ h ∈ d'.down, h ∈ d.down ∧ ∀ j < len, 0 ≤ results.getD j (-1) → results.getD j (-1) ≠ h
  twice : d'.twice = d.twice

theorem enabled_enable (desc : List U8) :
    Enabled n i 1 results d (d.step ⟨fd, .epEnable (n, i) desc, results.headD (-1)⟩) := by
  rw [Device.step, headD_eq_getD]
  dsimp only
  split
  next hr =>
    refine ⟨fun ep hep => Function.update_of_ne ?_ _ _, fun j hj => ?_, fun h hh => ?_, rfl⟩
    · rintro rfl
      omega
    · obtain rfl : j = 0 := by omega
      rw [if_pos hr]
      exact Function.update_self (n, i) _ _
    · obtain ⟨hdown, hne⟩ := mem_filter.mp hh
      refine ⟨hdown, fun j hj _ heq => ?_⟩
      obtain rfl : j = 0 := by omega
      exact of_decide_eq_true hne heq.symm
  next hr =>
    refine ⟨fun _ _ => rfl, fun j hj => ?_, fun h hh => ⟨hh, fun j hj hj' => ?_⟩, rfl⟩
    · obtain rfl : j = 0 := by omega
      rw [if_neg hr]
    · obtain rfl : j = 0 := by omega
      exact absurd hj' hr

theorem enabled_enables : Enabled n i eps.length results d ((enables fd n i results eps).foldl Device.step d) := by
  induction eps generalizing i results d with
  | nil => exact ⟨fun _ _ => rfl, nofun, fun _ hh => ⟨hh, nofun⟩, rfl⟩
  | cons e eps ih =>
    have hfirst := enabled_enable fd n i results d e.desc
    obtain ⟨hothers, hgiven, hdown, htwice⟩ := ih (i + 1) results.tail (d.step ⟨fd, .epEnable (n, i) e.desc, results.headD (-1)⟩)
    simp only [getD_tail] at hgiven hdown
    refine ⟨fun ep hep => ?_, fun j hj => ?_, fun h hh => ?_, htwice.trans hfirst.twice⟩
    · rw [length_cons] at hep
      exact (hothers ep (by omega)).trans (hfirst.others ep (by omega))
    · cases j with
      | zero => exact (hothers (n, i) (.inr (.inl (Nat.lt_succ_self i)))).trans (hfirst.given 0 Nat.one_pos)
      | succ j =>
        rw [← Nat.add_assoc, Nat.add_right_comm, ← hfirst.others (n, i + 1 + j) (.inr (.inr (Nat.le_add_right _ _)))]
        exact hgiven j (Nat.lt_of_succ_lt_succ hj)
    · obtain ⟨hmem, hrest⟩ := hdown h hh
      obtain ⟨hmem, hnew⟩ := hfirst.down h hmem
      refine ⟨hmem, fun j hj => ?_⟩
      cases j with
      | zero => exact hnew 0 Nat.one_pos
      | succ j => exact hrest j (Nat.lt_of_succ_lt_succ hj)

theorem getElem?_answered (j : Nat) :
    (answered results eps)[j]? = eps[j]?.map fun ep =>
      { ep with handle := if 0 ≤ results.getD j (-1) then results.getD j (-1) else ep.handle } := by
  induction eps generalizing j results with
  | nil => rfl
  | cons e eps ih =>
    cases j with
    | zero =>
      rw [answered, headD_eq_getD]
      rfl
    | succ j =>
      rw [answered, getElem?_cons_succ, ih, getD_tail]
      rfl

end

/-! ## A call -/

/-- The handles are those of the current interface, and none of them is down. -/
structure Settled (s : DeviceIndex × World) : Prop extends Tracked s where
  only : ∀ ep e, s.1.ep? ep = some e → 0 ≤ e.handle → s.1.ifaceCur = ep.1
  up : ∀ ep e, s.1.ep? ep = some e → 0 ≤ e.handle → e.handle ∉ (device s.2.ioctls).down

/-- The handle a call gives to an endpoint. -/
def given (s : DeviceIndex × World) (n : Int) (ep : Nat × Nat) : Option Int :=
  if n = ep.1 ∧ 0 ≤ s.2.results.getD ep.2 (-1) then some (s.2.results.getD ep.2 (-1)) else none

theorem iface?_natCast (index : DeviceIndex) (m : Nat) : index.iface? m = index.ifaces[m]? := by
  rw [DeviceIndex.iface?, if_pos (Int.natCast_nonneg m), Int.toNat_natCast]

theorem exists_of_iface?_eq_some (h : index.iface? n = some iface) :
    ∃ m : Nat, n = m ∧ index.ifaces[m]? = some iface := by
  rw [DeviceIndex.iface?] at h
  by_cases hn : 0 ≤ n
  · rw [if_pos hn] at h
    exact ⟨n.toNat, (Int.toNat_of_nonneg hn).symm, h⟩
  · rw [if_neg hn] at h
    exact nomatch h

/-- An endpoint of the current interface. -/
theorem mem_handles_iff {h : Int} :
    h ∈ handles (curEps index) ↔ 0 ≤ h ∧ ∃ ep e, index.ep? ep = some e ∧ index.ifaceCur = ep.1 ∧ e.handle = h := by
  rw [handles, mem_filter, decide_eq_true_iff, and_comm, mem_map]
  refine and_congr_right fun _ => ⟨?_, ?_⟩
  · rintro ⟨e, he, rfl⟩
    rw [curEps] at he
    cases hcur : index.iface? index.ifaceCur with
    | none =>
      rw [hcur] at he
      exact absurd he not_mem_nil
    | some iface =>
      rw [hcur] at he
      obtain ⟨m, hm, hiface⟩ := exists_of_iface?_eq_some hcur
      obtain ⟨j, hj⟩ := mem_iff_getElem?.mp he
      exact ⟨(m, j), e, by rw [DeviceIndex.ep?, hiface]; exact hj, hm, rfl⟩
  · rintro ⟨ep, e, he, hcur, rfl⟩
    obtain ⟨iface, hiface, hj⟩ := Option.bind_eq_some_iff.mp he
    refine ⟨e, ?_, rfl⟩
    rw [curEps, hcur, iface?_natCast, hiface]
    exact mem_of_getElem? hj

/-- The endpoints of an index with other endpoints in one interface. -/
theorem ep?_set {m : Nat} (h : index.ifaces[m]? = some iface)
    (eps : List EpIndex) (n : Int) (ep : Nat × Nat) :
    ({ index with ifaces := index.ifaces.set m { iface with eps }, ifaceCur := n } : DeviceIndex).ep? ep =
      if ep.1 = m then eps[ep.2]? else index.ep? ep := by
  rw [DeviceIndex.ep?, DeviceIndex.ep?, getElem?_set]
  by_cases heq : ep.1 = m
  · rw [if_pos heq.symm, if_pos heq, if_pos (List.getElem?_eq_some_iff.mp h).1]
    rfl
  · rw [if_neg (Ne.symm heq), if_neg heq]

theorem given_self (s : DeviceIndex × World) (m j : Nat) :
    given s m (m, j) = if 0 ≤ s.2.results.getD j (-1) then some (s.2.results.getD j (-1)) else none :=
  if_congr (and_iff_right rfl) rfl rfl

theorem given_of_ne (s : DeviceIndex × World) {m : Nat} (h : ep.1 ≠ m) : given s m ep = none :=
  if_neg fun hg => h (Int.natCast_inj.mp hg.1).symm

theorem given_eq_some_iff {s : DeviceIndex × World} {r : Int} :
    given s n ep = some r ↔ n = ep.1 ∧ 0 ≤ r ∧ s.2.results.getD ep.2 (-1) = r := by
  rw [given]
  split
  case isTrue h => exact ⟨fun heq => ⟨h.1, Option.some.inj heq ▸ h.2, Option.some.inj heq⟩, fun heq => congrArg some heq.2.2⟩
  case isFalse h => exact ⟨nofun, fun heq => absurd ⟨heq.1, heq.2.2 ▸ heq.2.1⟩ h⟩

section

variable {s : DeviceIndex × World} (fd : Nat) (n : Int)

/-- Nothing is enabled any more when the interface has been left. -/
theorem Settled.enabled_left (h : Settled s) {e : EpIndex} (he : s.1.ep? ep = some e) :
    ((disables fd (handles (curEps s.1))).foldl Device.step (device s.2.ioctls)).enabled ep = none := by
  rw [enabled_disables, h.enabled ep e he]
  by_cases hnonneg : 0 ≤ e.handle
  · rw [if_pos hnonneg, if_pos]
    exact mem_map_of_mem (mem_handles_iff.mpr ⟨hnonneg, ep, e, he, h.only ep e he hnonneg, rfl⟩)
  · rw [if_neg hnonneg, ite_self]

theorem Settled.twice_left (h : Settled s) :
    ((disables fd (handles (curEps s.1))).foldl Device.step (device s.2.ioctls)).twice = false ↔
      (handles (curEps s.1)).Nodup := by
  rw [twice_disables]
  refine ⟨fun ht => ht.2.1, fun hnodup => ⟨h.once, hnodup, fun x hx => ?_⟩⟩
  obtain ⟨hnonneg, ep, e, he, _, rfl⟩ := mem_handles_iff.mp hx
  exact h.up ep e he hnonneg

/-- What a call leaves: an endpoint is enabled with the handle it was given, and has that handle or the one it had. -/
structure Selected (s : DeviceIndex × World) (n : Int) (s' : DeviceIndex × World) : Prop where
  ep : ∀ ep, s'.1.ep? ep = (s.1.ep? ep).map fun e => { e with handle := (given s n ep).getD e.handle }
  enabled : ∀ ep e, s.1.ep? ep = some e → (device s'.2.ioctls).enabled ep = given s n ep
  down : ∀ ep e, s.1.ep? ep = some e → ∀ h ∈ (device s'.2.ioctls).down, given s n ep ≠ some h
  twice : (device s'.2.ioctls).twice = false ↔ (handles (curEps s.1)).Nodup
  cur : ∀ ep e, s.1.ep? ep = some e → n = ep.1 → s'.1.ifaceCur = n

theorem Settled.selected (h : Settled s) : Selected s n (select fd s n) := by
  obtain ⟨index, w⟩ := s
  cases hn : index.iface? n with
  | none =>
    have hnot : ∀ {ep e}, index.ep? ep = some e → n ≠ ep.1 := fun he heq => by
      obtain ⟨iface, hiface, _⟩ := Option.bind_eq_some_iff.mp he
      rw [heq, iface?_natCast, hiface] at hn
      exact nomatch hn
    have hgiven : ∀ {ep e}, index.ep? ep = some e → given (index, w) n ep = none := fun he => if_neg fun hg => hnot he hg.1
    rw [select_none fd w hn]
    refine ⟨fun ep => ?_, fun ep e he => ?_, fun ep e he x _ hg => ?_, ?_, fun ep e he heq => absurd heq (hnot he)⟩
    · cases he : index.ep? ep with
      | none => rfl
      | some e =>
        rw [hgiven he]
        rfl
    · rw [hgiven he]
      rw [device, foldl_append]
      exact h.enabled_left fd he
    · rw [hgiven he] at hg
      exact nomatch hg
    · dsimp only
      rw [device, foldl_append]
      exact h.twice_left fd
  | some iface =>
    obtain ⟨m, rfl, hiface⟩ := exists_of_iface?_eq_some hn
    have hep : ∀ j, index.ep? (m, j) = iface.eps[j]? := fun j => by rw [DeviceIndex.ep?, hiface, Option.bind_some]
    have hlt : ∀ {j e}, index.ep? (m, j) = some e → j < iface.eps.length := fun he =>
      (List.getElem?_eq_some_iff.mp ((hep _).symm.trans he)).1
    rw [select_some fd w hn, Int.toNat_natCast]
    refine ⟨fun ep => ?_, fun ep e he => ?_, fun ep e he x hx hg => ?_, ?_, fun _ _ _ _ => rfl⟩
    · rw [ep?_set hiface]
      by_cases heq : ep.1 = m
      · obtain ⟨k, j⟩ := ep
        obtain rfl : k = m := heq
        rw [if_pos rfl, getElem?_answered, hep, given_self]
        congr 1
        funext e
        split <;> rfl
      · rw [if_neg heq, given_of_ne _ heq]
        exact Option.map_id'.symm
    · dsimp only
      rw [device, foldl_append, foldl_append]
      by_cases heq : ep.1 = m
      · obtain ⟨k, j⟩ := ep
        obtain rfl : k = m := heq
        have hplace := (enabled_enables fd k 0 w.results iface.eps ((disables fd (handles (curEps index))).foldl Device.step
          (device w.ioctls))).given j (hlt he)
        rw [Nat.zero_add, h.enabled_left fd he] at hplace
        rw [given_self]
        exact hplace
      · rw [given_of_ne _ heq]
        exact ((enabled_enables fd m 0 _ _ _).others ep (.inl heq)).trans (h.enabled_left fd he)
    · dsimp only at hx
      rw [device, foldl_append] at hx
      obtain ⟨hm, hr, rfl⟩ := given_eq_some_iff.mp hg
      obtain ⟨k, j⟩ := ep
      obtain rfl : m = k := Int.natCast_inj.mp hm
      obtain ⟨_, hnew⟩ := (enabled_enables fd m 0 w.results iface.eps _).down _ hx
      exact hnew j (hlt he) hr rfl
    · dsimp only
      rw [device, foldl_append, foldl_append, (enabled_enables fd m 0 _ _ _).twice]
      exact h.twice_left fd

/-- Every endpoint that has a handle is given one again, and no two have the same. -/
structure Again (s : DeviceIndex × World) (n : Int) : Prop where
  nodup : (handles (curEps s.1)).Nodup
  given : ∀ ep e, s.1.ep? ep = some e → 0 ≤ e.handle → n = ep.1 ∧ 0 ≤ s.2.results.getD ep.2 (-1)

/-- After a call that gives all handles again, an endpoint has the handle it was given or none. -/
theorem Selected.handle {s' : DeviceIndex × World} (h : Selected s n s') (ha : Again s n) {e' : EpIndex}
    (he' : s'.1.ep? ep = some e') :
    ∃ e, s.1.ep? ep = some e ∧ PseudoSyscalls.given s n ep = if 0 ≤ e'.handle then some e'.handle else none := by
  rw [h.ep] at he'
  obtain ⟨e, he, rfl⟩ := Option.map_eq_some_iff.mp he'
  refine ⟨e, he, ?_⟩
  cases hg : PseudoSyscalls.given s n ep with
  | some r =>
    rw [Option.getD_some, if_pos (given_eq_some_iff.mp hg).2.1]
  | none =>
    have hnot : ¬ 0 ≤ e.handle := fun hnonneg => by
      obtain ⟨hn, hr⟩ := ha.given ep e he hnonneg
      rw [given_eq_some_iff.mpr ⟨hn, hr, rfl⟩] at hg
      exact nomatch hg
    rw [Option.getD_none, if_neg hnot]

/-- A call leaves the handles right exactly if every endpoint that has one is given one again. -/
theorem Settled.tracked_iff (h : Settled s) : Tracked (select fd s n) ↔ Again s n := by
  have hsel := h.selected fd n
  constructor
  · intro ht
    refine ⟨hsel.twice.mp ht.once, fun ep e he hnonneg => ?_⟩
    have he' := hsel.ep ep
    rw [he, Option.map_some] at he'
    have henabled := ht.enabled ep _ he'
    rw [hsel.enabled ep e he] at henabled
    cases hg : PseudoSyscalls.given s n ep with
    | some r =>
      obtain ⟨hn, hr, heq⟩ := given_eq_some_iff.mp hg
      exact ⟨hn, heq ▸ hr⟩
    | none =>
      rw [hg, Option.getD_none, if_pos hnonneg] at henabled
      exact nomatch henabled
  · intro ha
    refine ⟨fun ep e' he' => ?_, hsel.twice.mpr ha.nodup⟩
    obtain ⟨e, he, hg⟩ := hsel.handle n ha he'
    rw [hsel.enabled ep e he, hg]

theorem Settled.step (h : Settled s) (ha : Again s n) : Settled (select fd s n) := by
  have hsel := h.selected fd n
  refine ⟨(h.tracked_iff fd n).mpr ha, fun ep e' he' hnonneg => ?_, fun ep e' he' hnonneg hdown => ?_⟩
  · obtain ⟨e, he, hg⟩ := hsel.handle n ha he'
    rw [if_pos hnonneg, given_eq_some_iff] at hg
    rw [hsel.cur ep e he hg.1, hg.1]
  · obtain ⟨e, he, hg⟩ := hsel.handle n ha he'
    rw [if_pos hnonneg] at hg
    exact hsel.down ep e he _ hdown hg

end

/-! ## Runs -/

/-- No endpoint has a handle. -/
def NoHandles (ifaces : List IfaceIndex) : Prop := ∀ iface ∈ ifaces, ∀ e ∈ iface.eps, e.handle = -1

theorem NoHandles.pushEp (h : NoHandles ifaces) (desc : List U8) : NoHandles (pushEp desc ifaces) := by
  rw [PseudoSyscalls.pushEp]
  cases hlast : ifaces.getLast? with
  | none => exact h
  | some iface =>
    refine forall_mem_append.mpr ⟨fun x hx => h x (mem_of_mem_dropLast hx), ?_⟩
    refine forall_mem_singleton.mpr (forall_mem_append.mpr ⟨h iface (mem_of_getLast? hlast), ?_⟩)
    exact forall_mem_singleton.mpr rfl

theorem NoHandles.pushDescriptor (h : NoHandles ifaces) (desc : List U8) : NoHandles (pushDescriptor ifaces desc) := by
  cases desc with
  | nil => exact h
  | cons len rest =>
    cases rest with
    | nil => exact h
    | cons ty rest =>
      have hiface : NoHandles
          (if ty = 0x04#8 ∧ 9 ≤ (len :: ty :: rest).length then ifaces ++ [⟨rest.headD 0#8, rest.tail.headD 0#8, []⟩]
          else ifaces) := by
        split
        · exact forall_mem_append.mpr ⟨h, forall_mem_singleton.mpr nofun⟩
        · exact h
      rw [PseudoSyscalls.pushDescriptor]
      split
      · exact hiface.pushEp _
      · exact hiface

theorem NoHandles.pushDescriptors (h : NoHandles ifaces) (skip : Nat) (buf : List U8) :
    NoHandles (pushDescriptors skip ifaces buf) := by
  induction buf generalizing skip ifaces with
  | nil => cases skip <;> exact h
  | cons len rest ih =>
    cases skip with
    | succ skip => exact ih h skip
    | zero =>
      rw [PseudoSyscalls.pushDescriptors]
      split
      · exact h
      · exact ih (h.pushDescriptor _) _

/-- A device that has been parsed, before any request. -/
theorem settled_parsed {buf : List U8} (h : parseUsbDescriptor buf = some index) {w : World}
    (hw : w.ioctls = []) : Settled (index, w) := by
  have hnone : ∀ {ep e}, index.ep? ep = some e → ¬ 0 ≤ e.handle := by
    intro ep e he
    rw [parseUsbDescriptor] at h
    split at h
    · exact nomatch h
    · obtain rfl := Option.some.inj h
      obtain ⟨iface, hiface, hj⟩ := Option.bind_eq_some_iff.mp he
      have hparsed : NoHandles (pushDescriptors 0 [] buf) := NoHandles.pushDescriptors (fun _ hmem => absurd hmem not_mem_nil) 0 buf
      rw [hparsed iface (mem_of_getElem? hiface) e (mem_of_getElem? hj)]
      decide
  refine ⟨⟨fun ep e he => ?_, ?_⟩, fun ep e he hnonneg => absurd hnonneg (hnone he),
    fun ep e he hnonneg => absurd hnonneg (hnone he)⟩
  · rw [if_neg (hnone he)]
    rw [hw]
    rfl
  · dsimp only
    rw [hw]
    rfl

/-- After each of a sequence of calls the handles are those of the endpoints that are enabled, and none has been disabled
twice, exactly if every call gives a handle again to each endpoint that has one. -/
theorem handles_track_iff {buf : List U8} {index : DeviceIndex} (h : parseUsbDescriptor buf = some index) {w : World}
    (hw : w.ioctls = []) (fd : Nat) (ns : List Int) :
    (∀ ms, ms <+: ns → Tracked (ms.foldl (select fd) (index, w))) ↔
      ∀ ms n, ms ++ [n] <+: ns → Again (ms.foldl (select fd) (index, w)) n :=
  forall_prefix_iff (fun _ hs => hs.toTracked) (fun _ n hs ha => hs.step fd n ha)
    (fun _ n hs hnot ht => hnot ((hs.tracked_iff fd n).mp ht)) (settled_parsed h hw) ns

/-- A device with an endpoint in its first interface and none in its second. -/
def twoInterfaces : List U8 :=
  [18#8, 1#8] ++ List.replicate 16 0#8 ++ [9#8, 2#8] ++ List.replicate 7 0#8 ++ [9#8, 4#8] ++ List.replicate 7 0#8 ++
    [7#8, 5#8] ++ List.replicate 5 0#8 ++ [9#8, 4#8, 1#8] ++ List.replicate 6 0#8

/-- The kernel before any request, with the results it will give. -/
def answering (results : List Int) : World := ⟨0, [], [], results, []⟩

def twoInterfacesIndex : DeviceIndex :=
  { dev := [18#8, 1#8] ++ List.replicate 16 0#8
    config := twoInterfaces.drop 18
    bMaxPower := 0#8
    ifaces := [⟨0#8, 0#8, [⟨[7#8, 5#8] ++ List.replicate 7 0#8, -1⟩]⟩, ⟨1#8, 0#8, []⟩]
    ifaceCur := -1 }

theorem parse_twoInterfaces : parseUsbDescriptor twoInterfaces = some twoInterfacesIndex := by decide

/-- The same interface is selected again. -/
theorem handles_track_same :
    parseUsbDescriptor twoInterfaces = some twoInterfacesIndex ∧
      ∀ ms, ms <+: [0, 0] → Tracked (ms.foldl (select 5) (twoInterfacesIndex, answering [3, 4])) := by
  -- There is one endpoint, which is given the handles 3 and 4.
  have hone : ∀ {s : DeviceIndex × World}, (handles (curEps s.1)).Nodup →
      (∀ j, s.1.ep? (0, j + 1) = none) → (∀ j, s.1.ep? (1, j) = none) → (∀ i j, s.1.ep? (i + 2, j) = none) →
      0 ≤ s.2.results.getD 0 (-1) → Again s 0 := by
    intro s hnodup hfirst hsecond hothers hr
    refine ⟨hnodup, fun ep e he _ => ?_⟩
    obtain ⟨_ | _ | i, _ | j⟩ := ep
    · exact ⟨rfl, hr⟩
    · exact absurd ((hfirst j).symm.trans he) nofun
    · exact absurd ((hsecond 0).symm.trans he) nofun
    · exact absurd ((hsecond (j + 1)).symm.trans he) nofun
    · exact absurd ((hothers i 0).symm.trans he) nofun
    · exact absurd ((hothers i (j + 1)).symm.trans he) nofun
  refine ⟨parse_twoInterfaces, (handles_track_iff parse_twoInterfaces rfl 5 [0, 0]).mpr fun ms n hms => ?_⟩
  cases ms with
  | nil =>
    obtain ⟨rfl, _⟩ := cons_prefix_cons.mp hms
    exact hone nodup_nil (fun _ => rfl) (fun _ => rfl) (fun _ _ => rfl) (by decide)
  | cons m ms =>
    obtain ⟨rfl, hrest⟩ := cons_prefix_cons.mp hms
    cases ms with
    | nil =>
      obtain ⟨rfl, _⟩ := cons_prefix_cons.mp hrest
      exact hone (nodup_singleton 3) (fun _ => rfl) (fun _ => rfl) (fun _ _ => rfl) (by decide)
    | cons m ms =>
      obtain ⟨_, hmore⟩ := cons_prefix_cons.mp hrest
      exact (not_round_nil hmore).elim

/-- The first interface is left, and entered once more where the endpoint cannot be enabled: its handle is not that of an
endpoint that is enabled, and is disabled twice. -/
theorem handles_stale :
    let left := [0, 1].foldl (select 5) (twoInterfacesIndex, answering [3, -1])
    let again := [0, 1, 0, 1].foldl (select 5) (twoInterfacesIndex, answering [3, -1])
    parseUsbDescriptor twoInterfaces = some twoInterfacesIndex ∧ (left.1.ep? (0, 0)).map (·.handle) = some 3 ∧
      (device left.2.ioctls).enabled (0, 0) = none ∧ (device again.2.ioctls).twice = true :=
  ⟨parse_twoInterfaces, rfl, rfl, rfl⟩

end Vock.Fuzz.PseudoSyscalls
