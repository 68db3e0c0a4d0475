import Vock.Laws.Pt.Walk
import Vock.Laws.Pt.Window

/-!
# Cutting the outcomes into packets

A TNT payload that arrives replaces the outcomes still pending, enters the walk anew, and does
neither at IP 0. So where a list of outcomes is cut into packets matters, unless every packet but
the first finds the walk `Ready`: nothing pending, the text base where the correction leaves it, and
no way on from IP 0. `cuts_agree_iff` says so in both directions: for the list and its prefixes all
cuts agree exactly when, one outcome to a packet, every packet but the first finds the walk ready.
-/

namespace Vock.Pt

open Library StateTransition Relation PtDecoder List

variable {w e f f' : Walker} {base ip : U64} {os : List Bool} {text : List U8} {y : Bool}
  {os' : List Bool} {split : List (List Bool)} {v : Walker}

namespace Walker

/-! ## The queue grows at its end -/

/-- More outcomes behind the pending ones. -/
def append (w : Walker) (os : List Bool) : Walker := { w with pending := w.pending ++ os }

/-- The rounds a walk can take. -/
theorem step_cases {w' : Walker} (h : w.step = some w') :
    ∃ o os, w.pending = o :: os ∧
      ((follow w.text w.base w.ip = some w'.ip ∧ w'.pending = w.pending) ∨
        ((∃ taken fall, flowAt w.text w.base w.ip = .cond taken fall) ∧ w'.pending = os)) ∧
      w'.text = w.text ∧ w'.base = w.base := by
  unfold Walker.step at h
  cases hp : w.pending with
  | nil => rw [hp] at h; cases h
  | cons o os =>
    rw [hp] at h
    refine ⟨o, os, rfl, ?_⟩
    cases hf : flowAt w.text w.base w.ip with
    | leave => rw [hf] at h; cases h
    | next ip | jump ip =>
      rw [hf] at h
      cases h
      exact ⟨.inl ⟨by rw [follow, hf], rfl⟩, rfl, rfl⟩
    | cond taken fall =>
      rw [hf] at h
      cases h
      exact ⟨.inr ⟨⟨taken, fall, rfl⟩, rfl⟩, rfl, rfl⟩

/-- A walk with outcomes pending is over only where the text cannot be followed. -/
theorem leave_of_step_none (h : w.step = none) (pending : w.pending ≠ []) : flowAt w.text w.base w.ip = .leave := by
  unfold Walker.step at h
  cases hp : w.pending with
  | nil => exact absurd hp pending
  | cons o os =>
    rw [hp] at h
    cases hf : flowAt w.text w.base w.ip with
    | leave => rfl
    | next ip | jump ip | cond taken fall => rw [hf] at h; cases h

theorem step_of_leave (h : flowAt w.text w.base w.ip = .leave) : w.step = none := by
  unfold Walker.step
  cases w.pending with
  | nil => rfl
  | cons o os => rw [h]

theorem step_append (os : List Bool) (w w' : Walker) (h : w.step = some w') :
    (w.append os).step = some (w'.append os) := by
  unfold Walker.step at h ⊢
  cases hp : w.pending with
  | nil => rw [hp] at h; cases h
  | cons o rest =>
    rw [hp] at h
    rw [show (w.append os).pending = o :: (rest ++ os) from congrArg (· ++ os) hp]
    have same : flowAt (w.append os).text (w.append os).base (w.append os).ip =
        flowAt w.text w.base w.ip := rfl
    rw [same]
    cases hf : flowAt w.text w.base w.ip with
    | leave => rw [hf] at h; cases h
    | next ip | jump ip => rw [hf] at h; cases h; rw [append]; rfl
    | cond taken fall => rw [hf] at h; cases h; rfl

/-- Outcomes behind the pending ones are walked after them. -/
theorem eval_append (w : Walker) (os : List Bool) :
    eval Walker.step (w.append os) =
      (eval Walker.step w).bind fun e => eval Walker.step (e.append os) :=
  eval_extend (fun w => w.append os) (step_append os) w

/-- What a walk leaves alone, and that it takes outcomes from the front. -/
theorem walk_keeps (h : Reaches Walker.step w e) : e.text = w.text ∧ e.base = w.base ∧ e.pending <:+ w.pending := by
  refine reaches_invariant (P := fun e : Walker => e.text = w.text ∧ e.base = w.base ∧
    e.pending <:+ w.pending) ?_ h ⟨rfl, rfl, suffix_rfl⟩
  rintro s s' ⟨htext, hbase, hsuffix⟩ hstep
  obtain ⟨o, os, hp, hcases, htext', hbase'⟩ := step_cases hstep
  refine ⟨htext'.trans htext, hbase'.trans hbase, ?_⟩
  rcases hcases with ⟨-, hsame⟩ | ⟨-, htail⟩
  · rw [hsame]
    exact hsuffix
  · rw [htail]
    rw [hp] at hsuffix
    exact (suffix_cons o os).trans hsuffix

/-! ## A walk that is ready for more -/

/-- The next packet of outcomes finds none pending, leaves the text base as it is, and does not
find an IP of 0 that could be followed. -/
structure Ready (w : Walker) : Prop where
  drained : w.pending = []
  stays : ¬ Moves w.text w.base w.ip
  zero : w.ip = 0#64 → flowAt w.text w.base 0#64 = .leave

/-- At a ready walk a packet of outcomes is walked on from where it stands. -/
theorem load_ready (ready : w.Ready) (os : List Bool) : w.load os = eval Walker.step (w.append os) := by
  have happend : w.append os = { w with pending := os } := by
    rw [append, ready.drained, nil_append]
  rw [load, happend]
  by_cases hip : w.ip = 0#64
  · rw [if_pos hip]
    have hstuck : Walker.step { w with pending := os } = none :=
      step_of_leave (by rw [hip]; exact ready.zero hip)
    exact (Part.eq_some_iff.mpr (mem_eval.mpr ⟨.refl, hstuck⟩)).symm
  · rw [if_neg hip, walk, corrected_of_not_moves ready.stays]

theorem load_keeps (h : e ∈ w.load os) : e.text = w.text ∧ e.pending <:+ os := by
  rw [load] at h
  split at h
  · obtain rfl := Part.mem_some_iff.mp h
    exact ⟨rfl, suffix_rfl⟩
  · obtain ⟨htext, -, hsuffix⟩ := walk_keeps (mem_eval.mp h).1
    exact ⟨htext, hsuffix⟩

/-- Two payloads in one: the second is walked on from where the first ends. -/
theorem load_append (hip : w.ip ≠ 0#64) (xs ys : List Bool) :
    w.load (xs ++ ys) = (w.load xs).bind fun e => eval Walker.step (e.append ys) := by
  rw [load, load, if_neg hip, if_neg hip]
  exact eval_append { w with pending := xs, base := corrected w.text w.base w.ip } ys

/-- Wherever the outcomes could be cut, the walk over what comes before is ready. -/
def Settled (w : Walker) (os : List Bool) : Prop :=
  ∀ xs y ys, os = xs ++ y :: ys → xs ≠ [] → ∀ e ∈ w.load xs, e.Ready

theorem Settled.ip_ne {xs : List Bool} (nonempty : xs ≠ []) (ready : ∀ e ∈ w.load xs, e.Ready) : w.ip ≠ 0#64 := by
  intro hip
  have hmem : { w with pending := xs } ∈ w.load xs := by
    rw [load, if_pos hip]
    exact Part.mem_some _
  exact nonempty (ready _ hmem).drained

/-- Then any cut is as good as none. -/
theorem loadAll_eq (settled : w.Settled split.flatten)
    (nonempty : ∀ p ∈ split, p ≠ []) (atLeastOne : split ≠ []) : w.loadAll split = w.load split.flatten := by
  induction split generalizing w with
  | nil => exact absurd rfl atLeastOne
  | cons p rest ih =>
    cases rest with
    | nil =>
      rw [flatten_cons, flatten_nil, append_nil]
      exact Part.bind_some_right _
    | cons q rest =>
      have hp := nonempty p (mem_cons_self ..)
      have hq := nonempty q (mem_cons_of_mem _ (mem_cons_self ..))
      obtain ⟨y, ys, hys⟩ : ∃ y ys, (q :: rest).flatten = y :: ys := by
        obtain ⟨y, q', rfl⟩ := exists_cons_of_ne_nil hq
        exact ⟨y, q' ++ rest.flatten, rfl⟩
      have ready : ∀ e ∈ w.load p, e.Ready :=
        settled p y ys (by rw [flatten_cons, hys]) hp
      have hip := Settled.ip_ne hp ready
      rw [flatten_cons, load_append hip]
      refine bind_congr_mem fun e he => ?_
      rw [← load_ready (ready e he)]
      refine ih ?_ (fun r hr => nonempty r (mem_cons_of_mem _ hr)) (cons_ne_nil _ _)
      -- a cut further on is one of the whole list
      intro xs' y' ys' hcut hne f hf
      refine settled (p ++ xs') y' ys' ?_ (append_ne_nil_of_left_ne_nil hp _) f ?_
      · rw [flatten_cons, hcut, append_assoc]
      · rw [load_append hip, Part.mem_bind_iff]
        refine ⟨e, he, ?_⟩
        rw [← load_ready (ready e he)]
        exact hf

/-- One outcome to a packet. -/
def singles (os : List Bool) : List (List Bool) := os.map fun o => [o]

theorem flatten_singles (os : List Bool) : (singles os).flatten = os := by
  exact flatMap_singleton' os

theorem singles_sizes (os : List Bool) : ∀ p ∈ singles os, p ≠ [] ∧ p.length ≤ 47 := by
  intro p hp
  obtain ⟨o, -, rfl⟩ := mem_map.mp hp
  exact ⟨cons_ne_nil _ _, show 1 ≤ 47 by decide⟩

/-- One outcome to a packet, every packet but the first finds the walk ready. -/
def Drained (w : Walker) (os : List Bool) : Prop :=
  ∀ xs y ys, os = xs ++ y :: ys → xs ≠ [] → ∀ e ∈ w.loadAll (singles xs), e.Ready

theorem Drained.settled (h : w.Drained os) : w.Settled os := by
  intro xs
  -- on the length of what comes before the cut: shorter cuts make it one load
  induction hn : xs.length using Nat.strong_induction_on generalizing xs with
  | _ n ih =>
    intro y ys hcut hne e he
    have before : w.Settled (singles xs).flatten := by
      rw [flatten_singles]
      intro xs' y' ys' hcut' hne' f hf
      refine ih xs'.length ?_ xs' rfl y' (ys' ++ y :: ys) ?_ hne' f hf
      · rw [← hn, hcut', length_append, length_cons]
        omega
      · rw [hcut, hcut', append_assoc]
        rfl
    have hsome : singles xs ≠ [] := by
      rw [singles, ne_eq, map_eq_nil_iff]
      exact hne
    refine h xs y ys hcut hne e ?_
    rw [loadAll_eq before (fun p hp => (singles_sizes xs p hp).1) hsome, flatten_singles]
    exact he

theorem Settled.of_append (h : w.Settled (os ++ os')) : w.Settled os := by
  intro xs y ys hcut
  exact h xs y (ys ++ os') (by rw [hcut, append_assoc]; rfl)

/-! ## Where a walk takes an outcome -/

/-- From the address the text can be followed to a conditional branch. -/
def Live (text : List U8) (base ip : U64) : Prop :=
  ∃ ip', Reaches (follow text base) ip ip' ∧ ∃ taken fall, flowAt text base ip' = .cond taken fall

theorem reaches_of_none {ip' : U64} (h : follow text base ip = none)
    (hreach : Reaches (follow text base) ip ip') : ip' = ip := by
  rcases ReflTransGen.cases_head hreach with heq | ⟨next, hstep, -⟩
  · exact heq.symm
  · rw [Option.mem_def.mp hstep] at h
    cases h

/-- A walk with one outcome takes it exactly where it starts live. -/
theorem taken_iff_live {o : Bool} (one : w.pending = [o])
    (he : e ∈ eval Walker.step w) : e.pending = [] ↔ Live w.text w.base w.ip := by
  obtain ⟨hreach, hnone⟩ := mem_eval.mp he
  have along := reaches_invariant (P := fun e : Walker => (e.text = w.text ∧ e.base = w.base) ∧
      ((e.pending = [o] ∧ Reaches (follow w.text w.base) w.ip e.ip) ∨
        (e.pending = [] ∧ Live w.text w.base w.ip))) ?_ hreach ⟨⟨rfl, rfl⟩, .inl ⟨one, .refl⟩⟩
  · obtain ⟨⟨htext, hbase⟩, ⟨hone, hip⟩ | ⟨hnil, live⟩⟩ := along
    · refine ⟨fun hnil => ?_, fun live => ?_⟩
      · rw [hnil] at hone
        cases hone
      · -- it ended where the text leaves, and the branch is elsewhere on the same path
        exfalso
        have hleave := leave_of_step_none hnone (by rw [hone]; exact cons_ne_nil _ _)
        rw [htext, hbase] at hleave
        obtain ⟨ip', hip', taken, fall, hcond⟩ := live
        have hend : follow w.text w.base e.ip = none := by rw [follow, hleave]
        have hend' : follow w.text w.base ip' = none := by rw [follow, hcond]
        have heq : ip' = e.ip := by
          rcases reaches_total hip hip' with h | h
          · exact reaches_of_none hend h
          · exact (reaches_of_none hend' h).symm
        rw [heq, hleave] at hcond
        cases hcond
    · exact ⟨fun _ => live, fun _ => hnil⟩
  · rintro s s' ⟨⟨htext, hbase⟩, hs⟩ hstep
    obtain ⟨o', os', hp, hcases, htext', hbase'⟩ := step_cases hstep
    refine ⟨⟨htext'.trans htext, hbase'.trans hbase⟩, ?_⟩
    rw [htext, hbase] at hcases
    rcases hs with ⟨hone, hip⟩ | ⟨hnil, -⟩
    · rcases hcases with ⟨hfollow, hsame⟩ | ⟨hcond, htail⟩
      · exact .inl ⟨hsame.trans hone, hip.tail hfollow⟩
      · rw [hone] at hp
        cases hp
        exact .inr ⟨htail, s.ip, hip, hcond⟩
    · rw [hnil] at hp
      cases hp

theorem Live.inText (live : Live text base ip) : InText text base ip := by
  obtain ⟨ip', hreach, taken, fall, hcond⟩ := live
  rcases ReflTransGen.cases_head hreach with rfl | ⟨next, hstep, -⟩
  · by_contra hout
    rw [flowAt, if_neg hout] at hcond
    cases hcond
  · exact inText_of_follow hstep

theorem live_shift (δ : U64) (fits : base.toNat + span text < 2 ^ 64)
    (fits' : (base + δ).toNat + span text < 2 ^ 64) (live : Live text base ip) :
    Live text (base + δ) (ip + δ) := by
  obtain ⟨ip', hreach, taken, fall, hcond⟩ := live
  refine ⟨ip' + δ, ?_, taken + δ, fall + δ, ?_⟩
  · refine ReflTransGen.lift (· + δ) ?_ _ _ hreach
    intro a b hab
    show follow text (base + δ) (a + δ) = some (b + δ)
    rw [follow_shift fits fits', Option.mem_def.mp hab]
    rfl
  · rw [flowAt_shift fits fits', hcond]
    rfl

/-- With a live address at a base there is one that is not live at any higher base: the lowest. -/
theorem exists_lowest_live (live : Live text base ip) :
    ∃ a, Live text base a ∧ ∀ base', base < base' → ¬ Live text base' a := by
  classical
  have offset : ∀ b a : U64, a = b + BitVec.ofNat 64 (above b a) := by
    intro b a
    rw [above]
    bv_omega
  have hex : ∃ n, Live text base (base + BitVec.ofNat 64 n) := ⟨above base ip, offset base ip ▸ live⟩
  obtain ⟨n, hlive, hmin⟩ : ∃ n, Live text base (base + BitVec.ofNat 64 n) ∧
      ∀ m, Live text base (base + BitVec.ofNat 64 m) → n ≤ m :=
    ⟨Nat.find hex, Nat.find_spec hex, fun m => Nat.find_min' hex⟩
  refine ⟨base + BitVec.ofNat 64 n, hlive, fun base' hlt live' => ?_⟩
  have hn : n < 2 ^ 64 :=
    Nat.lt_of_le_of_lt (hmin _ (offset base ip ▸ live)) (ip - base).isLt
  generalize ha : base + BitVec.ofNat 64 n = a at hlive live'
  have hback : base' + (base - base') = base := by bv_omega
  -- moved down by the difference of the bases it is a lower live address
  have hshift : Live text base (base + BitVec.ofNat 64 (above base' a)) := by
    have fits := ((inText_iff _ _ _).mp hlive.inText).1
    have fits' := ((inText_iff _ _ _).mp live'.inText).1
    have hmoved := live_shift (base - base') fits' (by rw [hback]; exact fits) live'
    have hto : a + (base - base') = base + BitVec.ofNat 64 (above base' a) := by
      have := offset base' a
      bv_omega
    rwa [hback, hto] at hmoved
  have hless : above base' a < n := by
    have hdist : above base a = n := by
      rw [above]
      bv_omega
    rw [above_of_le live'.inText.1]
    rw [above_of_le hlive.inText.1] at hdist
    have hle := live'.inText.1
    rw [BitVec.le_def] at hle
    rw [BitVec.lt_def] at hlt
    omega
  exact absurd (hmin _ hshift) (Nat.not_le.mpr hless)

/-! ## Where two cuts of a pair agree -/

/-- Two walks end alike. -/
def SameEnd (e e' : Walker) : Prop := e.ip = e'.ip ∧ e.out = e'.out ∧ e.pending = e'.pending

theorem corrected_le (text : List U8) (base ip : U64) : base ≤ corrected text base ip := by
  by_cases hmoves : Moves text base ip
  · have hbound := (correctKaslr_bounds
      (d := { text, textVaddr := base, trace := [], ip }) hmoves).1
    exact Nat.le_trans (Nat.le_add_right _ _) hbound
  · simp only [corrected_of_not_moves hmoves, BitVec.le_refl]

theorem lt_corrected (hmoves : Moves text base ip) : base < corrected text base ip := by
  have hbound := (correctKaslr_bounds (d := { text, textVaddr := base, trace := [], ip }) hmoves).1
  exact Nat.lt_of_lt_of_le (Nat.lt_add_of_pos_right (by decide)) hbound

theorem leave_of_moves (hmoves : Moves text base ip) : flowAt text base ip = .leave := by
  have hout : ¬ InText text base ip := fun inside => not_moves_of_inText inside hmoves
  rw [flowAt, if_neg hout]

/-- A TIP with a full address. -/
def fullTip (a : U64) : IpPacket := ⟨.tip, .full, ⟨leBytes 8 a, length_leBytes 8 a⟩⟩

theorem takeIp_fullTip (pending : w.pending ≠ []) (a : U64) :
    w.takeIp (some (fullTip a)) =
      Walker.walk { w with ip := a, out := w.out ++ (emitted a).map (⟨.packet, ·⟩) } := by
  have hip : ipUpdate IpCode.full.enc (leValue (leBytes 8 a)) w.ip = a := leValue_leBytes_eight a
  unfold takeIp
  dsimp only [fullTip]
  rw [if_neg (by decide), hip, if_neg pending]

/-- With the same outcome pending at two bases, a TIP to an address that is live at the lower base and
at none above tells them apart. -/
theorem fullTip_tells {a b : U64} (ends : ∀ u : Walker, u.text = e.text →
      u.pending.length ≤ 2 → (eval Walker.step u).Dom)
    (live : Live e.text e.base a) (higher : ∀ b', e.base < b' → ¬ Live e.text b' a) (hb : e.base < b)
    (agree : ∀ g ∈ Walker.takeIp { e with base := b, pending := [y] } (some (fullTip a)),
      ∀ g' ∈ Walker.takeIp { e with pending := [y] } (some (fullTip a)), SameEnd g g') : False := by
  rw [takeIp_fullTip (cons_ne_nil _ _), takeIp_fullTip (cons_ne_nil _ _)] at agree
  obtain ⟨g, hg⟩ := Part.dom_iff_mem.mp (ends
    { e with ip := a, pending := [y], out := e.out ++ (emitted a).map (⟨.packet, ·⟩),
             base := corrected e.text b a } rfl (show 1 ≤ 2 by decide))
  obtain ⟨g', hg'⟩ := Part.dom_iff_mem.mp (ends
    { e with ip := a, pending := [y], out := e.out ++ (emitted a).map (⟨.packet, ·⟩),
             base := corrected e.text e.base a } rfl (show 1 ≤ 2 by decide))
  obtain ⟨-, -, hsame⟩ := agree g hg g' hg'
  have htaken' : g'.pending = [] := by
    rw [taken_iff_live rfl hg', corrected_of_not_moves (not_moves_of_inText live.inText)]
    exact live
  have hlive := (taken_iff_live rfl hg).mp (hsame.trans htaken')
  refine higher _ ?_ hlive
  have hle := corrected_le e.text b a
  exact Nat.lt_of_lt_of_le hb hle

/-- At IP 0 a packet of outcomes replaces the one before it. -/
theorem ip_ne_zero_of_sameEnd {x : Bool} (he : e ∈ v.load [x])
    (same : ∀ f ∈ e.load [y], ∀ f' ∈ v.load [x, y], SameEnd f f') : v.ip ≠ 0#64 := by
  intro hip
  have hload : ∀ u : Walker, u.ip = 0#64 → ∀ os, { u with pending := os } ∈ u.load os := by
    intro u hu os
    rw [load, if_pos hu]
    exact Part.mem_some _
  rw [load, if_pos hip] at he
  obtain rfl := Part.mem_some_iff.mp he
  obtain ⟨-, -, hpend⟩ := same _ (hload _ hip [y]) _ (hload v hip [x, y])
  exact absurd (show 1 = 2 from congrArg length hpend) (by decide)

/-- With an outcome left over, one packet leaves two pending and two packets at most one. -/
theorem drained_of_sameEnd (hstop : e.step = none) (hf : f ∈ e.load [y])
    (hf' : f' ∈ eval Walker.step (e.append [y])) (same : SameEnd f f') : e.pending = [] := by
  by_contra hne
  have hleave := leave_of_step_none hstop hne
  have hstuck : (e.append [y]).step = none := step_of_leave hleave
  obtain rfl : f' = e.append [y] := Part.mem_unique hf' (mem_eval.mpr ⟨.refl, hstuck⟩)
  have hone : f.pending.length ≤ 1 := (load_keeps hf).2.length_le
  have hpos := length_pos_iff.mpr hne
  rw [same.2.2, append, length_append, length_singleton] at hone
  omega

/-- If the base moved between the packets, they would end at the same place over another base, and an
IP packet would tell. -/
theorem not_moves_of_agree {a : U64} (ends : ∀ u : Walker,
      u.text = e.text → u.pending.length ≤ 2 → (eval Walker.step u).Dom)
    (hlive : Live e.text e.base a) (hf : f ∈ e.load [y])
    (hf' : f' ∈ eval Walker.step { e with pending := [y] }) (same : SameEnd f f')
    (agree : ∀ last, ∀ g ∈ f.takeIp last, ∀ g' ∈ f'.takeIp last, SameEnd g g') :
    ¬ Moves e.text e.base e.ip := by
  intro hmoves
  have hne : e.ip ≠ 0#64 := by
    intro hzero
    have hk := hmoves.kernel
    rw [hzero] at hk
    exact absurd hk (by decide)
  have hstuck : Walker.step { e with pending := [y] } = none := step_of_leave (leave_of_moves hmoves)
  obtain rfl : f' = { e with pending := [y] } := Part.mem_unique hf' (mem_eval.mpr ⟨.refl, hstuck⟩)
  rw [load, if_neg hne] at hf
  obtain ⟨hftext, hfbase, -⟩ := walk_keeps (mem_eval.mp hf).1
  obtain ⟨hip, hout, hpend⟩ := same
  have hfeq : f = { e with base := corrected e.text e.base e.ip, pending := [y] } := by
    cases f
    cases hip
    cases hout
    cases hpend
    cases hftext
    cases hfbase
    rfl
  obtain ⟨b, live, higher⟩ := exists_lowest_live hlive
  subst hfeq
  exact fullTip_tells ends live higher (lt_corrected hmoves) (agree (some (fullTip b)))

/-- Two packets leave the second outcome pending at IP 0; one packet that walked on from there would
end elsewhere. -/
theorem leave_of_sameEnd (hf : f ∈ e.load [y])
    (hf' : f' ∈ eval Walker.step { e with pending := [y] }) (same : SameEnd f f')
    (hzero : e.ip = 0#64) : flowAt e.text e.base 0#64 = .leave := by
  obtain ⟨hreach, hstop⟩ := mem_eval.mp hf'
  obtain ⟨htext, hbase, -⟩ := walk_keeps hreach
  obtain ⟨hip, -, hpend⟩ := same
  rw [load, if_pos hzero] at hf
  obtain rfl := Part.mem_some_iff.mp hf
  have hleave := leave_of_step_none hstop (by rw [← hpend]; exact cons_ne_nil _ _)
  rw [htext, hbase, ← hip] at hleave
  rw [← hzero]
  exact hleave

/-- If the outcomes `x` and `y` may come in one packet or in two, whatever IP packet follows, the walk
over `x` is ready for `y`. -/
theorem ready_of_agree {x : Bool} (ends : ∀ u : Walker, u.text = v.text →
      u.pending.length ≤ 2 → (eval Walker.step u).Dom) (he : e ∈ v.load [x])
    (agree : ∀ last, ∀ g ∈ (e.load [y]).bind fun f => f.takeIp last,
      ∀ g' ∈ (v.load [x, y]).bind fun f => f.takeIp last, SameEnd g g') : e.Ready := by
  have alone : ∀ f ∈ e.load [y], ∀ f' ∈ v.load [x, y], SameEnd f f' := by
    intro f hf f' hf'
    exact agree none f (Part.mem_bind hf (Part.mem_some f)) f' (Part.mem_bind hf' (Part.mem_some f'))
  have hv := ip_ne_zero_of_sameEnd he alone
  have hwalk := he
  rw [load, if_neg hv] at hwalk
  obtain ⟨hreach, hstop⟩ := mem_eval.mp hwalk
  obtain ⟨htext, hbase, hsuffix⟩ := walk_keeps hreach
  have hshort : (e.append [y]).pending.length ≤ 2 := by
    have := hsuffix.length_le
    rw [append, length_append]
    exact Nat.succ_le_succ this
  -- the end of the walk over both outcomes, and of the one over the second packet
  obtain ⟨f', hf'⟩ := Part.dom_iff_mem.mp (ends (e.append [y]) htext hshort)
  have hpair : f' ∈ v.load [x, y] := by
    rw [show [x, y] = [x] ++ [y] from rfl, load_append hv]
    exact Part.mem_bind he hf'
  obtain ⟨f, hf⟩ : ∃ f, f ∈ e.load [y] := by
    rw [load]
    split
    · exact ⟨_, Part.mem_some _⟩
    · exact Part.dom_iff_mem.mp (ends _ htext (show 1 ≤ 2 by decide))
  have same := alone f hf f' hpair
  have drained := drained_of_sameEnd hstop hf hf' same
  rw [append, drained] at hf'
  have hlive : Live e.text e.base v.ip := by
    rw [htext, hbase]
    exact (taken_iff_live rfl hwalk).mp drained
  refine ⟨drained, ?_, leave_of_sameEnd hf hf' same⟩
  refine not_moves_of_agree (fun u hu => ends u (hu.trans htext)) hlive hf hf' same ?_
  intro last g hg g' hg'
  exact agree last g (Part.mem_bind hf hg) g' (Part.mem_bind hpair hg')

/-! ## Whole lists -/

theorem loadAll_append (w : Walker) (split split' : List (List Bool)) :
    w.loadAll (split ++ split') = (w.loadAll split).bind fun e => e.loadAll split' := by
  induction split generalizing w with
  | nil => exact (Part.bind_some w fun e => e.loadAll split').symm
  | cons p split ih =>
    rw [cons_append, loadAll, loadAll, Part.bind_assoc]
    exact bind_congr_mem fun e _ => ih e

theorem loadAll_one (w : Walker) (os : List Bool) : w.loadAll [os] = w.load os :=
  Part.bind_some_right _

theorem loadAll_text (h : e ∈ w.loadAll split) : e.text = w.text := by
  induction split generalizing w with
  | nil => rw [Part.mem_some_iff.mp h]
  | cons p split ih =>
    obtain ⟨v, hv, he⟩ := Part.mem_bind_iff.mp h
    exact (ih he).trans (load_keeps hv).1

/-- However the outcomes are cut, with or without an IP packet after them, the walks end alike. -/
def LoadsAgree (w : Walker) (os : List Bool) : Prop :=
  ∀ split split', IsSplit os split → IsSplit os split' → ∀ last,
    ∀ e ∈ (w.loadAll split).bind fun f => f.takeIp last,
      ∀ e' ∈ (w.loadAll split').bind fun f => f.takeIp last, SameEnd e e'

theorem loadsAgree_of_settled (settled : w.Settled os) : w.LoadsAgree os := by
  intro split split' h h' last e he e' he'
  have all : ∀ s, IsSplit os s → os ≠ [] → w.loadAll s = w.load os := by
    intro s hs hne
    have hjoin := hs.joins
    rw [← hjoin] at settled ⊢
    refine loadAll_eq settled (fun p hp => (hs.sizes p hp).1) ?_
    rintro rfl
    exact hne hjoin.symm
  have same : w.loadAll split = w.loadAll split' := by
    by_cases hne : os = []
    · have hnil : ∀ s, IsSplit os s → s = [] := by
        intro s hs
        cases s with
        | nil => rfl
        | cons p s =>
          have hjoin := hs.joins
          rw [hne, flatten_cons, append_eq_nil_iff] at hjoin
          exact absurd hjoin.1 (hs.sizes p (mem_cons_self ..)).1
      rw [hnil split h, hnil split' h']
    · rw [all split h hne, all split' h' hne]
  rw [same] at he
  rw [Part.mem_unique he he']
  exact ⟨rfl, rfl, rfl⟩

theorem isSplit_append {s s' : List (List Bool)} (h : IsSplit os s)
    (h' : IsSplit os' s') : IsSplit (os ++ os') (s ++ s') := by
  refine ⟨by rw [flatten_append, h.1, h'.1], fun p hp => ?_⟩
  rcases mem_append.mp hp with hp | hp
  · exact h.2 p hp
  · exact h'.2 p hp

theorem drained_of_agree (ends : ∀ u : Walker, u.text = w.text →
      u.pending.length ≤ 2 → (eval Walker.step u).Dom)
    (agree : ∀ os', os' <+: os → w.LoadsAgree os') : w.Drained os := by
  intro xs y ys hcut hne e he
  obtain rfl | ⟨zs, x, rfl⟩ := eq_nil_or_concat xs
  · exact absurd rfl hne
  have hsingles : singles (zs ++ [x]) = singles zs ++ [[x]] := map_append
  rw [concat_eq_append, hsingles, loadAll_append] at he
  obtain ⟨v, hv, he⟩ := Part.mem_bind_iff.mp he
  rw [loadAll_one] at he
  have hprefix : zs ++ [x, y] <+: os := by
    refine ⟨ys, ?_⟩
    rw [hcut, concat_eq_append, append_assoc, append_assoc]
    rfl
  have before : IsSplit zs (singles zs) := ⟨flatten_singles zs, singles_sizes zs⟩
  have two : IsSplit (zs ++ [x, y]) (singles zs ++ [[x], [y]]) :=
    isSplit_append before ⟨rfl, by simp⟩
  have one : IsSplit (zs ++ [x, y]) (singles zs ++ [[x, y]]) :=
    isSplit_append before ⟨rfl, by simp⟩
  refine ready_of_agree (fun u hu => ends u (hu.trans (loadAll_text hv))) he (y := y) ?_
  intro last g hg g' hg'
  refine agree _ hprefix _ _ two one last g ?_ g' ?_
  · rw [loadAll_append, Part.bind_assoc]
    refine Part.mem_bind hv ?_
    rw [loadAll, Part.bind_assoc]
    refine Part.mem_bind he ?_
    rw [loadAll_one]
    exact hg
  · rw [loadAll_append, Part.bind_assoc]
    refine Part.mem_bind hv ?_
    rw [loadAll_one]
    exact hg'

end Walker

/-! ## The decoder -/

theorem cutsAgree_iff (d : PtDecoder) (os : List Bool) :
    CutsAgree d os ↔ d.walker.LoadsAgree os := by
  have mem : ∀ {split}, IsSplit os split → ∀ last w,
      (∃ m ∈ decodeFrom d (tntPackets split ++ ipPackets last), m.2.walker = w) ↔
        w ∈ (d.walker.loadAll split).bind fun f => f.takeIp last := by
    intro split h last w
    rw [← decodeFrom_walker d h.sizes, Part.mem_map_iff]
  constructor
  · intro agree split split' h h' last e he e' he'
    obtain ⟨m, hm, rfl⟩ := (mem h last e).mpr he
    obtain ⟨m', hm', rfl⟩ := (mem h' last e').mpr he'
    exact agree split split' h h' last m hm m' hm'
  · intro agree split split' h h' last m hm m' hm'
    exact agree split split' h h' last _ ((mem h last _).mp ⟨m, hm, rfl⟩) _
      ((mem h' last _).mp ⟨m', hm', rfl⟩)

/-- With the outcomes one to a packet, every packet but the first finds the walk ready. -/
def DrainedFrom (d : PtDecoder) (os : List Bool) : Prop :=
  ∀ xs y ys, os = xs ++ y :: ys → xs ≠ [] →
    ∀ m ∈ decodeFrom d (tntPackets (Walker.singles xs)), m.2.walker.Ready

theorem drainedFrom_iff (d : PtDecoder) (os : List Bool) :
    DrainedFrom d os ↔ d.walker.Drained os := by
  have same : ∀ xs, (∀ m ∈ decodeFrom d (tntPackets (Walker.singles xs)), m.2.walker.Ready) ↔
      ∀ e ∈ d.walker.loadAll (Walker.singles xs), e.Ready := by
    intro xs
    have hmap := decodeFrom_walker d (Walker.singles_sizes xs) none
    rw [show ipPackets none = [] from rfl, append_nil] at hmap
    have hright : (d.walker.loadAll (Walker.singles xs)).bind (fun w => w.takeIp none) =
        d.walker.loadAll (Walker.singles xs) := Part.bind_some_right _
    rw [hright] at hmap
    rw [← hmap]
    simp only [Part.mem_map_iff, forall_exists_index, and_imp, forall_apply_eq_imp_iff₂]
  exact forall_congr' fun xs => forall_congr' fun y => forall_congr' fun ys => forall_congr' fun _ =>
    forall_congr' fun _ => same xs

/-- Every short queue is some decoder's. -/
theorem exists_decoder (u : Walker) (short : u.pending.length ≤ 47) :
    ∃ e : PtDecoder, e.text = u.text ∧ e.walker = u := by
  refine ⟨{ text := u.text, textVaddr := u.base, trace := [], ip := u.ip, out := u.out,
            tntBits := payloadOf u.pending &&& ((1#64 <<< u.pending.length) - 1#64),
            tntCount := u.pending.length }, rfl, ?_⟩
  rw [walker, pending, windowBits_masked _ (by omega), windowBits_payloadOf _ short]

/-- **Cutting outcomes into packets.** For every text, base and IP and every list of outcomes: when,
one outcome to a packet, every packet but the first finds the walk ready, all ways of cutting the
list and its prefixes into packets agree; and where the walks over the text end, they agree only
then. -/
theorem cuts_agree_iff (d : PtDecoder) (os : List Bool) :
    (DrainedFrom d os → ∀ os', os' <+: os → CutsAgree d os') ∧
      ((∀ e : PtDecoder, e.text = d.text → (eval walkStep e).Dom) →
        (∀ os', os' <+: os → CutsAgree d os') → DrainedFrom d os) := by
  constructor
  · rintro drained os' ⟨rest, rfl⟩
    rw [cutsAgree_iff]
    exact Walker.loadsAgree_of_settled ((drainedFrom_iff d _).mp drained).settled.of_append
  · intro ends agree
    rw [drainedFrom_iff]
    refine Walker.drained_of_agree ?_ fun os' h => (cutsAgree_iff d os').mp (agree os' h)
    intro u htext hshort
    obtain ⟨e, hetext, rfl⟩ := exists_decoder u (Nat.le_trans hshort (by decide))
    rw [← eval_walkStep]
    exact ends e (hetext.trans htext)

/-- A return instruction, with the decoder at it. -/
def atReturn : PtDecoder :=
  { text := [0xc3#8], textVaddr := 0xffffffff81000000#64, trace := [], ip := 0xffffffff81000000#64 }

/-- Two outcomes in one packet are both pending at the return; in two packets the second one has
replaced the first. -/
theorem cut_loses_outcome :
    InText atReturn.text atReturn.textVaddr atReturn.ip ∧
      (∃ m ∈ decodeFrom atReturn (tntPackets [[true, false]]), m.2.pending = [true, false]) ∧
      ∃ m ∈ decodeFrom atReturn (tntPackets [[true], [false]]), m.2.pending = [false] :=
  ⟨by decide, ⟨_, exec_mem_eval (n := 4) (by decide), by decide⟩,
    ⟨_, exec_mem_eval (n := 7) (by decide), by decide⟩⟩

end Vock.Pt
