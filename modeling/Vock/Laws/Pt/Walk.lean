import Vock.Laws.Pt.Kaslr

/-!
# Whether the decode ends

A walk takes an outcome only at a conditional branch. Between two of them it follows the text, and
`follow` is that part alone: the next instruction, or the target of a direct branch. A walk runs
forever exactly when it gets, with an outcome pending, onto a loop of `follow` (`walk_dom_iff`).

For whole runs the loop is a property of the text: moving the base moves the loop with it
(`onLoop_shift`), so the correction of the base makes no new one, and for every loop there is a
trace that leads into it (`run_not_dom`). Together, `decode_ends_iff`.
-/

namespace Vock.Pt

open Library StateTransition Relation PtDecoder

variable {base ip : U64} {text : List U8} {d : PtDecoder}

/-! ## Without taking an outcome -/

/-- Where the walk goes from an address without taking an outcome. -/
def follow (text : List U8) (base ip : U64) : Option U64 :=
  match flowAt text base ip with
  | .next ip => some ip
  | .jump ip => some ip
  | .leave => none
  | .cond _ _ => none

/-- The address lies on a loop that takes no outcome. -/
def OnLoop (text : List U8) (base ip : U64) : Prop := Reaches₁ (follow text base) ip ip

theorem walkStep_of_follow (pending : 0 < d.tntCount)
    (h : follow d.text d.textVaddr d.ip = some ip) :
    ∃ e, d.walkStep = some e ∧ e.ip = ip ∧ e.tntCount = d.tntCount := by
  unfold follow at h
  unfold walkStep
  rw [if_pos pending]
  cases hf : flowAt d.text d.textVaddr d.ip with
  | leave | cond taken fall => rw [hf] at h; cases h
  | next ip' | jump ip' =>
    rw [hf] at h
    exact ⟨_, rfl, Option.some.inj h, rfl⟩

/-- A round either follows the text, or takes an outcome where the text cannot be followed. -/
theorem walkStep_follow {e : PtDecoder} (h : d.walkStep = some e) :
    0 < d.tntCount ∧
      ((follow d.text d.textVaddr d.ip = some e.ip ∧ e.tntCount = d.tntCount) ∨
        (follow d.text d.textVaddr d.ip = none ∧ e.tntCount + 1 = d.tntCount)) := by
  obtain ⟨pending, hcases⟩ := walkStep_cases h
  refine ⟨pending, ?_⟩
  obtain ⟨ip, hf, rfl⟩ | ⟨ip, hf, rfl⟩ | ⟨taken, fall, ip, hf, -, rfl⟩ := hcases
  · left
    rw [follow, hf]
    exact ⟨rfl, rfl⟩
  · left
    rw [follow, hf]
    exact ⟨rfl, rfl⟩
  · right
    rw [follow, hf]
    exact ⟨rfl, Nat.sub_add_cancel pending⟩

theorem walk_of_follow (pending : 0 < d.tntCount)
    (h : Reaches (follow d.text d.textVaddr) d.ip ip) :
    ∃ e, Reaches walkStep d e ∧ e.ip = ip ∧ e.tntCount = d.tntCount := by
  induction h with
  | refl => exact ⟨d, .refl, rfl, rfl⟩
  | tail _ hstep ih =>
    obtain ⟨e, hreach, rfl, hcount⟩ := ih
    have frame := walk_frame hreach
    rw [← frame.text, ← frame.textVaddr] at hstep
    obtain ⟨f, hwalk, hip, hcount'⟩ := walkStep_of_follow (hcount ▸ pending) hstep
    exact ⟨f, hreach.tail hwalk, hip, hcount'.trans hcount⟩

/-! ## One walk -/

instance : Finite U64 := Finite.of_injective BitVec.toFin fun _ _ => BitVec.toFin_inj.mp

/-- On a loop there is always another round. -/
theorem walk_not_dom (pending : 0 < d.tntCount) (loop : OnLoop d.text d.textVaddr d.ip) : ¬ (eval walkStep d).Dom := by
  intro hdom
  obtain ⟨e, he⟩ := Part.dom_iff_mem.mp hdom
  obtain ⟨hreach, hnone⟩ := mem_eval.mp he
  have stays : 0 < e.tntCount ∧ Reaches (follow d.text d.textVaddr) d.ip e.ip := by
    have keeps := reaches_invariant (P := fun e : PtDecoder => WalkFrame d e ∧ 0 < e.tntCount ∧
      Reaches (follow d.text d.textVaddr) d.ip e.ip) ?_ hreach ⟨.refl d, pending, .refl⟩
    · exact keeps.2
    · rintro s s' ⟨frame, hpending, hs⟩ hstep
      obtain ⟨-, ⟨hfollow, hcount⟩ | ⟨hstop, -⟩⟩ := walkStep_follow hstep
      · rw [frame.text, frame.textVaddr] at hfollow
        exact ⟨frame.trans (walkStep_frame hstep), hcount ▸ hpending, hs.tail hfollow⟩
      · rw [frame.text, frame.textVaddr] at hstop
        exact absurd hstop (step_of_cycle loop hs)
  obtain ⟨ip, hip⟩ := Option.ne_none_iff_exists'.mp (step_of_cycle loop stays.2)
  have frame := walk_frame hreach
  rw [← frame.text, ← frame.textVaddr] at hip
  obtain ⟨f, hf, -⟩ := walkStep_of_follow stays.1 hip
  rw [hf] at hnone
  cases hnone

/-- **One walk.** It ends exactly when it gets onto no loop with an outcome pending. -/
theorem walk_dom_iff (d : PtDecoder) :
    (eval walkStep d).Dom ↔
      ¬ ∃ e, Reaches walkStep d e ∧ 0 < e.tntCount ∧ OnLoop e.text e.textVaddr e.ip := by
  constructor
  · rintro hdom ⟨e, hreach, pending, loop⟩
    rw [reaches_eval hreach] at hdom
    exact walk_not_dom pending loop hdom
  · -- on the number of pending outcomes
    generalize hcount : d.tntCount = count
    induction count generalizing d with
    | zero =>
      intro _
      refine Part.dom_iff_mem.mpr ⟨d, mem_eval.mpr ⟨.refl, ?_⟩⟩
      rw [walkStep, if_neg (by omega)]
    | succ count ih =>
      intro noLoop
      have pending : 0 < d.tntCount := by omega
      have hfollow : (eval (follow d.text d.textVaddr) d.ip).Dom := by
        by_contra hforever
        obtain ⟨ip, hip, loop⟩ := (not_dom_iff_cycle d.ip (Set.toFinite _)).mp hforever
        obtain ⟨e, hreach, rfl, hsame⟩ := walk_of_follow pending hip
        have frame := walk_frame hreach
        refine noLoop ⟨e, hreach, hsame ▸ pending, ?_⟩
        rw [frame.text, frame.textVaddr]
        exact loop
      obtain ⟨ip, hip⟩ := Part.dom_iff_mem.mp hfollow
      obtain ⟨hreach, hstop⟩ := mem_eval.mp hip
      obtain ⟨e, hwalk, rfl, hsame⟩ := walk_of_follow pending hreach
      rw [reaches_eval hwalk]
      cases hw : e.walkStep with
      | none => exact Part.dom_iff_mem.mpr ⟨e, mem_eval.mpr ⟨.refl, hw⟩⟩
      | some f =>
        have frame := walk_frame hwalk
        rw [← frame.text, ← frame.textVaddr] at hstop
        obtain ⟨-, ⟨hsome, -⟩ | ⟨-, hless⟩⟩ := walkStep_follow hw
        · rw [hstop] at hsome
          cases hsome
        · rw [reaches_eval (.single hw)]
          refine ih f (by omega) ?_
          rintro ⟨g, hg, rest⟩
          exact noLoop ⟨g, hwalk.trans (.head hw hg), rest⟩

/-! ## Moving the base -/

/-- The text's size, as the code's words hold it. -/
def span (text : List U8) : Nat := text.length % 2 ^ 64

/-- The address range of a text: empty when it would wrap around. -/
theorem inText_iff (text : List U8) (base ip : U64) :
    InText text base ip ↔ base.toNat + span text < 2 ^ 64 ∧ above base ip < span text := by
  have hend : (textEnd text base).toNat = (base.toNat + span text) % 2 ^ 64 := by
    rfl
  have hspan : span text < 2 ^ 64 := Nat.mod_lt _ (by decide)
  rw [InText, BitVec.le_def, BitVec.lt_def, above, BitVec.toNat_sub]
  omega

def Flow.shift (δ : U64) : Flow → Flow
  | .leave => .leave
  | .next ip => .next (ip + δ)
  | .jump ip => .jump (ip + δ)
  | .cond taken fall => .cond (taken + δ) (fall + δ)

theorem insnFlow_shift (insn : Insn) (ip δ : U64) :
    insnFlow insn (ip + δ) = (insnFlow insn ip).shift δ := by
  have hfall : ∀ x : U64, ip + δ + x = ip + x + δ := fun x => by ac_rfl
  have htaken : ∀ x y : U64, ip + δ + x + y = ip + x + y + δ := by
    intro x y
    ac_rfl
  unfold insnFlow
  dsimp only
  split
  · rfl
  · split
    · rw [htaken, hfall]
      rfl
    · split
      · split
        · rw [htaken]
          rfl
        · rfl
      · rw [hfall]
        rfl

/-- With the base moved, an address moved along does the same. -/
theorem flowAt_shift {δ : U64} (fits : base.toNat + span text < 2 ^ 64)
    (fits' : (base + δ).toNat + span text < 2 ^ 64) (ip : U64) :
    flowAt text (base + δ) (ip + δ) = (flowAt text base ip).shift δ := by
  have hsub : ip + δ - (base + δ) = ip - base := by bv_omega
  have hin : InText text (base + δ) (ip + δ) ↔ InText text base ip := by
    rw [inText_iff, inText_iff, above, hsub]
    exact and_congr_left fun _ => ⟨fun _ => fits, fun _ => fits'⟩
  unfold flowAt
  by_cases h : InText text base ip
  · rw [if_pos (hin.mpr h), hsub]
    dsimp only
    split
    · rfl
    · split
      · rfl
      · exact insnFlow_shift _ _ _
  · rw [if_neg h, if_neg (mt hin.mp h)]
    rfl

theorem follow_shift {δ : U64} (fits : base.toNat + span text < 2 ^ 64)
    (fits' : (base + δ).toNat + span text < 2 ^ 64) (ip : U64) :
    follow text (base + δ) (ip + δ) = (follow text base ip).map (· + δ) := by
  rw [follow, follow, flowAt_shift fits fits']
  cases flowAt text base ip with
  | leave | next ip' | jump ip' | cond taken fall => rfl

theorem onLoop_shift (δ : U64) (fits : base.toNat + span text < 2 ^ 64)
    (fits' : (base + δ).toNat + span text < 2 ^ 64) (loop : OnLoop text base ip) :
    OnLoop text (base + δ) (ip + δ) := by
  refine TransGen.lift (· + δ) ?_ _ _ loop
  intro a b hab
  show follow text (base + δ) (a + δ) = some (b + δ)
  rw [follow_shift fits fits', Option.mem_def.mp hab]
  rfl

/-- What can be followed from lies in the text. -/
theorem inText_of_follow {ip' : U64} (h : follow text base ip = some ip') : InText text base ip := by
  by_contra hout
  rw [follow, flowAt, if_neg hout] at h
  cases h

theorem OnLoop.inText (loop : OnLoop text base ip) : InText text base ip := by
  obtain ⟨ip', hstep, -⟩ := TransGen.head'_iff.mp loop
  exact inText_of_follow hstep

/-- The correction of the base makes no new loop. -/
theorem onLoop_of_corrected (loop : OnLoop d.text d.correctKaslr.textVaddr ip) :
    ∃ ip', OnLoop d.text d.textVaddr ip' := by
  by_cases hmoves : Moves d.text d.textVaddr d.ip
  · have fits' := ((inText_iff _ _ _).mp loop.inText).1
    have fits : d.textVaddr.toNat + span d.text < 2 ^ 64 := by
      have := (correctKaslr_bounds hmoves).1
      omega
    have hback : d.correctKaslr.textVaddr + (d.textVaddr - d.correctKaslr.textVaddr) = d.textVaddr := by
      bv_omega
    have hshift := onLoop_shift (d.textVaddr - d.correctKaslr.textVaddr) fits'
      (by rw [hback]; exact fits) loop
    rw [hback] at hshift
    exact ⟨_, hshift⟩
  · rw [correctKaslr_of_not_moves hmoves] at loop
    exact ⟨ip, loop⟩

/-! ## A whole run -/

/-- The text at this base has no loop. -/
def NoLoop (text : List U8) (base : U64) : Prop := ∀ ip, ¬ OnLoop text base ip

theorem step_noLoop {m m' : Point × PtDecoder} (h : NoLoop m.2.text m.2.textVaddr)
    (hstep : step m = some m') : NoLoop m'.2.text m'.2.textVaddr := by
  obtain ⟨point, d⟩ := m
  have hd : NoLoop d.text d.textVaddr := h
  cases point with
  | packet =>
    obtain rfl : d.packetStep = m' := Option.some.inj hstep
    rcases packetStep_cases d with
      ⟨e, hnext, htext, hbase⟩ | ⟨-, e, hnext | ⟨hnext, -, -⟩, htext, hbase, -⟩
    · rw [hnext, htext, hbase]
      exact hd
    · rw [hnext, htext, hbase]
      exact hd
    · rw [hnext]
      intro ip loop
      rw [walkTnt, (correctKaslr_frame e).1] at loop
      obtain ⟨ip', loop'⟩ := onLoop_of_corrected loop
      rw [htext, hbase] at loop'
      exact hd ip' loop'
  | walk =>
    cases hw : d.walkStep with
    | none =>
      rw [step_walk_none hw] at hstep
      cases hstep
      exact hd
    | some e =>
      rw [step_walk_some hw] at hstep
      cases hstep
      rw [(walkStep_frame hw).text, (walkStep_frame hw).textVaddr]
      exact hd
  | done => cases hstep

/-- Over a text with no loop every run ends. -/
theorem run_dom (noLoop : NoLoop text base) (trace : List U8) : (new text base trace).run.Dom := by
  refine run_dom_of_walks fun e he => ?_
  have hnoLoop : NoLoop e.text e.textVaddr :=
    reaches_invariant (P := fun m : Point × PtDecoder => NoLoop m.2.text m.2.textVaddr)
      (fun _ _ => step_noLoop) he noLoop
  rw [walk_dom_iff]
  rintro ⟨f, hf, -, loop⟩
  have frame := walk_frame hf
  rw [frame.text, frame.textVaddr] at loop
  exact hnoLoop _ loop

/-- One outcome while there is no IP yet, then a TIP to the address. -/
def traceInto (ip : U64) : List U8 := 0x06#8 :: 0xcd#8 :: leBytes 8 ip

/-- The trace leads into a walk at the address, over the text where it is linked. -/
theorem reaches_traceInto (inside : InText text base ip) :
    ∃ w, Reaches step (new text base (traceInto ip)).start (.walk, w) ∧ w.text = text ∧
      w.textVaddr = base ∧ w.ip = ip ∧ w.tntCount = 1 := by
  have hloaded : text ≠ [] := by
    rintro rfl
    have := ((inText_iff _ _ _).mp inside).2
    exact absurd this (Nat.not_lt_zero _)
  -- the outcome is kept, since the IP is still 0
  let held : PtDecoder := { new text base (traceInto ip) with pos := 1, tntBits := 1#64, tntCount := 1 }
  have hfirst : step (new text base (traceInto ip)).start = some (.packet, held) := by
    show some (loadTnt { new text base (traceInto ip) with pos := 1 } 3#64) = _
    rw [loadTnt, if_neg (by decide)]
    rw [if_neg fun h => h.2.1 rfl]
    rfl
  have hscan : scanPacket held.trace held.pos held.block = ⟨.ip 0x0d#8 6#8, 9⟩ := rfl
  have hread : ptReadIp { held with pos := held.pos + 1 } 6#8 =
      some { held with ip := ip, pos := 10 } := by
    have hpay : ipPayload held.trace held.pos 6#8 = ip := leValue_leBytes_eight ip
    rw [ptReadIp_of_scan rfl (by decide) (Nat.le_refl 10), hpay]
    rfl
  have hsecond : step (.packet, held) = some (takeIp { held with ip := ip, pos := 10 }) := by
    show some held.packetStep = _
    rw [packetStep_inside (show 1 < 10 by decide), hscan, packet, if_neg (by decide), hread]
  have htake : takeIp { held with ip := ip, pos := 10 } =
      (.walk, (emitIp { held with ip := ip, pos := 10 } .packet ip).correctKaslr) := by
    rw [takeIp]
    rw [if_pos ⟨hloaded, Nat.one_pos⟩]
    rfl
  rw [htake, correctKaslr_of_not_moves (not_moves_of_inText inside)] at hsecond
  exact ⟨_, .tail (.single hfirst) hsecond, rfl, rfl, rfl, rfl⟩

/-- Every loop of the text is a run that does not end. -/
theorem run_not_dom (loop : OnLoop text base ip) : ¬ (new text base (traceInto ip)).run.Dom := by
  intro hdom
  obtain ⟨w, hreach, rfl, rfl, rfl, hcount⟩ := reaches_traceInto loop.inText
  rw [run, dom_of_reaches hreach] at hdom
  exact walk_not_dom (by omega) loop (walk_dom_of_run hdom)

/-- **Whether the decode ends.** For every decoder state: a walk from it ends exactly when it gets onto
no loop of unconditional instructions with an outcome pending; and over its text at its base every
run ends, whatever the trace, exactly when there is no such loop in the text. -/
theorem decode_ends_iff (d : PtDecoder) :
    ((eval walkStep d.correctKaslr).Dom ↔
      ¬ ∃ e, Reaches walkStep d.correctKaslr e ∧ 0 < e.tntCount ∧ OnLoop e.text e.textVaddr e.ip) ∧
    ((∀ trace, (new d.text d.textVaddr trace).run.Dom) ↔ NoLoop d.text d.textVaddr) := by
  refine ⟨walk_dom_iff d.correctKaslr, ⟨?_, fun h trace => run_dom h trace⟩⟩
  intro hall ip loop
  exact run_not_dom loop (hall (traceInto ip))

/-- A jump to itself. -/
def selfJump : List U8 := [0xeb#8, 0xfe#8]

/-- Over a jump to itself the decode of a ten-byte trace does not end. -/
theorem self_jump_spins :
    (traceInto 0xffffffff81000000#64).length = 10 ∧
      ¬ (new selfJump 0xffffffff81000000#64 (traceInto 0xffffffff81000000#64)).run.Dom :=
  ⟨rfl, run_not_dom (.single (by decide))⟩

end Vock.Pt
