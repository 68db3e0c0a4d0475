import Vock.Ebpf.Programs

/-!
# Laws of the BPF programs

Both programs begin with a filter on the target and end with the output of a record (`code_buildEnter`,
`code_buildExit`); between these each writes the fields of its event into the frame. The filter lets the traced
thread group through and no other (`filter_passes`, `filter_stops`). A field that is written stands in the record
where `Event` has it (`loadLe_blitAll`), since the fields are apart.
-/

namespace Vock.Ebpf

open Library Library.Bpf List

/-! ## The instructions -/

variable (code dst src : U8) (off : BitVec 16) (imm : BitVec 32)

theorem getLsbD_insn (i : Nat) :
    (insn code dst src off imm).getLsbD i =
      (decide (i < 8) && code.getLsbD i || decide (8 ≤ i ∧ i < 12) && dst.getLsbD (i - 8) ||
        decide (12 ≤ i ∧ i < 16) && src.getLsbD (i - 12) || decide (16 ≤ i ∧ i < 32) && off.getLsbD (i - 16) ||
        decide (32 ≤ i ∧ i < 64) && imm.getLsbD (i - 32)) := by
  have hlow : ∀ j, (0x0f#8).getLsbD j = decide (j < 4) := by
    intro j
    rcases Nat.lt_or_ge j 8 with hj | hj
    · revert j
      decide
    · rw [BitVec.getLsbD_of_ge _ _ hj, decide_eq_false (by omega)]
  simp only [insn, BitVec.getLsbD_or, BitVec.getLsbD_shiftLeft, BitVec.getLsbD_setWidth]
  grind

/-- The fields of an instruction are those it was assembled from. -/
theorem fields_insn :
    fields (insn code dst src off imm) = ⟨code, dst.setWidth 4, src.setWidth 4, off, imm⟩ := by
  rw [fields, Fields.mk.injEq]
  refine ⟨?_, ?_, ?_, ?_, ?_⟩
  all_goals
    apply BitVec.eq_of_getLsbD_eq
    simp only [BitVec.getLsbD_extractLsb', getLsbD_insn]
    grind

theorem decode_insn :
    decode (insn code dst src off imm) = Fields.op ⟨code, dst.setWidth 4, src.setWidth 4, off, imm⟩ := by
  rw [decode, fields_insn]

theorem decode_ldMapFd (dst : U8) (fd : BitVec 32) :
    decode (insn (bpfLd ||| bpfDw ||| bpfImm) dst bpfPseudoMapFd 0 fd) = some (.mapFd (dst.setWidth 4) fd) := by
  rw [decode_insn]
  simp [Fields.op, bpfLd, bpfDw, bpfImm, bpfPseudoMapFd]

/-- The words in front of the fields: they return unless the value in the map is the current thread group. -/
def filterCode (pidFd : BitVec 32) : List (Option Bpf.Op) :=
  [some (.alu .mov 6#4 (.reg 1#4)), some (.call 14#32), some (.alu .rsh 0#4 (.imm 32#32)),
    some (.alu .mov 7#4 (.reg 0#4)), some (.store 4 10#4 (-4#16) (.imm 0#32)), some (.alu .mov 2#4 (.reg 10#4)),
    some (.alu .add 2#4 (.imm (-4#32))), some (.mapFd 1#4 pidFd), none, some (.call 1#32),
    some (.jump .ne 0#4 (.imm 0#32) 2#16), some (.alu .mov 0#4 (.imm 0#32)), some .exit,
    some (.load 4 1#4 0#4 0#16), some (.jump .eq 1#4 (.reg 7#4) 2#16), some (.alu .mov 0#4 (.imm 0#32)), some .exit]

/-- The words behind the fields. -/
def outputCode (ringFd : BitVec 32) : List (Option Bpf.Op) :=
  [some (.mapFd 1#4 ringFd), none, some (.alu .mov 2#4 (.reg 10#4)), some (.alu .add 2#4 (.imm (-80#32))),
    some (.alu .mov 3#4 (.imm 80#32)), some (.alu .mov 4#4 (.imm 0#32)), some (.call 130#32),
    some (.alu .mov 0#4 (.imm 0#32)), some .exit]

/-- A word of the context goes into the frame. -/
def copy (src dst : BitVec 16) : List Bpf.Op := [.load 8 1#4 6#4 src, .store 8 10#4 dst (.reg 1#4)]

def enterFields : List Bpf.Op :=
  copy 8 (-72) ++ [.store 4 10#4 (-80) (.imm 0)] ++
    ([(16, -64), (24, -56), (32, -48), (40, -40), (48, -32), (56, -24)] : List (BitVec 16 × BitVec 16)).flatMap
      (fun pair => copy pair.1 pair.2) ++
    [.store 8 10#4 (-16) (.imm 0)]

def exitFields : List Bpf.Op :=
  [.store 4 10#4 (-80) (.imm 1)] ++ copy 8 (-72) ++ copy 16 (-16) ++
    ([-64, -56, -48, -40, -32, -24] : List (BitVec 16)).map (fun dst => .store 8 10#4 dst (.imm 0))

variable (pidFd ringFd : BitVec 32) {fs : List (List Bpf.Op × (Nat × List U8))} {size : Nat}

theorem code_buildEnter :
    (buildEnter pidFd ringFd).map decode = filterCode pidFd ++ (enterFields.map some ++ outputCode ringFd) := by
  simp only [buildEnter, ldMapFd, flatMap_cons, flatMap_nil, cons_append, nil_append,
    map_cons, decode_ldMapFd]
  rfl

theorem code_buildExit :
    (buildExit pidFd ringFd).map decode = filterCode pidFd ++ (exitFields.map some ++ outputCode ringFd) := by
  simp only [buildExit, ldMapFd, cons_append, nil_append, map_cons, map_nil, decode_ldMapFd]
  rfl

/-! ## The filter -/

section

variable {k : Kernel} {n : Nat} {ctx frame : Mem} {regs : Reg → Val} {rest : List (Option Bpf.Op)}

/-- The instructions up to the lookup. -/
def lookupOps (pidFd : BitVec 32) : List Bpf.Op :=
  [.alu .mov 6#4 (.reg 1#4), .call 14#32, .alu .rsh 0#4 (.imm 32#32), .alu .mov 7#4 (.reg 0#4),
    .store 4 10#4 (-4#16) (.imm 0#32), .alu .mov 2#4 (.reg 10#4), .alu .add 2#4 (.imm (-4#32)), .mapFd 1#4 pidFd]

/-- The key that is looked up. -/
def key : List U8 := leBytes 4 0#64

/-- What is known from the lookup on. -/
structure LookedUp (k : Kernel) (frame : Mem) (s : Bpf.State) : Prop where
  value : s.regs 0#4 = if (k.pids key).isSome then .addr (.value k.pidFd key) 0#64 else .word 0#64
  ctx : s.regs 6#4 = .addr .ctx 0#64
  tgid : s.regs 7#4 = .word (k.pidTgid >>> 32)
  fp : s.regs 10#4 = .addr .frame 512#64
  frame : s.frame = blit frame 508 key
  out : s.out = []

variable (k n ctx frame regs rest) in
theorem filter_looksUp :
    ∃ s, Reaches (k.world n ctx) (filterCode k.pidFd ++ rest) 9 (entry regs frame) s ∧ s.pc = 10 ∧ LookedUp k frame s := by
  have hstand : Stands (filterCode k.pidFd ++ rest) 0 (lookupOps k.pidFd) :=
    .cons rfl (.cons rfl (.cons rfl (.cons rfl (.cons rfl (.cons rfl (.cons rfl (.cons rfl (.nil _))))))))
  obtain ⟨s, hs, hmap, hkey, h6, h7, h10, hframe, hout, hpc⟩ : ∃ s,
      (lookupOps k.pidFd).foldlM (effect (k.world n ctx)) (entry regs frame) = some s ∧
        s.regs 1#4 = .map k.pidFd ∧ s.regs 2#4 = .addr .frame 508#64 ∧ s.regs 6#4 = .addr .ctx 0#64 ∧
        s.regs 7#4 = .word (k.pidTgid >>> 32) ∧ s.regs 10#4 = .addr .frame 512#64 ∧
        s.frame = blit frame 508 key ∧ s.out = [] ∧ s.pc = 9 :=
    ⟨_, rfl, rfl, rfl, rfl, rfl, rfl, rfl, rfl, rfl⟩
  have hbytes : bytesAt ((k.world n ctx).mem s.frame .frame) 508 4 = key := by
    rw [hframe]
    rfl
  have hcall := effect_lookup hmap k.pids_eq hkey (by decide : (508#64).toNat + 4 ≤ frameSize) hbytes
  have hop : (filterCode k.pidFd ++ rest)[s.pc]? = some (some (.call 1#32)) := by rw [hpc]; rfl
  refine ⟨_, (Reaches.straight hstand hs).trans (.of_step (step_of_effect hop hcall)), ?_, ?_⟩
  · exact congrArg (· + 1) hpc
  · exact ⟨rfl, h6, h7, h10, hframe, hout⟩

/-- What the fields are written from. -/
structure Ready (frame : Mem) (s : Bpf.State) : Prop where
  ctx : s.regs 6#4 = .addr .ctx 0#64
  fp : s.regs 10#4 = .addr .frame 512#64
  frame : s.frame = frame
  out : s.out = []

theorem getElem?_filterCode {i : Nat} {op : Bpf.Op} (hi : (filterCode k.pidFd)[i]? = some (some op)) :
    (filterCode k.pidFd ++ rest)[i]? = some (some op) := by
  rw [List.getElem?_append_left (List.getElem?_eq_some_iff.mp hi).1, hi]

variable (n ctx frame regs rest) in
/-- The value under the key is compared with the current thread group. -/
theorem filter_compares {v : Mem} (hv : k.pids key = some v) :
    ∃ s, Reaches (k.world n ctx) (filterCode k.pidFd ++ rest) 12 (entry regs frame) s ∧
      s.pc = (if loadLe 4 v 0 = k.pidTgid >>> 32 then 17 else 15) ∧ Ready (blit frame 508 key) s := by
  obtain ⟨s, hreach, hpc, h⟩ := filter_looksUp k n ctx frame regs rest
  have haddr : s.regs 0#4 = .addr (.value k.pidFd key) 0#64 := by rw [h.value, hv]; rfl
  have hfound : Cond.ne.test (s.regs 0#4) ((Operand.imm 0#32).val s.regs) = some true := by rw [haddr]; rfl
  have hskip : Reaches (k.world n ctx) (filterCode k.pidFd ++ rest) 1 s { s with pc := 13 } :=
    .jump (getElem?_filterCode (by rw [hpc]; rfl)) hfound (by rw [hpc]; rfl)
  have hsize : (k.world n ctx).size (.value k.pidFd key) = 4 := by simp [World.size, Kernel.world, k.pids_eq]
  have hmem : (k.world n ctx).mem s.frame (.value k.pidFd key) = v := by
    simp [World.mem, Kernel.world, k.pids_eq, hv]
  obtain ⟨t, ht, hvalue, htgid, hready⟩ : ∃ t, effect (k.world n ctx) { s with pc := 13 } (.load 4 1#4 0#4 0#16) =
      some t ∧ t.regs 1#4 = .word (loadLe 4 v 0) ∧ t.regs 7#4 = .word (k.pidTgid >>> 32) ∧
        Ready (blit frame 508 key) t := by
    rw [effect_load (s := { s with pc := 13 }) haddr (by rw [hsize]; decide), hmem]
    exact ⟨_, rfl, rfl, h.tgid, h.ctx, h.fp, h.frame, h.out⟩
  have hpct : t.pc = 14 := pc_effect ht
  have hcompare : Cond.eq.test (t.regs 1#4) ((Operand.reg 7#4).val t.regs) =
      some (decide (loadLe 4 v 0 = k.pidTgid >>> 32)) := by
    rw [Operand.val, hvalue, htgid]
    rfl
  have hjump : Reaches (k.world n ctx) (filterCode k.pidFd ++ rest) 1 t
      { t with pc := if loadLe 4 v 0 = k.pidTgid >>> 32 then 17 else 15 } := by
    refine .jump (getElem?_filterCode (by rw [hpct]; rfl)) hcompare ?_
    rw [hpct]
    by_cases heq : loadLe 4 v 0 = k.pidTgid >>> 32
    · rw [decide_eq_true heq, if_pos heq]
      rfl
    · rw [decide_eq_false heq, if_neg heq]
      rfl
  exact ⟨_, ((hreach.trans hskip).trans (.of_step (step_of_effect (getElem?_filterCode rfl) ht))).trans hjump, rfl,
    hready.ctx, hready.fp, hready.frame, hready.out⟩

theorem returns_zero {pc : Nat} {s : Bpf.State} (hpc : s.pc = pc)
    (hmov : (filterCode k.pidFd)[pc]? = some (some (.alu .mov 0#4 (.imm 0#32))))
    (hexit : (filterCode k.pidFd)[pc + 1]? = some (some .exit)) {j : Nat}
    (hreach : Reaches (k.world n ctx) (filterCode k.pidFd ++ rest) j (entry regs frame) s) (hout : s.out = []) (m : Nat) :
    Checked.repeatFor (step (k.world n ctx) (filterCode k.pidFd ++ rest)) (j + 1 + (m + 1)) (entry regs frame) =
      pure ⟨.word 0#64, []⟩ := by
  subst hpc
  have hzero : effect (k.world n ctx) s (.alu .mov 0#4 (.imm 0#32)) = some _ := effect_alu rfl
  rw [(hreach.trans (.of_step (step_of_effect (getElem?_filterCode hmov) hzero))).exit (getElem?_filterCode hexit)]
  rw [hout]
  rfl

/-- A thread group that is not traced: the program returns 0 and puts nothing out. -/
theorem filter_stops (htraced : k.traced = false) (m : Nat) :
    Checked.repeatFor (step (k.world n ctx) (filterCode k.pidFd ++ rest)) (14 + m) (entry regs frame) =
      pure ⟨.word 0#64, []⟩ := by
  cases hv : k.pids key with
  | none =>
    obtain ⟨s, hreach, hpc, h⟩ := filter_looksUp k n ctx frame regs rest
    have hnull : s.regs 0#4 = .word 0#64 := by rw [h.value, hv]; rfl
    have hmissing : Cond.ne.test (s.regs 0#4) ((Operand.imm 0#32).val s.regs) = some false := by rw [hnull]; rfl
    have hjump : Reaches (k.world n ctx) (filterCode k.pidFd ++ rest) 1 s { s with pc := 11 } :=
      .jump (getElem?_filterCode (by rw [hpc]; rfl)) hmissing (by rw [hpc]; rfl)
    have hend := returns_zero rfl rfl rfl (hreach.trans hjump) h.out (m + 2)
    rwa [show 9 + 1 + 1 + (m + 2 + 1) = 14 + m by omega] at hend
  | some v =>
    obtain ⟨s, hreach, hpc, h⟩ := filter_compares n ctx frame regs rest hv
    have hother : loadLe 4 v 0 ≠ k.pidTgid >>> 32 := by
      rw [Kernel.traced, ← key, hv, Option.any_some] at htraced
      exact of_decide_eq_false htraced
    rw [if_neg hother] at hpc
    have hend := returns_zero hpc rfl rfl hreach h.out m
    rwa [show 12 + 1 + (m + 1) = 14 + m by omega] at hend

variable (n ctx frame regs rest) in
/-- The thread group that is traced passes. -/
theorem filter_passes (htraced : k.traced = true) :
    ∃ s, Reaches (k.world n ctx) (filterCode k.pidFd ++ rest) 12 (entry regs frame) s ∧ s.pc = 17 ∧
      Ready (blit frame 508 key) s := by
  rw [Kernel.traced, ← key] at htraced
  cases hv : k.pids key with
  | none =>
    rw [hv] at htraced
    cases htraced
  | some v =>
    rw [hv, Option.any_some] at htraced
    obtain ⟨s, hreach, hpc, h⟩ := filter_compares n ctx frame regs rest hv
    rw [if_pos (of_decide_eq_true htraced)] at hpc
    exact ⟨s, hreach, hpc, h⟩

end

/-! ## The fields -/

section

variable {k : Kernel} {n : Nat} {ctx : Mem}

/-- The instructions put the bytes at a place of the frame. -/
def Writes (w : World) (ops : List Bpf.Op) (p : Nat × List U8) : Prop :=
  ∀ f, Straight w (Ready f) ops (Ready (blit f p.1 p.2))

theorem writes_copy {src dst : BitVec 16} (hsrc : (0#64 + src.signExtend 64).toNat + 8 ≤ n)
    (hdst : (512#64 + dst.signExtend 64).toNat + 8 ≤ frameSize) :
    Writes (k.world n ctx) (copy src dst)
      ((512#64 + dst.signExtend 64).toNat, leBytes 8 (loadLe 8 ctx (0#64 + src.signExtend 64).toNat)) := by
  intro f
  refine .cons (Q := fun s => Ready f s ∧ s.regs 1#4 = .word (loadLe 8 ctx (0#64 + src.signExtend 64).toNat)) ?_
    (.cons ?_ (.nil _))
  · intro s h
    rw [effect_load h.ctx hsrc]
    exact ⟨_, rfl, ⟨h.ctx, h.fp, h.frame, h.out⟩, rfl⟩
  · rintro s ⟨h, hword⟩
    rw [effect_store (x := .reg 1#4) hword h.fp hdst, h.frame]
    exact ⟨_, rfl, h.ctx, h.fp, rfl, h.out⟩

variable {w : World}

theorem writes_const {dst : BitVec 16} {v : BitVec 32}
    (hdst : (512#64 + dst.signExtend 64).toNat + size ≤ frameSize) :
    Writes w [.store size 10#4 dst (.imm v)] ((512#64 + dst.signExtend 64).toNat, leBytes size (v.signExtend 64)) := by
  intro f
  refine .cons (fun s h => ?_) (.nil _)
  rw [effect_store rfl h.fp hdst, h.frame]
  exact ⟨_, rfl, h.ctx, h.fp, rfl, h.out⟩

/-- Fields are written one after the other. -/
theorem straight_writes (h : ∀ x ∈ fs, Writes w x.1 x.2) (f : Mem) :
    Straight w (Ready f) (fs.flatMap Prod.fst) (Ready (blitAll f (fs.map Prod.snd))) := by
  induction fs generalizing f with
  | nil => exact .nil _
  | cons x fs ih =>
    exact (h x mem_cons_self f).append (ih (fun y hy => h y (mem_cons_of_mem x hy)) _)

/-- The instructions up to the output. -/
def sendOps (ringFd : BitVec 32) : List Bpf.Op :=
  [.mapFd 1#4 ringFd, .alu .mov 2#4 (.reg 10#4), .alu .add 2#4 (.imm (-80#32)), .alu .mov 3#4 (.imm 80#32),
    .alu .mov 4#4 (.imm 0#32)]

/-- What is known where the record is put out. -/
structure Sending (ringFd : BitVec 32) (frame : Mem) (s : Bpf.State) : Prop where
  ring : s.regs 1#4 = .map ringFd
  data : s.regs 2#4 = .addr .frame 432#64
  size : s.regs 3#4 = .word 80#64
  flags : s.regs 4#4 = .word 0#64
  frame : s.frame = frame
  out : s.out = []

theorem straight_send (ringFd : BitVec 32) (f : Mem) :
    Straight w (Ready f) (sendOps ringFd) (Sending ringFd f) := by
  intro s h
  -- with `r10` written out, the registers compute
  have hs : s = { s with regs := Function.update s.regs 10#4 (.addr .frame 512#64) } := by
    rw [← h.fp, Function.update_eq_self]
  rw [hs]
  exact ⟨_, rfl, rfl, rfl, rfl, rfl, h.frame, h.out⟩

/-- The record is put out, and 0 is to be returned. -/
theorem straight_output {ringFd : BitVec 32} (hring : w.maps ringFd = some .ringbuf) (f : Mem) :
    Straight w (Ready f) (sendOps ringFd ++ [.call 130#32, .alu .mov 0#4 (.imm 0#32)])
      (fun s => s.regs 0#4 = .word 0#64 ∧ s.out = [(ringFd, bytesAt f 432 80)]) := by
  refine (straight_send ringFd f).append (.cons (Q := fun s => s.out = [(ringFd, bytesAt f 432 80)]) ?_ (.cons ?_ (.nil _)))
  · intro s h
    have hfit : (432#64).toNat + (80#64).toNat ≤ frameSize := by decide
    rw [effect_output h.ring hring h.data h.size h.flags hfit, h.out, h.frame]
    exact ⟨_, rfl, rfl⟩
  · intro s h
    exact ⟨_, effect_alu rfl, rfl, h⟩

end

/-! ## The records -/

section

variable {k : Kernel} {n : Nat} {ctx frame : Mem} {regs : Reg → Val} {ps : List (Nat × List U8)}

/-- A program that filters, writes its fields and puts the record out. -/
theorem runs {prog : List U64} {ops : List Bpf.Op} (hops : fs.flatMap Prod.fst = ops)
    (hcode : prog.map decode = filterCode k.pidFd ++ (ops.map some ++ outputCode k.ringFd))
    (hslots : ∀ op ∈ ops, op.slots = 1) (hfs : ∀ x ∈ fs, Writes (k.world n ctx) x.1 x.2) :
    run (k.world n ctx) prog prog.length (entry regs frame) =
      pure ⟨.word 0#64,
        if k.traced then [(k.ringFd, bytesAt (blitAll (blit frame 508 key) (fs.map Prod.snd)) 432 80)] else []⟩ := by
  have hlength : prog.length = 17 + (ops.length + 9) := by
    rw [← length_map (f := decode), hcode]
    simp only [length_append, length_map]
    rfl
  rw [run, hcode]
  cases htraced : k.traced with
  | false =>
    rw [hlength, show 17 + (ops.length + 9) = 14 + (ops.length + 12) by omega, filter_stops htraced]
    rfl
  | true =>
    obtain ⟨s, hpass, hpc, hs⟩ := filter_passes n ctx frame regs (ops.map some ++ outputCode k.ringFd) htraced
    have hwriteStand := ((stands_map_some hslots).left (outputCode k.ringFd)).right (filterCode k.pidFd)
    have hwrites := straight_writes hfs (blit frame 508 key)
    rw [hops] at hwrites
    obtain ⟨t, hwrite, hpct, ht⟩ := hwrites.reaches hs (by rw [hpc]; exact hwriteStand)
    have hpct : t.pc = 17 + ops.length := by
      rw [hpct, hpc, map_congr_left hslots, map_const', sum_replicate_nat, Nat.mul_one]
    have hsendStand : Stands (outputCode k.ringFd) 0 (sendOps k.ringFd ++ [.call 130#32, .alu .mov 0#4 (.imm 0#32)]) :=
      .cons rfl (.cons rfl (.cons rfl (.cons rfl (.cons rfl (.cons rfl (.cons rfl (.nil _)))))))
    have hsendStand := (hsendStand.right (ops.map some)).right (filterCode k.pidFd)
    rw [length_map] at hsendStand
    obtain ⟨u, hsend, hpcu, hu, hout⟩ := (straight_output (w := k.world n ctx) k.ring_eq _).reaches ht (by rw [hpct]; exact hsendStand)
    have hexit : (filterCode k.pidFd ++ (ops.map some ++ outputCode k.ringFd))[u.pc]? =
        some (some .exit) := by
      have hat : u.pc = (filterCode k.pidFd).length + ((ops.map some).length + 8) := by
        rw [hpcu, hpct, length_map]
        rfl
      rw [hat, getElem?_append_right (Nat.le_add_right _ _), Nat.add_sub_cancel_left,
        getElem?_append_right (Nat.le_add_right _ _), Nat.add_sub_cancel_left]
      rfl
    have hend := ((hpass.trans hwrite).trans hsend).exit (n := 6) hexit
    rw [hu, hout] at hend
    rw [hlength, if_pos rfl, ← hend]
    congr 1
    simp only [sendOps, length_append, length_cons, length_nil]
    omega

/-- A word that was put into the frame, apart from the others, is read where it was put. -/
theorem loadLe_blitAll {m : Mem} (hapart : ps.Pairwise Apart) {a : Nat} {v : U64}
    (hp : (a, leBytes size v) ∈ ps) : loadLe size (blitAll m ps) a = leValue (leBytes size v) := by
  apply loadLe_eq
  intro i hi
  have hcovers : Covers (a, leBytes size v) (a + i) :=
    ⟨Nat.le_add_right a i, Nat.add_lt_add_left ((length_leBytes size v).symm ▸ hi) a⟩
  have hget := blitAll_of_covers (m := m) hapart hp hcovers
  rw [Nat.add_sub_cancel_left, leBytes, getElem?_map, getElem?_range hi] at hget
  exact (Option.some.inj hget).symm

/-- The memory of a record. -/
def recordMem (record : List U8) : Mem := fun i => record.getD i 0#8

theorem loadLe_recordMem {f : Mem} {off : Nat} (h : off + size ≤ 80) :
    loadLe size (recordMem (bytesAt f 432 80)) off = loadLe size f (432 + off) := by
  refine congrArg leValue (map_congr_left fun i hi => ?_)
  have hlt : off + i < 80 := by
    have := mem_range.mp hi
    omega
  rw [recordMem, bytesAt, getD_eq_getElem?_getD, getElem?_map, getElem?_range hlt, Nat.add_assoc]
  rfl

/-- The event of a record whose fields stand apart in the frame. -/
theorem event_read {f : Mem} (hapart : ps.Pairwise Apart) {e : BitVec 32}
    {nr ret : U64} {a : Nat → U64} (hexit : (432, leBytes 4 (e.setWidth 64)) ∈ ps)
    (hnr : (440, leBytes 8 nr) ∈ ps) (hargs : ∀ i < 6, (448 + 8 * i, leBytes 8 (a i)) ∈ ps)
    (hret : (496, leBytes 8 ret) ∈ ps) :
    Event.read (recordMem (bytesAt (blitAll f ps) 432 80)) 0 = ⟨e, nr, .ofFn fun i => a i, ret⟩ := by
  rw [Event.read, Event.mk.injEq]
  refine ⟨?_, ?_, ?_, ?_⟩
  · rw [loadLe_recordMem (by decide), loadLe_blitAll hapart hexit, leValue_leBytes_four]
  · rw [loadLe_recordMem (by decide), loadLe_blitAll hapart hnr, leValue_leBytes_eight]
  · congr 1
    funext i
    have hi := i.isLt
    rw [loadLe_recordMem (by omega), show 432 + (0 + 16 + 8 * (i : Nat)) = 448 + 8 * i by omega,
      loadLe_blitAll hapart (hargs i hi), leValue_leBytes_eight]
  · rw [loadLe_recordMem (by decide), loadLe_blitAll hapart hret, leValue_leBytes_eight]

/-- The fields of an enter, each with the code that writes it. -/
def enterWrites (ctx : Mem) : List (List Bpf.Op × (Nat × List U8)) :=
  [(copy 8 (-72), (440, leBytes 8 (ctxId ctx))), ([.store 4 10#4 (-80) (.imm 0)], (432, leBytes 4 0#64))] ++
    (List.range 6).map (fun i =>
      (copy (BitVec.ofNat 16 (16 + 8 * i)) (BitVec.ofInt 16 (-64 + 8 * i)),
        (448 + 8 * i, leBytes 8 (loadLe 8 ctx (16 + 8 * i))))) ++
    [([.store 8 10#4 (-16) (.imm 0)], (496, leBytes 8 0#64))]

/-- The fields of an exit. -/
def exitWrites (ctx : Mem) : List (List Bpf.Op × (Nat × List U8)) :=
  [([.store 4 10#4 (-80) (.imm 1)], (432, leBytes 4 1#64)), (copy 8 (-72), (440, leBytes 8 (ctxId ctx))),
    (copy 16 (-16), (496, leBytes 8 (ctxRet ctx)))] ++
    (List.range 6).map (fun i =>
      ([.store 8 10#4 (BitVec.ofInt 16 (-64 + 8 * i)) (.imm 0)], (448 + 8 * i, leBytes 8 0#64)))

theorem flatMap_enterWrites (ctx : Mem) : (enterWrites ctx).flatMap Prod.fst = enterFields := rfl

theorem flatMap_exitWrites (ctx : Mem) : (exitWrites ctx).flatMap Prod.fst = exitFields := rfl

/-- Where the arguments are in the frame. -/
theorem argument_place :
    ∀ i : Nat, i < 6 → (512#64 + (BitVec.ofInt 16 (-64 + 8 * i)).signExtend 64).toNat = 448 + 8 * i := by
  decide

theorem writes_enter : ∀ x ∈ enterWrites ctx, Writes (k.world enterCtxSize ctx) x.1 x.2 := by
  have hsrc : ∀ i < 6, (0#64 + (BitVec.ofNat 16 (16 + 8 * i)).signExtend 64).toNat = 16 + 8 * i := by decide
  intro x hx
  simp only [enterWrites, mem_append, mem_cons, not_mem_nil, or_false, mem_map, mem_range] at hx
  rcases hx with ((rfl | rfl) | ⟨i, hi, rfl⟩) | rfl
  · exact writes_copy (by decide) (by decide)
  · exact writes_const (by decide)
  · have hcopy : Writes (k.world enterCtxSize ctx)
        (copy (BitVec.ofNat 16 (16 + 8 * i)) (BitVec.ofInt 16 (-64 + 8 * i))) _ :=
      writes_copy (by rw [hsrc i hi, enterCtxSize]; omega) (by rw [argument_place i hi, frameSize]; omega)
    rwa [hsrc i hi, argument_place i hi] at hcopy
  · exact writes_const (by decide)

theorem writes_exit : ∀ x ∈ exitWrites ctx, Writes (k.world exitCtxSize ctx) x.1 x.2 := by
  intro x hx
  simp only [exitWrites, mem_append, mem_cons, not_mem_nil, or_false, mem_map, mem_range] at hx
  rcases hx with (rfl | rfl | rfl) | ⟨i, hi, rfl⟩
  · exact writes_const (by decide)
  · exact writes_copy (by decide) (by decide)
  · exact writes_copy (by decide) (by decide)
  · have hconst : Writes (k.world exitCtxSize ctx)
        [.store 8 10#4 (BitVec.ofInt 16 (-64 + 8 * i)) (.imm 0#32)] _ :=
      writes_const (by rw [argument_place i hi, frameSize]; omega)
    rwa [argument_place i hi] at hconst

/-- The record of an enter, read as an event. -/
theorem enter_event (f : Mem) :
    Event.read (recordMem (bytesAt (blitAll f ((enterWrites ctx).map Prod.snd)) 432 80)) 0 =
      ⟨0#32, ctxId ctx, ctxArgs ctx, 0#64⟩ := by
  have hplaces : ((enterWrites ctx).map Prod.snd).map (fun p => (p.1, p.2.length)) =
      [(440, 8), (432, 4), (448, 8), (456, 8), (464, 8), (472, 8), (480, 8), (488, 8), (496, 8)] := rfl
  have hapart : ((enterWrites ctx).map Prod.snd).Pairwise Apart := pairwise_apart (by rw [hplaces]; decide)
  refine event_read (a := fun i => loadLe 8 ctx (16 + 8 * i)) hapart (.tail _ (.head _)) (.head _)
    (fun i hi => ?_) ?_
  · have hi := mem_range.mpr hi
    exact mem_map.mpr ⟨_, mem_append_left _ (mem_append_right _ (mem_map.mpr ⟨i, hi, rfl⟩)), rfl⟩
  · exact mem_map.mpr ⟨_, mem_append_right _ (.head _), rfl⟩

/-- The record of an exit, read as an event. -/
theorem exit_event (f : Mem) :
    Event.read (recordMem (bytesAt (blitAll f ((exitWrites ctx).map Prod.snd)) 432 80)) 0 =
      ⟨1#32, ctxId ctx, .ofFn fun _ => 0#64, ctxRet ctx⟩ := by
  have hplaces : ((exitWrites ctx).map Prod.snd).map (fun p => (p.1, p.2.length)) =
      [(432, 4), (440, 8), (496, 8), (448, 8), (456, 8), (464, 8), (472, 8), (480, 8), (488, 8)] := rfl
  have hapart : ((exitWrites ctx).map Prod.snd).Pairwise Apart := pairwise_apart (by rw [hplaces]; decide)
  refine event_read (a := fun _ => 0#64) hapart (.head _) (.tail _ (.head _)) (fun i hi => ?_)
    (.tail _ (.tail _ (.head _)))
  have hi := mem_range.mpr hi
  exact mem_map.mpr ⟨_, mem_append_right _ (mem_map.mpr ⟨i, hi, rfl⟩), rfl⟩

end

/-- From every state it may start in, the program comes to its end inside of itself and returns 0. It puts out one
record of 80 bytes, which reads as the event, if the thread group is traced, and nothing otherwise. -/
def Emits (k : Kernel) (prog : List U64) (ctxSize : Nat) (ctx : Mem) (e : Event) : Prop :=
  ∀ regs frame, ∃ record, record.length = 80 ∧ Event.read (recordMem record) 0 = e ∧
    run (k.world ctxSize ctx) prog prog.length (entry regs frame) =
      pure ⟨.word 0#64, if k.traced then [(k.ringFd, record)] else []⟩

theorem length_bytesAt (m : Mem) (off n : Nat) : (bytesAt m off n).length = n := by
  rw [bytesAt, length_map, length_range]

/-- The two programs put out the records that `drain` reads. -/
theorem tracers_emit (k : Kernel) (ctx : Mem) :
    Emits k (buildEnter k.pidFd k.ringFd) enterCtxSize ctx ⟨0#32, ctxId ctx, ctxArgs ctx, 0#64⟩ ∧
      Emits k (buildExit k.pidFd k.ringFd) exitCtxSize ctx ⟨1#32, ctxId ctx, .ofFn fun _ => 0#64, ctxRet ctx⟩ := by
  constructor
  · intro regs frame
    exact ⟨_, length_bytesAt _ _ _, enter_event _, runs (flatMap_enterWrites ctx) (code_buildEnter _ _) (by decide) writes_enter⟩
  · intro regs frame
    exact ⟨_, length_bytesAt _ _ _, exit_event _, runs (flatMap_exitWrites ctx) (code_buildExit _ _) (by decide) writes_exit⟩

/-- The thread group 7 is traced and current. -/
def seven : Kernel where
  pidFd := 3#32
  ringFd := 4#32
  maps fd := if fd = 3#32 then some (.hash 4 4 fun _ => some fun i => if i = 0 then 7#8 else 0#8) else some .ringbuf
  pids _ := some fun i => if i = 0 then 7#8 else 0#8
  pids_eq := rfl
  ring_eq := rfl
  pidTgid := 0x700000008#64
  unknown _ _ := .word 0#64

/-- A context of which each byte is its own position. -/
theorem tracers_emit_seven :
    seven.traced = true ∧
      Emits seven (buildExit 3#32 4#32) exitCtxSize (fun i => BitVec.ofNat 8 i)
        ⟨1#32, 0x0f0e0d0c0b0a0908#64, .ofFn fun _ => 0#64, 0x1716151413121110#64⟩ :=
  ⟨by decide, (tracers_emit seven fun i => BitVec.ofNat 8 i).2⟩

end Vock.Ebpf
