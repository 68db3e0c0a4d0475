import Vock.Library.Checked
import Vock.Library.Memory
import Vock.Word

/-!
# BPF programs

A machine for BPF programs, with the instructions, the helpers and the maps that a small tracer needs: an
instruction word and its fields, what an instruction does, and the run of a program.

A pointer is a block of memory with an offset, so that no two blocks overlap. A program reads its context, its frame
and the values of its maps, and it writes to its frame. What stands in a register at the start or behind a call, what
the frame holds at the start and what `ringbuf_output` returns is unknown: it is a parameter of the machine. An
instruction that reads or writes elsewhere, or that the machine does not have, gives no answer; a program counter
outside of the program is a fault.

Code without jumps computes as the fold of its effects (`Reaches.straight`).
-/

namespace Vock.Library.Bpf

open List

/-! ## Instructions -/

/-- A register. -/
abbrev Reg := BitVec 4

/-- The fields of an instruction word. -/
structure Fields where
  code : BitVec 8
  dst : Reg
  src : Reg
  off : BitVec 16
  imm : BitVec 32
  deriving Repr, DecidableEq

/-- `u8 code; u8 dst:4, src:4; i16 off; i32 imm`, from the low bits on. -/
def fields (w : U64) : Fields :=
  ⟨w.extractLsb' 0 8, w.extractLsb' 8 4, w.extractLsb' 12 4, w.extractLsb' 16 16, w.extractLsb' 32 32⟩

/-- The second operand. -/
inductive Operand where
  | reg (r : Reg)
  | imm (v : BitVec 32)
  deriving Repr, DecidableEq

inductive Alu where
  | mov
  | add
  | rsh
  deriving Repr, DecidableEq

inductive Cond where
  | eq
  | ne
  deriving Repr, DecidableEq

inductive Op where
  | alu (op : Alu) (dst : Reg) (x : Operand)
  | load (size : Nat) (dst base : Reg) (off : BitVec 16)
  | store (size : Nat) (base : Reg) (off : BitVec 16) (x : Operand)
  | mapFd (dst : Reg) (fd : BitVec 32)
  | jump (c : Cond) (dst : Reg) (x : Operand) (off : BitVec 16)
  | call (helper : BitVec 32)
  | exit
  deriving Repr, DecidableEq

/-- `BPF_X` or `BPF_K`. -/
def Fields.operand (f : Fields) : Operand := if f.code &&& 0x08#8 = 0x08#8 then .reg f.src else .imm f.imm

/-- `BPF_W`, `BPF_H`, `BPF_B` and `BPF_DW`. -/
def Fields.size (f : Fields) : Nat :=
  if f.code &&& 0x18#8 = 0x00#8 then 4
  else if f.code &&& 0x18#8 = 0x08#8 then 2
  else if f.code &&& 0x18#8 = 0x10#8 then 1
  else 8

/-- The instruction of a word: by its class, then by the operation or the mode. -/
def Fields.op (f : Fields) : Option Op :=
  let kind := f.code &&& 0xf0#8
  let isMem := f.code &&& 0xe0#8 = 0x60#8
  if f.code &&& 0x07#8 = 0x07#8 then -- BPF_ALU64
    if kind = 0xb0#8 then some (.alu .mov f.dst f.operand)
    else if kind = 0x00#8 then some (.alu .add f.dst f.operand)
    else if kind = 0x70#8 then some (.alu .rsh f.dst f.operand)
    else none
  else if f.code &&& 0x07#8 = 0x05#8 then -- BPF_JMP
    if kind = 0x10#8 then some (.jump .eq f.dst f.operand f.off)
    else if kind = 0x50#8 then some (.jump .ne f.dst f.operand f.off)
    else if kind = 0x80#8 then some (.call f.imm)
    else if kind = 0x90#8 then some .exit
    else none
  else if f.code &&& 0x07#8 = 0x01#8 then -- BPF_LDX
    if isMem then some (.load f.size f.dst f.src f.off) else none
  else if f.code &&& 0x07#8 = 0x02#8 then -- BPF_ST
    if isMem then some (.store f.size f.dst f.off (.imm f.imm)) else none
  else if f.code &&& 0x07#8 = 0x03#8 then -- BPF_STX
    if isMem then some (.store f.size f.dst f.off (.reg f.src)) else none
  else if f.code = 0x18#8 then -- BPF_LD, with BPF_PSEUDO_MAP_FD
    if f.src = 1#4 then some (.mapFd f.dst f.imm) else none
  else none

def decode (w : U64) : Option Op := (fields w).op

/-- The words that an instruction takes. -/
def Op.slots : Op → Nat
  | .mapFd .. => 2
  | _ => 1

/-! ## The machine -/

abbrev Mem := Nat → U8

/-- What a pointer may point into. -/
inductive Block where
  | ctx
  | frame
  | value (fd : BitVec 32) (key : List U8)
  deriving Repr, DecidableEq

inductive Val where
  | word (w : U64)
  | addr (b : Block) (off : U64)
  | map (fd : BitVec 32)
  deriving Repr, DecidableEq

/-- A map, by its kind: the values of a hash map under the bytes of their keys. -/
inductive Map where
  | hash (keySize valueSize : Nat) (entries : List U8 → Option Mem)
  | ringbuf

/-- What is around a program. `unknown` is what a register holds behind the call at a program counter. -/
structure World where
  pidTgid : U64
  ctxSize : Nat
  ctx : Mem
  maps : BitVec 32 → Option Map
  unknown : Nat → Reg → Val

structure State where
  pc : Nat
  regs : Reg → Val
  frame : Mem
  out : List (BitVec 32 × List U8)

variable {s s' : State} {ops : List Op} {o : U64} {b : Block} {dst : Reg} {off : BitVec 16} {pc : Nat} {x : Operand}

/-- What a program ends with: `r0`, and the records it has put into ring buffers. -/
structure Exit where
  r0 : Val
  out : List (BitVec 32 × List U8)

/-- The bytes of a frame. -/
def frameSize : Nat := 512

def World.size (w : World) : Block → Nat
  | .ctx => w.ctxSize
  | .frame => frameSize
  | .value fd _ =>
    match w.maps fd with
    | some (.hash _ valueSize _) => valueSize
    | _ => 0

def World.mem (w : World) (frame : Mem) : Block → Mem
  | .ctx => w.ctx
  | .frame => frame
  | .value fd key =>
    match w.maps fd with
    | some (.hash _ _ entries) => (entries key).getD fun _ => 0#8
    | _ => fun _ => 0#8

/-- Where `n` bytes at a pointer are. -/
def World.place (w : World) (n : Nat) : Val → Option (Block × Nat)
  | .addr b o => if o.toNat + n ≤ w.size b then some (b, o.toNat) else none
  | _ => none

/-- The bytes of a memory from an offset on. -/
def bytesAt (m : Mem) (off n : Nat) : List U8 := (List.range n).map fun i => m (off + i)

def Operand.val (regs : Reg → Val) : Operand → Val
  | .reg r => regs r
  | .imm v => .word (v.signExtend 64)

/-- An operation of 64 bits. A number may be added to a pointer. -/
def Alu.apply : Alu → Val → Val → Option Val
  | .mov, _, y => some y
  | .add, .word x, .word y => some (.word (x + y))
  | .add, .addr b o, .word y => some (.addr b (o + y))
  | .rsh, .word x, .word y => some (.word (x >>> (y &&& 63#64).toNat))
  | _, _, _ => none

/-- A comparison of two numbers, or of a pointer with null. -/
def Cond.test : Cond → Val → Val → Option Bool
  | .eq, .word x, .word y => some (x = y)
  | .ne, .word x, .word y => some (x ≠ y)
  | .eq, .addr .., .word y => if y = 0#64 then some false else none
  | .ne, .addr .., .word y => if y = 0#64 then some true else none
  | _, _, _ => none

/-- A pointer with the offset of an instruction. -/
def Val.plus (v : Val) (off : BitVec 16) : Val :=
  match v with
  | .addr b o => .addr b (o + off.signExtend 64)
  | v => v

section

variable (w : World)

/-- `bpf_get_current_pid_tgid`, `bpf_map_lookup_elem` and `bpf_ringbuf_output`: the result, and the records. -/
def helper (s : State) (id : BitVec 32) : Option (Val × List (BitVec 32 × List U8)) :=
  if id = 14#32 then some (.word w.pidTgid, s.out)
  else if id = 1#32 then
    match s.regs 1#4 with
    | .map fd =>
      match w.maps fd with
      | some (.hash keySize _ entries) =>
        (w.place keySize (s.regs 2#4)).map fun p =>
          let key := bytesAt (w.mem s.frame p.1) p.2 keySize
          (if (entries key).isSome then .addr (.value fd key) 0#64 else .word 0#64, s.out)
      | _ => none
    | _ => none
  else if id = 130#32 then
    match s.regs 1#4, s.regs 3#4, s.regs 4#4 with
    | .map fd, .word n, .word _ =>
      match w.maps fd with
      | some .ringbuf =>
        (w.place n.toNat (s.regs 2#4)).map fun p =>
          (w.unknown s.pc 0#4, s.out ++ [(fd, bytesAt (w.mem s.frame p.1) p.2 n.toNat)])
      | _ => none
    | _, _, _ => none
  else none

/-- The registers behind a call: the result, and `r6` to `r10` as they were. -/
def afterCall (s : State) (result : Val) (r : Reg) : Val :=
  if r = 0#4 then result else if r ≤ 5#4 then w.unknown s.pc r else s.regs r

/-- What an instruction does that neither jumps nor exits. -/
def effect (s : State) (op : Op) : Option State :=
  match op with
  | .alu op dst x =>
    (op.apply (s.regs dst) (x.val s.regs)).map fun v =>
      { s with pc := s.pc + 1, regs := Function.update s.regs dst v }
  | .load size dst base off =>
    (w.place size ((s.regs base).plus off)).map fun p =>
      { s with
        pc := s.pc + 1
        regs := Function.update s.regs dst (.word (loadLe size (w.mem s.frame p.1) p.2)) }
  | .store size base off x =>
    match x.val s.regs, w.place size ((s.regs base).plus off) with
    | .word v, some (.frame, o) => some { s with pc := s.pc + 1, frame := blit s.frame o (leBytes size v) }
    | _, _ => none
  | .mapFd dst fd => some { s with pc := s.pc + 2, regs := Function.update s.regs dst (.map fd) }
  | .call id =>
    (helper w s id).map fun r => { s with pc := s.pc + 1, regs := afterCall w s r.1, out := r.2 }
  | .jump .. => none
  | .exit => none

/-- The state at another program counter; none is in front of the program. -/
def goto (s : State) (pc : Int) : Checked State :=
  if pc < 0 then Checked.stop .index else pure { s with pc := pc.toNat }

/-- One step of a decoded program. -/
def step (code : List (Option Op)) (s : State) : Checked (State ⊕ Exit) := do
  let word ← Checked.get code s.pc
  let op ← Checked.of word
  match op with
  | .jump c dst x off =>
    let taken ← Checked.of (c.test (s.regs dst) (x.val s.regs))
    Sum.inl <$> goto s (s.pc + 1 + if taken then off.toInt else 0)
  | .exit => pure (.inr ⟨s.regs 0#4, s.out⟩)
  | op => Sum.inl <$> Checked.of (effect w s op)

/-- The run of a program, in so many steps at most. -/
def run (prog : List U64) (n : Nat) (s : State) : Checked Exit :=
  Checked.repeatFor (step w (prog.map decode)) n s

/-! ## Steps -/

variable {w} {code : List (Option Op)} {op : Op} {P Q R : State → Prop} {base : Reg} {size : Nat} {fd : BitVec 32}

variable (w code) in
/-- So many steps lead from one state to another. -/
def Reaches (k : Nat) (s s' : State) : Prop :=
  ∀ n, Checked.repeatFor (step w code) (k + n) s = Checked.repeatFor (step w code) n s'

theorem Reaches.refl (s : State) : Reaches w code 0 s s := fun n => by rw [Nat.zero_add]

theorem Reaches.trans {j k : Nat} {t u : State} (h : Reaches w code j s t) (h' : Reaches w code k t u) :
    Reaches w code (j + k) s u := by
  intro n
  rw [Nat.add_assoc, h, h']

theorem Reaches.of_step (h : step w code s = pure (.inl s')) : Reaches w code 1 s s' := by
  intro n
  rw [Nat.add_comm, Checked.repeatFor, h]
  rfl

/-- The instructions stand one after the other in a program. -/
inductive Stands (code : List (Option Op)) : Nat → List Op → Prop
  | nil (pc : Nat) : Stands code pc []
  | cons {pc : Nat} {op : Op} {ops : List Op} : code[pc]? = some (some op) → Stands code (pc + op.slots) ops →
    Stands code pc (op :: ops)

theorem Stands.left (h : Stands code pc ops) (rest : List (Option Op)) : Stands (code ++ rest) pc ops := by
  induction h with
  | nil pc => exact .nil pc
  | cons hop _ ih =>
    refine .cons ?_ ih
    rw [List.getElem?_append_left (List.getElem?_eq_some_iff.mp hop).1, hop]

theorem Stands.right (h : Stands code pc ops) (pre : List (Option Op)) :
    Stands (pre ++ code) (pre.length + pc) ops := by
  induction h with
  | nil pc => exact .nil _
  | cons hop _ ih =>
    refine .cons ?_ (by rwa [Nat.add_assoc])
    rw [getElem?_append_right (Nat.le_add_right _ _), Nat.add_sub_cancel_left, hop]

/-- Instructions of one word each, as they are. -/
theorem stands_map_some (h : ∀ op ∈ ops, op.slots = 1) : Stands (ops.map some) 0 ops := by
  induction ops with
  | nil => exact .nil 0
  | cons op ops ih =>
    have hrest := (ih fun op' hop' => h op' (mem_cons_of_mem op hop')).right [some op]
    refine .cons rfl ?_
    rwa [h op mem_cons_self]

theorem get_of_getElem? (h : code[s.pc]? = some (some op)) :
    Checked.get code s.pc = pure (some op) := by rw [Checked.get, h]; rfl

theorem pc_effect (h : effect w s op = some s') : s'.pc = s.pc + op.slots := by
  cases op with
  | alu op dst x =>
    obtain ⟨v, -, rfl⟩ := Option.map_eq_some_iff.mp h
    rfl
  | load size dst base off =>
    obtain ⟨p, -, rfl⟩ := Option.map_eq_some_iff.mp h
    rfl
  | store size base off x =>
    rw [effect] at h
    split at h
    · cases h
      rfl
    · cases h
  | mapFd dst fd =>
    cases h
    rfl
  | call id =>
    obtain ⟨r, -, rfl⟩ := Option.map_eq_some_iff.mp h
    rfl
  | jump c dst x off | exit => cases h

theorem step_of_effect (hop : code[s.pc]? = some (some op)) (h : effect w s op = some s') :
    step w code s = pure (.inl s') := by
  rw [step, get_of_getElem? hop, pure_bind, Checked.of_some, pure_bind]
  cases op with
  | jump c dst x off | exit => cases h
  | _ =>
    dsimp only
    rw [h]
    rfl

theorem pc_foldlM (h : ops.foldlM (effect w) s = some s') : s'.pc = s.pc + (ops.map Op.slots).sum := by
  induction ops generalizing s with
  | nil =>
    cases h
    rfl
  | cons op ops ih =>
    obtain ⟨t, ht, hrest⟩ := Option.bind_eq_some_iff.mp h
    rw [ih hrest, pc_effect ht, map_cons, sum_cons, Nat.add_assoc]

/-- Code without jumps computes as the fold of its effects. -/
theorem Reaches.straight (hops : Stands code s.pc ops)
    (h : ops.foldlM (effect w) s = some s') : Reaches w code ops.length s s' := by
  induction ops generalizing s with
  | nil =>
    cases h
    exact .refl _
  | cons op ops ih =>
    obtain ⟨t, ht, hrest⟩ := Option.bind_eq_some_iff.mp h
    cases hops with
    | cons hop hstand =>
      rw [← pc_effect ht] at hstand
      rw [length_cons, Nat.add_comm]
      exact (Reaches.of_step (step_of_effect hop ht)).trans (ih hstand hrest)

theorem Reaches.jump {c : Cond} {taken : Bool}
    (hop : code[s.pc]? = some (some (.jump c dst x off))) (htest : c.test (s.regs dst) (x.val s.regs) = some taken)
    (hpc : (s.pc + 1 + if taken then off.toInt else 0 : Int) = pc) : Reaches w code 1 s { s with pc := pc } := by
  apply Reaches.of_step
  rw [step, get_of_getElem? hop, pure_bind, Checked.of_some, pure_bind]
  dsimp only
  rw [htest, Checked.of_some, pure_bind, hpc]
  rfl

/-- A program that comes to its exit. -/
theorem Reaches.exit {k n : Nat} (h : Reaches w code k s s')
    (hop : code[s'.pc]? = some (some .exit)) :
    Checked.repeatFor (step w code) (k + (n + 1)) s = pure ⟨s'.regs 0#4, s'.out⟩ := by
  rw [h, Checked.repeatFor, step, get_of_getElem? hop]
  rfl

/-! ## Conditions -/

variable (w) in
/-- From a state in `P` the code, which does not jump, comes to one in `Q`. -/
def Straight (P : State → Prop) (ops : List Op) (Q : State → Prop) : Prop :=
  ∀ s, P s → ∃ s', ops.foldlM (effect w) s = some s' ∧ Q s'

theorem Straight.nil (P : State → Prop) : Straight w P [] P := fun s hs => ⟨s, rfl, hs⟩

theorem Straight.append {ops' : List Op} (h : Straight w P ops Q)
    (h' : Straight w Q ops' R) : Straight w P (ops ++ ops') R := by
  intro s hs
  obtain ⟨t, ht, hQ⟩ := h s hs
  obtain ⟨u, hu, hR⟩ := h' t hQ
  refine ⟨u, ?_, hR⟩
  rw [foldlM_append, ht]
  exact hu

theorem Straight.cons
    (h : ∀ s, P s → ∃ s', effect w s op = some s' ∧ Q s') (h' : Straight w Q ops R) : Straight w P (op :: ops) R := by
  intro s hs
  obtain ⟨t, ht, hQ⟩ := h s hs
  obtain ⟨u, hu, hR⟩ := h' t hQ
  refine ⟨u, ?_, hR⟩
  rw [foldlM_cons, ht]
  exact hu

/-- Code that stands in a program takes it from its first word behind its last one. -/
theorem Straight.reaches (h : Straight w P ops Q) (hs : P s)
    (hops : Stands code s.pc ops) :
    ∃ s', Reaches w code ops.length s s' ∧ s'.pc = s.pc + (ops.map Op.slots).sum ∧ Q s' := by
  obtain ⟨s', hs', hQ⟩ := h s hs
  exact ⟨s', .straight hops hs', pc_foldlM hs', hQ⟩

theorem effect_alu {op : Alu} {v : Val}
    (h : op.apply (s.regs dst) (x.val s.regs) = some v) :
    effect w s (.alu op dst x) = some { s with pc := s.pc + 1, regs := Function.update s.regs dst v } := by
  rw [effect, h]
  rfl

theorem effect_load
    (hbase : s.regs base = .addr b o) (hfit : (o + off.signExtend 64).toNat + size ≤ w.size b) :
    effect w s (.load size dst base off) =
      some { s with
        pc := s.pc + 1
        regs := Function.update s.regs dst
          (.word (loadLe size (w.mem s.frame b) (o + off.signExtend 64).toNat)) } := by
  rw [effect, hbase, Val.plus, World.place, if_pos hfit]
  rfl

theorem effect_store {v : U64}
    (hx : x.val s.regs = .word v) (hbase : s.regs base = .addr .frame o)
    (hfit : (o + off.signExtend 64).toNat + size ≤ frameSize) :
    effect w s (.store size base off x) =
      some { s with
        pc := s.pc + 1, frame := blit s.frame (o + off.signExtend 64).toNat (leBytes size v) } := by
  rw [effect, hx, hbase, Val.plus, World.place, World.size, if_pos hfit]

theorem effect_lookup {keySize valueSize : Nat} {entries : List U8 → Option Mem}
    (hmap : s.regs 1#4 = .map fd) (hfd : w.maps fd = some (.hash keySize valueSize entries))
    (hkey : s.regs 2#4 = .addr b o) (hfit : o.toNat + keySize ≤ w.size b) {key : List U8}
    (hbytes : bytesAt (w.mem s.frame b) o.toNat keySize = key) :
    effect w s (.call 1#32) =
      some { s with
        pc := s.pc + 1
        regs := afterCall w s (if (entries key).isSome then .addr (.value fd key) 0#64 else .word 0#64) } := by
  have hplace : w.place keySize (s.regs 2#4) = some (b, o.toNat) := by rw [hkey, World.place, if_pos hfit]
  have hhelper : helper w s 1#32 =
      some (if (entries key).isSome then .addr (.value fd key) 0#64 else .word 0#64, s.out) := by
    rw [helper, if_neg (by decide), if_pos rfl, hmap]
    dsimp only
    rw [hfd]
    dsimp only
    rw [hplace, Option.map_some, hbytes]
  rw [effect, hhelper]
  rfl

theorem effect_output {n flags : U64} (hmap : s.regs 1#4 = .map fd)
    (hfd : w.maps fd = some .ringbuf) (hdata : s.regs 2#4 = .addr b o) (hsize : s.regs 3#4 = .word n)
    (hflags : s.regs 4#4 = .word flags) (hfit : o.toNat + n.toNat ≤ w.size b) :
    effect w s (.call 130#32) =
      some { s with
        pc := s.pc + 1
        regs := afterCall w s (w.unknown s.pc 0#4)
        out := s.out ++ [(fd, bytesAt (w.mem s.frame b) o.toNat n.toNat)] } := by
  have hplace : w.place n.toNat (s.regs 2#4) = some (b, o.toNat) := by rw [hdata, World.place, if_pos hfit]
  have hhelper : helper w s 130#32 =
      some (w.unknown s.pc 0#4, s.out ++ [(fd, bytesAt (w.mem s.frame b) o.toNat n.toNat)]) := by
    rw [helper, if_neg (by decide), if_neg (by decide), if_pos rfl, hmap, hsize, hflags]
    dsimp only
    rw [hfd]
    rw [hplace, Option.map_some]
  rw [effect, hhelper]
  rfl

end

end Vock.Library.Bpf
