import Vock.Fuzz.PseudoExt

/-!
# Laws of the pseudo-syscalls on the arena

A region whose first and last byte are in the arena lies in it whole, as long as it is shorter than what the addresses
leave to wrap around in (`within_iff`). The lengths that the calls accept are, so what they touch is in the arena, and
where a region is not they touch nothing (`touch_arena`).
-/

namespace Vock.Fuzz.PseudoExt

variable {addr : U64} {n len : Nat}

/-- The address is in `[DATA_OFFSET, DATA_OFFSET + ARENA_SIZE)`. -/
def InArena (a : Nat) : Prop := dataOffset.toNat ≤ a ∧ a < dataOffset.toNat + arenaSize

/-- All bytes of the region are in the arena. -/
def Within (addr : U64) (n : Nat) : Prop := ∀ a ∈ addresses addr n, InArena a

theorem inArena_iff (addr : U64) : inArena addr = true ↔ InArena addr.toNat := by
  rw [inArena, decide_eq_true_eq]
  rfl

theorem mem_addresses {a : Nat} : a ∈ addresses addr n ↔ addr.toNat ≤ a ∧ a < addr.toNat + n := by
  simp only [addresses, List.mem_map, List.mem_range]
  constructor
  · rintro ⟨i, hi, rfl⟩
    omega
  · rintro ⟨hle, hlt⟩
    exact ⟨a - addr.toNat, by omega, by omega⟩

/-- The last byte of a region that starts in the arena, where the sum does not wrap. -/
theorem last_toNat (hstart : InArena addr.toNat) (hpos : 0 < n) (hn : n ≤ maxImage) :
    (last addr n).toNat = addr.toNat + (n - 1) := by
  obtain ⟨-, hhi⟩ := hstart
  have hoff : dataOffset.toNat = 0x200000000000 := rfl
  have hsize : arenaSize = 16777216 := rfl
  have himage : maxImage = 134217728 := rfl
  rw [last, BitVec.toNat_add, BitVec.toNat_sub, BitVec.toNat_ofNat, BitVec.toNat_ofNat]
  omega

/-- The first and the last byte decide. -/
theorem within_iff (hpos : 0 < n) (hn : n ≤ maxImage) :
    inArena addr = true ∧ inArena (last addr n) = true ↔ Within addr n := by
  rw [inArena_iff, inArena_iff]
  constructor
  · rintro ⟨hstart, hlast⟩ a ha
    rw [last_toNat hstart hpos hn] at hlast
    obtain ⟨hle, hlt⟩ := mem_addresses.mp ha
    exact ⟨hstart.1.trans hle, by have := hlast.2; omega⟩
  · intro h
    have hstart : InArena addr.toNat := h _ (mem_addresses.mpr ⟨Nat.le_refl _, by omega⟩)
    refine ⟨hstart, ?_⟩
    rw [last_toNat hstart hpos hn]
    exact h _ (mem_addresses.mpr ⟨by omega, by omega⟩)

/-! ## What is touched -/

variable {α β : Type}

/-- The call touches only bytes of the arena, and its answer is in `Q`. -/
def Confined (call : Touching α) (Q : α → Prop) : Prop :=
  ∀ m : Memory, (∃ as, (call m).2.touched = m.touched ++ as ∧ ∀ a ∈ as, InArena a) ∧ Q (call m).1

namespace Confined

variable {call : Touching α} {Q : α → Prop}

theorem of_pure {x : α} (h : Q x) : Confined (pure x) Q := fun _ => ⟨⟨[], (List.append_nil _).symm, nofun⟩, h⟩

theorem bind (h : Confined call Q) {next : α → Touching β} {R : β → Prop} (hnext : ∀ x, Q x → Confined (next x) R) :
    Confined (call >>= next) R := by
  intro m
  obtain ⟨⟨as, has, hin⟩, hQ⟩ := h m
  obtain ⟨⟨bs, hbs, hin'⟩, hR⟩ := hnext (call m).1 hQ (call m).2
  refine ⟨⟨as ++ bs, ?_, ?_⟩, hR⟩
  · rw [← List.append_assoc, ← has]
    exact hbs
  · intro a ha
    rcases List.mem_append.mp ha with ha | ha
    · exact hin a ha
    · exact hin' a ha

theorem ite {c : Prop} [Decidable c] {x y : Touching α} (hx : c → Confined x Q) (hy : ¬ c → Confined y Q) :
    Confined (if c then x else y) Q := by
  split
  · exact hx ‹c›
  · exact hy ‹¬ c›

theorem load {a : Nat} (h : InArena a) : Confined (load a) fun _ => True :=
  fun _ => ⟨⟨[a], rfl, fun _ hb => List.mem_singleton.mp hb ▸ h⟩, trivial⟩

theorem loadSlice (h : Within addr n) : Confined (loadSlice addr n) fun bytes => bytes.length = n := by
  refine fun m => ⟨⟨_, rfl, h⟩, ?_⟩
  simp [PseudoExt.loadSlice, addresses]

theorem storeSlice {bytes : List U8} (h : Within addr bytes.length) :
    Confined (storeSlice addr bytes) fun _ => True := fun _ => ⟨⟨_, rfl, h⟩, trivial⟩

/-- The loop reads no byte behind the last one it may, and none behind it is in the text. -/
theorem cstrLen {left : Nat} (h : Within addr (n + left)) :
    Confined (cstrLen addr left n) fun len => len ≤ n + left := by
  induction left generalizing n with
  | zero => exact of_pure (Nat.le_refl n)
  | succ left ih =>
    have hn : addr.toNat + n ∈ addresses addr (n + (left + 1)) := mem_addresses.mpr ⟨by omega, by omega⟩
    refine (load (h _ hn)).bind fun b _ => ite (fun _ => of_pure (Nat.le_add_right n _)) fun _ => ?_
    rw [← Nat.add_assoc, Nat.add_right_comm] at h ⊢
    exact ih h

end Confined

theorem Within.take {m : Nat} (h : Within addr n) (hmn : m ≤ n) : Within addr m := by
  intro a ha
  obtain ⟨hle, hlt⟩ := mem_addresses.mp ha
  exact h a (mem_addresses.mpr ⟨hle, by omega⟩)

/-- What is left of the arena behind an address in it. -/
theorem within_rest (h : InArena addr.toNat) : Within addr (dataOffset + BitVec.ofNat 64 arenaSize - addr).toNat := by
  obtain ⟨hlo, hhi⟩ := h
  have hoff : dataOffset.toNat = 0x200000000000 := rfl
  have hsize : arenaSize = 16777216 := rfl
  have hend : (dataOffset + BitVec.ofNat 64 arenaSize).toNat = 0x200000000000 + 16777216 := rfl
  intro a ha
  obtain ⟨hle, hlt⟩ := mem_addresses.mp ha
  rw [BitVec.toNat_sub] at hlt
  constructor
  · omega
  · omega

theorem confined_cstr (lossy : List U8 → List U8) (addr : U64) : Confined (cstr lossy addr) fun _ => True := by
  refine .ite (fun h => ?_) fun _ => .of_pure trivial
  have hrest := (within_rest ((inArena_iff addr).mp h)).take (Nat.min_le_left _ 4096)
  rw [← Nat.zero_add (min _ 4096)] at hrest
  refine (Confined.cstrLen hrest).bind fun n hn => ?_
  exact (Confined.loadSlice (hrest.take hn)).bind fun _ _ => .of_pure trivial

theorem arenaSize_le_maxImage : arenaSize ≤ maxImage := by decide

/-- The answer of a call that is refused. -/
def refused : Int × Int := (-1, efault)

/-- A region that is tested is in the arena. -/
theorem within_of_tested (hzero : n ≠ 0) (hn : n ≤ maxImage) (hfirst : (!inArena addr) = false)
    (hlast : (!inArena (last addr n)) = false) : Within addr n := by
  rw [Bool.not_eq_false'] at hfirst hlast
  exact (within_iff (Nat.pos_of_ne_zero hzero) hn).mp ⟨hfirst, hlast⟩

theorem confined_memcpyRegion (dst src : U64) (n : Nat) : Confined (memcpyRegion dst src n) fun _ => True := by
  refine .ite (fun _ => .of_pure trivial) fun hzero => .ite (fun _ => .of_pure trivial) fun hstart =>
    .ite (fun _ => .of_pure trivial) fun hlast => ?_
  simp only [Bool.or_eq_true, decide_eq_true_eq, not_or, Bool.not_eq_true, Nat.not_lt] at hstart hlast
  have hn : n ≤ maxImage := Nat.le_trans hstart.2 arenaSize_le_maxImage
  have hsrc := within_of_tested hzero hn hstart.1.2 hlast.2
  refine (Confined.loadSlice hsrc).bind fun bytes hlen => ?_
  have hdst := within_of_tested hzero hn hstart.1.1 hlast.1
  rw [← hlen] at hdst
  exact (Confined.storeSlice hdst).bind fun _ _ => .of_pure trivial

theorem memcpyRegion_refused {dst src : U64} (hzero : n ≠ 0) (h : ¬ (Within dst n ∧ Within src n)) :
    memcpyRegion dst src n = pure refused := by
  rw [memcpyRegion, if_neg hzero]
  split
  next => rfl
  next hstart =>
    rw [if_pos]
    · rfl
    · simp only [Bool.or_eq_true, decide_eq_true_eq, not_or, Bool.not_eq_true, Nat.not_lt] at hstart
      have hn : n ≤ maxImage := Nat.le_trans hstart.2 arenaSize_le_maxImage
      by_contra hlast
      simp only [Bool.or_eq_true, not_or, Bool.not_eq_true] at hlast
      exact h ⟨within_of_tested hzero hn hstart.1.1 hlast.1, within_of_tested hzero hn hstart.1.2 hlast.2⟩

/-- The longest frame. -/
theorem frame_le_maxImage : 64 <<< 10 ≤ maxImage := by decide

theorem confined_emitFrame (tap : Tap) (len : Nat) (buf : U64) : Confined (emitFrame tap len buf) fun _ => True := by
  refine .ite (fun _ => .of_pure trivial) fun htest => .ite (fun _ => .of_pure trivial) fun _ =>
    .ite (fun _ => .of_pure trivial) fun _ => ?_
  simp only [Bool.or_eq_true, decide_eq_true_eq, not_or, Bool.not_eq_true, Nat.not_lt] at htest
  have hframe := within_of_tested htest.1.1.2 (Nat.le_trans htest.1.2 frame_le_maxImage) htest.1.1.1 htest.2
  exact (Confined.loadSlice hframe).bind fun _ _ => .of_pure trivial

theorem emitFrame_refused {tap : Tap} {buf : U64} (h : ¬ (len ≠ 0 ∧ Within buf len)) :
    emitFrame tap len buf = pure refused := by
  rw [emitFrame, if_pos]
  · rfl
  · by_contra htest
    simp only [Bool.or_eq_true, decide_eq_true_eq, not_or, Bool.not_eq_true, Nat.not_lt] at htest
    have hlen : len ≤ maxImage := Nat.le_trans htest.1.2 frame_le_maxImage
    exact h ⟨htest.1.1.2, within_of_tested htest.1.1.2 hlen htest.1.1.1 htest.2⟩

theorem confined_arenaSlice (hlen : len ≤ maxImage) : Confined (arenaSlice addr len) fun _ => True := by
  refine .ite (fun _ => .of_pure trivial) fun htest => ?_
  simp only [Bool.or_eq_true, decide_eq_true_eq, not_or, Bool.not_eq_true] at htest
  have hslice := within_of_tested htest.1.1 hlen htest.1.2 htest.2
  exact (Confined.loadSlice hslice).bind fun _ _ => .of_pure trivial

theorem arenaSlice_refused (hlen : len ≤ maxImage) (h : ¬ (len ≠ 0 ∧ Within addr len)) :
    arenaSlice addr len = pure none := by
  rw [arenaSlice, if_pos]
  by_contra htest
  simp only [Bool.or_eq_true, decide_eq_true_eq, not_or, Bool.not_eq_true] at htest
  exact h ⟨htest.1.1, within_of_tested htest.1.1 hlen htest.1.2 htest.2⟩

/-- The call touches only bytes of the arena, and where its regions are not in the arena it gives the answer for an
error and touches nothing. -/
def Guarded (call : Touching α) (inside : Prop) (error : α) : Prop :=
  (Confined call fun _ => True) ∧ (¬ inside → call = pure error)

/-- Whatever the arguments are. A copy of no bytes has nothing to touch. -/
theorem touch_arena (lossy : List U8 → List U8) (tap : Tap) (args : Vector U64 maxArgs) (addr : U64) {len : Nat}
    (hlen : len ≤ maxImage) :
    Guarded (syzMemcpyOff args)
        (clamped args[4] = 0 ∨
          Within (args[0] + args[1]) (clamped args[4]) ∧ Within (args[2] + args[3]) (clamped args[4]))
        refused ∧
      Guarded (syzEmitEthernet tap args) (clamped args[0] ≠ 0 ∧ Within args[1] (clamped args[0])) refused ∧
      Guarded (cstr lossy addr) (InArena addr.toNat) none ∧
      Guarded (arenaSlice addr len) (len ≠ 0 ∧ Within addr len) none := by
  refine ⟨⟨confined_memcpyRegion _ _ _, fun h => ?_⟩, ⟨confined_emitFrame _ _ _, emitFrame_refused⟩,
    ⟨confined_cstr lossy addr, fun h => ?_⟩, confined_arenaSlice hlen, arenaSlice_refused hlen⟩
  · obtain ⟨hzero, hregions⟩ := not_or.mp h
    exact memcpyRegion_refused hzero hregions
  · rw [cstr, if_neg (mt (inArena_iff addr).mp h)]

/-- The longest slice from the last byte of the arena is refused; a text there is read no further than that byte. -/
theorem touch_arena_last :
    Guarded (arenaSlice 0x200000ffffff#64 maxImage) (maxImage ≠ 0 ∧ Within 0x200000ffffff#64 maxImage) none ∧
      InArena (0x200000ffffff#64).toNat ∧ Guarded (cstr id 0x200000ffffff#64) (InArena (0x200000ffffff#64).toNat) none :=
  have h := touch_arena id ⟨(3, 0), (0, 0), (1, 0)⟩ (.replicate maxArgs 0#64) 0x200000ffffff#64 (Nat.le_refl maxImage)
  ⟨h.2.2.2, by unfold InArena; decide, h.2.2.1⟩

end Vock.Fuzz.PseudoExt
