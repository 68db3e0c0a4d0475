import Mathlib.Data.List.GetD
import Vock.Fuzz.PseudoSyscalls

/-!
# The index of a device

What `parse_usb_descriptor` reads: descriptors one after the other, each with its length in front (`Descriptor.bytes`).
Of a device, a configuration and any descriptors behind them, the index has every interface with the endpoints up to
the next one (`interfaces`), and no bytes at all lead to an index outside of them (`parse_exact`).
-/

namespace Vock.Fuzz.PseudoSyscalls

open Library List

/-! ## Descriptors -/

/-- A descriptor, behind its length and its type. An interface has at least its nine bytes. -/
structure Descriptor where
  type : U8
  body : List U8
  body_pos : 1 ≤ body.length
  body_le : body.length + 2 ≤ 255
  iface_le : type = 0x04#8 → 9 ≤ body.length + 2

namespace Descriptor

/-- A descriptor as it stands in the blob, with `bLength` first. -/
def bytes (d : Descriptor) : List U8 := BitVec.ofNat 8 (d.body.length + 2) :: d.type :: d.body

@[simp] theorem length_bytes (d : Descriptor) : d.bytes.length = d.body.length + 2 := rfl

theorem toNat_len (d : Descriptor) : (BitVec.ofNat 8 (d.body.length + 2)).toNat = d.body.length + 2 := by
  exact Nat.mod_eq_of_lt (Nat.lt_succ_of_le d.body_le)

/-- An endpoint as the index has it: its first nine bytes, with zeros for those it does not have, and no handle. -/
def ep (d : Descriptor) : EpIndex := ⟨d.bytes.takeD 9 0#8, -1⟩

end Descriptor

/-- The endpoints among descriptors. -/
def endpoints (ds : List Descriptor) : List EpIndex := (ds.filter (·.type = 0x05#8)).map Descriptor.ep

/-- The interfaces among descriptors, each with the endpoints that stand before the next one. -/
def interfaces : List Descriptor → List IfaceIndex
  | [] => []
  | d :: ds =>
    if d.type = 0x04#8 then
      ⟨d.bytes.getD 2 0#8, d.bytes.getD 3 0#8, endpoints (ds.takeWhile (·.type ≠ 0x04#8))⟩ :: interfaces ds
    else interfaces ds

/-! ## The loop -/

theorem takeD_eq_append (n : Nat) (l : List U8) (a : U8) : l.takeD n a = l.take n ++ List.replicate (n - l.length) a := by
  induction n generalizing l with
  | zero => simp
  | succ n ih =>
    cases l with
    | nil => simp [replicate_succ]
    | cons b l => simp [ih]

theorem pushDescriptors_skip (skip : Nat) (ifaces : List IfaceIndex) (buf : List U8) :
    pushDescriptors skip ifaces buf = pushDescriptors 0 ifaces (buf.drop skip) := by
  induction skip generalizing buf with
  | zero => rfl
  | succ skip ih =>
    cases buf with
    | nil => simp [pushDescriptors]
    | cons b rest => exact ih rest

/-- A round of the loop that goes on. -/
theorem pushDescriptors_cons {ifaces : List IfaceIndex} {len : U8} {rest : List U8} (hrest : rest ≠ [])
    (hlen : 2 < len.toNat) (hfits : len.toNat ≤ rest.length + 1) :
    pushDescriptors 0 ifaces (len :: rest) =
      pushDescriptors 0 (pushDescriptor ifaces ((len :: rest).take len.toNat)) ((len :: rest).drop len.toNat) := by
  have goes : ¬ (rest = [] ∨ len.toNat ≤ 2 ∨ rest.length + 1 < len.toNat) := by
    rintro (h | h | h)
    · exact hrest h
    · omega
    · omega
  rw [pushDescriptors, if_neg goes, pushDescriptors_skip]
  obtain ⟨n, hn⟩ : ∃ n, len.toNat = n + 1 := ⟨len.toNat - 1, by omega⟩
  rw [hn, Nat.add_sub_cancel, drop_succ_cons]

theorem pushDescriptors_bytes (ifaces : List IfaceIndex) (d : Descriptor) (rest : List U8) :
    pushDescriptors 0 ifaces (d.bytes ++ rest) = pushDescriptors 0 (pushDescriptor ifaces d.bytes) rest := by
  have hlen := d.toNat_len
  have hpos := d.body_pos
  have htake : (d.bytes ++ rest).take (d.body.length + 2) = d.bytes := take_left' d.length_bytes
  have hdrop : (d.bytes ++ rest).drop (d.body.length + 2) = rest := drop_left' d.length_bytes
  have hround := @pushDescriptors_cons ifaces (BitVec.ofNat 8 (d.body.length + 2)) (d.type :: (d.body ++ rest))
    (cons_ne_nil _ _) (by omega) (by simp; omega)
  rw [hlen] at hround
  calc pushDescriptors 0 ifaces (d.bytes ++ rest)
      = pushDescriptors 0 (pushDescriptor ifaces ((d.bytes ++ rest).take (d.body.length + 2)))
          ((d.bytes ++ rest).drop (d.body.length + 2)) := hround
    _ = pushDescriptors 0 (pushDescriptor ifaces d.bytes) rest := by rw [htake, hdrop]

theorem pushDescriptors_flatMap (ifaces : List IfaceIndex) (ds : List Descriptor) :
    pushDescriptors 0 ifaces (ds.flatMap Descriptor.bytes) =
      ds.foldl (fun ifaces d => pushDescriptor ifaces d.bytes) ifaces := by
  induction ds generalizing ifaces with
  | nil => simp [pushDescriptors]
  | cons d ds ih => rw [flatMap_cons, pushDescriptors_bytes, ih, foldl_cons]

/-! ## One descriptor -/

section

variable {d : Descriptor} {ifaces : List IfaceIndex}

theorem pushDescriptor_iface (h : d.type = 0x04#8) :
    pushDescriptor ifaces d.bytes = ifaces ++ [⟨d.bytes.getD 2 0#8, d.bytes.getD 3 0#8, []⟩] := by
  have hlen : 9 ≤ d.bytes.length := d.iface_le h
  have hbody : d.body.headD 0#8 = d.bytes.getD 2 0#8 ∧ d.body.tail.headD 0#8 = d.bytes.getD 3 0#8 := by
    rw [Descriptor.bytes]
    rcases d.body with _ | ⟨b, _ | ⟨c, rest⟩⟩
    · exact ⟨rfl, rfl⟩
    · exact ⟨rfl, rfl⟩
    · exact ⟨rfl, rfl⟩
  have hne : d.type ≠ 0x05#8 := by
    rw [h]
    decide
  rw [← hbody.1, ← hbody.2]
  simp only [Descriptor.bytes] at hlen ⊢
  rw [pushDescriptor]
  simp only [if_pos (And.intro h hlen), if_neg hne]

theorem pushDescriptor_ep {iface : IfaceIndex} (h : d.type = 0x05#8) :
    pushDescriptor (ifaces ++ [iface]) d.bytes = ifaces ++ [{ iface with eps := iface.eps ++ [d.ep] }] := by
  have hep : d.ep = ⟨d.bytes.take 9 ++ replicate (9 - d.bytes.length) 0#8, -1⟩ := by
    rw [Descriptor.ep, takeD_eq_append]
  rw [hep]
  simp only [Descriptor.bytes, pushDescriptor, h]
  simp [pushEp]

theorem pushDescriptor_ep_nil (h : d.type = 0x05#8) : pushDescriptor [] d.bytes = [] := by
  simp only [Descriptor.bytes, pushDescriptor, h]
  simp [pushEp]

theorem pushDescriptor_other (h : d.type ≠ 0x04#8) (h' : d.type ≠ 0x05#8) : pushDescriptor ifaces d.bytes = ifaces := by
  simp [Descriptor.bytes, pushDescriptor, h, h']

end

/-! ## All of them -/

variable {d : Descriptor}

@[simp] theorem endpoints_cons_ep (ds : List Descriptor) (h : d.type = 0x05#8) :
    endpoints (d :: ds) = d.ep :: endpoints ds := by
  simp [endpoints, h]

@[simp] theorem endpoints_cons_other (ds : List Descriptor) (h : d.type ≠ 0x05#8) :
    endpoints (d :: ds) = endpoints ds := by
  simp [endpoints, h]

/-- Behind an interface: its endpoints are those up to the next one. -/
theorem foldl_concat (ifaces : List IfaceIndex) (iface : IfaceIndex) (ds : List Descriptor) :
    ds.foldl (fun ifaces d => pushDescriptor ifaces d.bytes) (ifaces ++ [iface]) =
      ifaces ++ { iface with eps := iface.eps ++ endpoints (ds.takeWhile (·.type ≠ 0x04#8)) } :: interfaces ds := by
  induction ds generalizing ifaces iface with
  | nil => simp [endpoints, interfaces]
  | cons d ds ih =>
    rw [foldl_cons]
    by_cases hi : d.type = 0x04#8
    · rw [pushDescriptor_iface hi, ih]
      simp [interfaces, endpoints, hi]
    · by_cases he : d.type = 0x05#8
      · rw [pushDescriptor_ep he, ih]
        simp [interfaces, he]
      · rw [pushDescriptor_other hi he, ih]
        simp [interfaces, hi, he]

/-- Endpoints before the first interface are none of the index. -/
theorem foldl_nil (ds : List Descriptor) :
    ds.foldl (fun ifaces d => pushDescriptor ifaces d.bytes) [] = interfaces ds := by
  induction ds with
  | nil => rfl
  | cons d ds ih =>
    rw [foldl_cons, interfaces]
    by_cases hi : d.type = 0x04#8
    · rw [pushDescriptor_iface hi, foldl_concat, if_pos hi]
      rfl
    · rw [if_neg hi, ← ih]
      by_cases he : d.type = 0x05#8
      · rw [pushDescriptor_ep_nil he]
      · rw [pushDescriptor_other hi he]

/-! ## As the machine checks it -/

namespace Machine

open Checked

section

variable {buf rest : List U8} {off : Nat} {len descType : U8} {ifaces : List IfaceIndex} {desc : List U8}

theorem copyFront_eq {ep : List U8} (h : desc.length ≤ ep.length) :
    copyFront ep desc = pure (desc ++ ep.drop desc.length) := if_pos h

theorem pushEp_eq (hne : ifaces ≠ [])
    (hslice : slice buf off (off + min desc.length 9) = pure (desc.take 9)) :
    pushEp buf off desc.length ifaces = pure (PseudoSyscalls.pushEp desc ifaces) := by
  have hlast : ifaces.getLast? = some (ifaces.getLast hne) := getLast?_eq_some_getLast hne
  have hdrop : (replicate 9 0#8).drop (desc.take 9).length = replicate (9 - desc.length) 0#8 := by
    rw [drop_replicate, length_take]
    congr 1
    omega
  rw [pushEp, hlast, Option.elim_some, pure_bind, hslice, pure_bind, copyFront_eq (by simp), pure_bind, hdrop,
    PseudoSyscalls.pushEp, hlast]

theorem pushIface_eq {b c : U8} (hbuf : buf.drop off = len :: descType :: b :: c :: rest) :
    pushIface buf off ifaces = pure (ifaces ++ [⟨b, c, []⟩]) := by
  rw [pushIface, get_add, get_add, hbuf]
  rfl

theorem pushDescriptor_eq (hbuf : buf.drop off = len :: descType :: rest) (hlen : 2 < len.toNat)
    (hfits : len.toNat ≤ rest.length + 2) :
    pushDescriptor buf off len.toNat descType ifaces =
      pure (PseudoSyscalls.pushDescriptor ifaces ((len :: descType :: rest).take len.toNat)) := by
  obtain ⟨n, hn⟩ : ∃ n, len.toNat = n + 2 := ⟨len.toNat - 2, by omega⟩
  have hdesc : (len :: descType :: rest.take n).length = n + 2 := by
    rw [length_cons, length_cons, length_take]
    omega
  rw [hn, take_succ_cons, take_succ_cons, PseudoSyscalls.pushDescriptor, hdesc, pushDescriptor]
  have hiface : (if descType = 0x04#8 ∧ 9 ≤ n + 2 then pushIface buf off ifaces else pure ifaces) =
      pure (if descType = 0x04#8 ∧ 9 ≤ n + 2 then
        ifaces ++ [⟨(rest.take n).headD 0#8, (rest.take n).tail.headD 0#8, []⟩] else ifaces) := by
    split
    · -- nine bytes are enough for the two that are read
      obtain ⟨b, c, rest', rfl⟩ : ∃ b c rest', rest = b :: c :: rest' := by
        rcases rest with _ | ⟨b, _ | ⟨c, rest'⟩⟩
        · rw [length_nil] at hfits
          omega
        · rw [length_singleton] at hfits
          omega
        · exact ⟨b, c, rest', rfl⟩
      obtain ⟨m, rfl⟩ : ∃ m, n = m + 2 := ⟨n - 2, by omega⟩
      exact pushIface_eq hbuf
    · rfl
  rw [hiface, pure_bind]
  generalize (if descType = 0x04#8 ∧ 9 ≤ n + 2 then _ else ifaces) = ifaces'
  have hslice : slice buf off (off + min (n + 2) 9) = pure ((len :: descType :: rest.take n).take 9) := by
    have hleft := congrArg length hbuf
    rw [length_drop, length_cons, length_cons] at hleft
    rw [slice_eq (Nat.le_add_right _ _) (by omega), hbuf, Nat.add_sub_cancel_left, min_comm, ← take_take]
    rfl
  by_cases he : descType = 0x05#8
  · rw [if_pos he]
    by_cases hne : ifaces' = []
    · rw [hne, if_neg (fun h => h.2 rfl)]
      rfl
    · rw [if_pos ⟨he, hne⟩, ← hdesc]
      exact pushEp_eq hne (by rw [hdesc, hslice])
  · rw [if_neg he, if_neg fun h => he h.1]

theorem round_eq (s : Nat × List IfaceIndex) :
    round buf s = pure (.inr (pushDescriptors 0 s.2 (buf.drop s.1))) ∨
      ∃ s', round buf s = pure (.inl s') ∧
        pushDescriptors 0 s'.2 (buf.drop s'.1) = pushDescriptors 0 s.2 (buf.drop s.1) ∧
        buf.length - s'.1 < buf.length - s.1 := by
  obtain ⟨off, ifaces⟩ := s
  have hleft := length_drop (i := off) (l := buf)
  rcases h : buf.drop off with _ | ⟨len, _ | ⟨descType, rest⟩⟩
  · rw [h, length_nil] at hleft
    exact .inl (if_neg (by dsimp only; omega))
  · rw [h, length_singleton] at hleft
    refine .inl ?_
    rw [round, if_neg (by dsimp only; omega), pushDescriptors, if_pos (.inl rfl)]
  · rw [h, length_cons, length_cons] at hleft
    have htype := get_of_drop (drop_succ_of_drop h)
    rw [round, if_pos (by dsimp only; omega), get_of_drop h, pure_bind, htype, pure_bind]
    split
    · rename_i leaves
      refine .inl ?_
      rw [pushDescriptors, if_pos (.inr (leaves.imp_right fun past => by rw [length_cons]; omega))]
    · rename_i goes
      rw [pushDescriptor_eq h (by omega) (by omega)]
      refine .inr ⟨_, rfl, ?_, by dsimp only; omega⟩
      rw [← drop_drop, h]
      exact (pushDescriptors_cons (cons_ne_nil _ _) (by omega) (by rw [length_cons]; omega)).symm

end

theorem parseUsbDescriptor_eq (buf : List U8) : parseUsbDescriptor buf = of (PseudoSyscalls.parseUsbDescriptor buf) := by
  rw [parseUsbDescriptor, PseudoSyscalls.parseUsbDescriptor]
  split
  · rfl
  · rename_i hlen
    have hloop : repeatFor (round buf) (buf.length + 1) (0, []) = pure (pushDescriptors 0 [] buf) :=
      repeatFor_eq (fun s : Nat × List IfaceIndex => pushDescriptors 0 s.2 (buf.drop s.1)) (fun s => buf.length - s.1)
        round_eq (Nat.lt_succ_self _)
    have hconfig : (buf.drop 18).take (buf.length - 18) = buf.drop 18 :=
      take_of_length_le (length_drop.le)
    rw [slice_eq (Nat.zero_le _) (by omega), slice_eq (by omega) le_rfl, get_eq (by omega) 0#8, hloop, hconfig]
    rfl

end Machine

/-! ## The blob -/

section

variable {dev cfg : Descriptor}

/-- A device and a configuration in front are none of the interfaces. -/
theorem interfaces_blob (hdev : dev.type = 0x01#8) (hcfg : cfg.type = 0x02#8) (ds : List Descriptor) :
    interfaces (dev :: cfg :: ds) = interfaces ds := by
  have hdev' : dev.type ≠ 0x04#8 := by
    rw [hdev]
    decide
  have hcfg' : cfg.type ≠ 0x04#8 := by
    rw [hcfg]
    decide
  rw [interfaces, if_neg hdev', interfaces, if_neg hcfg']

theorem parseUsbDescriptor_blob (hdev : dev.type = 0x01#8) (hdev' : dev.bytes.length = 18) (hcfg : cfg.type = 0x02#8)
    (hcfg' : cfg.bytes.length = 9) (ds : List Descriptor) :
    parseUsbDescriptor ((dev :: cfg :: ds).flatMap Descriptor.bytes) =
      some
        { dev := dev.bytes
          config := (cfg :: ds).flatMap Descriptor.bytes
          bMaxPower := cfg.bytes.getD 8 0#8
          ifaces := interfaces ds
          ifaceCur := -1 } := by
  have hblob : (dev :: cfg :: ds).flatMap Descriptor.bytes = dev.bytes ++ (cfg :: ds).flatMap Descriptor.bytes :=
    flatMap_cons
  have hrest : (cfg :: ds).flatMap Descriptor.bytes = cfg.bytes ++ ds.flatMap Descriptor.bytes := flatMap_cons
  have hlong : ¬ ((dev :: cfg :: ds).flatMap Descriptor.bytes).length < 18 + 9 := by
    rw [hblob, hrest, length_append, length_append]
    omega
  have hpower : ((dev :: cfg :: ds).flatMap Descriptor.bytes).getD (18 + 8) 0#8 = cfg.bytes.getD 8 0#8 := by
    rw [hblob, hrest, getD_append_right _ _ _ _ (by omega), hdev', getD_append _ _ _ _ (by omega)]
  rw [parseUsbDescriptor, if_neg hlong, hpower, pushDescriptors_flatMap, foldl_nil, interfaces_blob hdev hcfg, hblob,
    take_left' hdev', drop_left' hdev']

end

/-- Of a device, a configuration and any descriptors, the index has the interfaces with their endpoints; and there are
no bytes that lead outside of them, or to no end. -/
theorem parse_exact :
    (∀ buf, Machine.parseUsbDescriptor buf = Checked.of (parseUsbDescriptor buf)) ∧
      ∀ (dev cfg : Descriptor) (ds : List Descriptor), dev.type = 0x01#8 → dev.bytes.length = 18 → cfg.type = 0x02#8 →
        cfg.bytes.length = 9 →
        Machine.parseUsbDescriptor ((dev :: cfg :: ds).flatMap Descriptor.bytes) =
          pure
            { dev := dev.bytes
              config := (cfg :: ds).flatMap Descriptor.bytes
              bMaxPower := cfg.bytes.getD 8 0#8
              ifaces := interfaces ds
              ifaceCur := -1 } := by
  refine ⟨Machine.parseUsbDescriptor_eq, fun dev cfg ds hdev hdev' hcfg hcfg' => ?_⟩
  rw [Machine.parseUsbDescriptor_eq, parseUsbDescriptor_blob hdev hdev' hcfg hcfg', Checked.of_some]

def deviceDescriptor : Descriptor :=
  ⟨0x01#8, List.replicate 16 0#8, by decide, by decide, by decide⟩

def configDescriptor : Descriptor := ⟨0x02#8, List.replicate 7 0x32#8, by decide, by decide, by decide⟩

/-- An endpoint of no interface, an interface with an endpoint of seven bytes behind a descriptor of a class, and one
with none. -/
def mixedDescriptors : List Descriptor :=
  [⟨0x05#8, [1#8], by decide, by decide, by decide⟩,
   ⟨0x04#8, [0#8, 1#8, 1#8, 0#8, 0#8, 0#8, 0#8], by decide, by decide, by decide⟩,
   ⟨0x24#8, [9#8, 9#8], by decide, by decide, by decide⟩,
   ⟨0x05#8, [0x81#8, 2#8, 0#8, 2#8, 0#8], by decide, by decide, by decide⟩,
   ⟨0x04#8, [1#8, 0#8, 0#8, 0#8, 0#8, 0#8, 0#8], by decide, by decide, by decide⟩]

theorem parse_exact_mixed :
    Machine.parseUsbDescriptor ((deviceDescriptor :: configDescriptor :: mixedDescriptors).flatMap Descriptor.bytes) =
      pure
        { dev := deviceDescriptor.bytes
          config := (configDescriptor :: mixedDescriptors).flatMap Descriptor.bytes
          bMaxPower := 0x32#8
          ifaces :=
            [⟨0#8, 1#8, [⟨[7#8, 5#8, 0x81#8, 2#8, 0#8, 2#8, 0#8, 0#8, 0#8], -1⟩]⟩, ⟨1#8, 0#8, []⟩]
          ifaceCur := -1 } :=
  parse_exact.2 deviceDescriptor configDescriptor mixedDescriptors rfl rfl rfl rfl

end Vock.Fuzz.PseudoSyscalls
