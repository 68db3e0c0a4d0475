import Mathlib.Data.Set.Finite.Basic
import Vock.Fuzz.Btf
import Vock.Library.Cursor
import Vock.Library.Loop

/-!
# The types of a BTF section

The records of the BTF format, of all kinds, with what the format has behind the three words of each
(`Record.bytes`). `Btf::open` gives each record the entry of its number (`openRaw_records_iff`), but for tags: it
takes neither the word behind a declaration tag nor the type that a tag is for. `resolve` goes on forever where types refer to
each other in a circle (`resolve_ends_iff`).
-/

namespace Vock.Fuzz.Btf

open Library List StateTransition

variable {lossy : List U8 → List U8} {strs : List U8}

/-! ## Records -/

/-- The kinds with nothing but a type. -/
inductive RefKind where
  | ptr
  | typedef
  | volatile
  | const
  | restrict
  deriving Repr, DecidableEq

def RefKind.number : RefKind → Nat
  | .ptr => 2
  | .typedef => 8
  | .volatile => 9
  | .const => 10
  | .restrict => 11

/-- What a record says behind its name, by its kind. -/
inductive Body where
  | int (size encoding : BitVec 32)
  | refers (kind : RefKind) (type : BitVec 32)
  | array (type index nelems : BitVec 32)
  | struct (union kflag : Bool) (size : BitVec 32) (members : List (BitVec 32 × BitVec 32 × BitVec 32))
  | enum (kflag : Bool) (size : BitVec 32) (vals : List (BitVec 32 × BitVec 32))
  | fwd (union : Bool)
  | func (linkage : Nat) (type : BitVec 32)
  | funcProto (ret : BitVec 32) (params : List (BitVec 32 × BitVec 32))
  | var (type linkage : BitVec 32)
  | datasec (size : BitVec 32) (vars : List (BitVec 32 × BitVec 32 × BitVec 32))
  | float (size : BitVec 32)
  | declTag (kflag : Bool) (type component : BitVec 32)
  | typeTag (kflag : Bool) (type : BitVec 32)
  | enum64 (kflag : Bool) (size : BitVec 32) (vals : List (BitVec 32 × BitVec 32 × BitVec 32))

variable {b : Body} {α : Type} {l : List α} {n : Nat}

def Body.kind : Body → Nat
  | .int .. => 1
  | .refers k _ => k.number
  | .array .. => 3
  | .struct union .. => if union then 5 else 4
  | .enum .. => 6
  | .fwd _ => 7
  | .func .. => 12
  | .funcProto .. => 13
  | .var .. => 14
  | .datasec .. => 15
  | .float _ => 16
  | .declTag .. => 17
  | .typeTag .. => 18
  | .enum64 .. => 19

def Body.kflag : Body → Bool
  | .struct _ kflag _ _ => kflag
  | .enum kflag _ _ => kflag
  | .fwd union => union
  | .declTag kflag _ _ => kflag
  | .typeTag kflag _ => kflag
  | .enum64 kflag _ _ => kflag
  | _ => false

def Body.vlen : Body → Nat
  | .struct _ _ _ members => members.length
  | .enum _ _ vals => vals.length
  | .func linkage _ => linkage
  | .funcProto _ params => params.length
  | .datasec _ vars => vars.length
  | .enum64 _ _ vals => vals.length
  | _ => 0

def Body.sizeOrType : Body → BitVec 32
  | .int size _ => size
  | .refers _ type => type
  | .array .. => 0
  | .struct _ _ size _ => size
  | .enum _ size _ => size
  | .fwd _ => 0
  | .func _ type => type
  | .funcProto ret _ => ret
  | .var type _ => type
  | .datasec size _ => size
  | .float size => size
  | .declTag _ type _ => type
  | .typeTag _ type => type
  | .enum64 _ size _ => size

/-- A word in bytes. -/
def word (w : BitVec 32) : List U8 := leBytes 4 (w.setWidth 64)

def pair (e : BitVec 32 × BitVec 32) : List U8 := word e.1 ++ word e.2

def triple (e : BitVec 32 × BitVec 32 × BitVec 32) : List U8 := word e.1 ++ (word e.2.1 ++ word e.2.2)

/-- What the format has behind the three words of a record. -/
def Body.trailing : Body → List U8
  | .int _ encoding => word encoding
  | .array type index nelems => triple (type, index, nelems)
  | .struct _ _ _ members => members.flatMap triple
  | .enum _ _ vals => vals.flatMap pair
  | .funcProto _ params => params.flatMap pair
  | .var _ linkage => word linkage
  | .datasec _ vars => vars.flatMap triple
  | .declTag _ _ component => word component
  | .enum64 _ _ vals => vals.flatMap triple
  | _ => []

/-- The second word: the flag, the kind and the number of what follows. -/
def Body.info (b : Body) : BitVec 32 :=
  BitVec.ofNat 32 ((if b.kflag then 2 ^ 31 else 0) + b.kind * 2 ^ 24 + b.vlen)

/-- The number of what follows has 16 bits, and a declaration tag is for a type that is not void. -/
def Body.WellFormed (b : Body) : Prop := b.vlen < 2 ^ 16 ∧ (b.kind = 17 → b.sizeOrType ≠ 0)

structure Record where
  nameOff : BitVec 32
  body : Body

def Record.bytes (r : Record) : List U8 :=
  word r.nameOff ++ (word r.body.info ++ (word r.body.sizeOrType ++ r.body.trailing))

section

variable (lossy strs)

/-- A member of a structure; with the flag the upper byte is the width of a bit field. -/
def member (kflag : Bool) (e : BitVec 32 × BitVec 32 × BitVec 32) : BtfMember :=
  ⟨btfStr lossy strs e.1, e.2.1, if kflag then e.2.2 &&& 0xffffff#32 else e.2.2⟩

def enumVal (e : BitVec 32 × BitVec 32) : BtfEnumVal := ⟨btfStr lossy strs e.1, e.2.toInt⟩

def enumVal64 (e : BitVec 32 × BitVec 32 × BitVec 32) : BtfEnumVal :=
  ⟨btfStr lossy strs e.1, (e.2.2 ++ e.2.1 : BitVec 64).toInt⟩

/-- The entry with the fields of a body. -/
def Body.entry (out : BtfType) : Body → BtfType
  | .int size encoding =>
    { out with
      size, intBits := (encoding &&& 0xff#32).setWidth 8, intSigned := (encoding >>> 24 &&& 1#32).setWidth 8 }
  | .refers _ type => { out with refTypeId := type }
  | .array type _ nelems => { out with arrayTypeId := type, arrayNelems := nelems }
  | .struct _ kflag size members => { out with size, members := members.map (member lossy strs kflag) }
  | .enum _ size vals => { out with size, enums := vals.map (enumVal lossy strs) }
  | .fwd _ => out
  | .func _ type => { out with refTypeId := type }
  | .funcProto ret _ => { out with refTypeId := ret }
  | .var type _ => { out with refTypeId := type }
  | .datasec size _ => { out with size }
  | .float size => { out with size }
  | .declTag _ type _ => { out with refTypeId := type }
  | .typeTag _ type => { out with refTypeId := type }
  | .enum64 _ size vals => { out with size, enums := vals.map (enumVal64 lossy strs) }

/-- The entry of a record. -/
def Record.entry (r : Record) (id : Nat) : BtfType :=
  r.body.entry lossy strs { BtfType.void with id, kind := r.body.kind, name := btfStr lossy strs r.nameOff }

end

/-- The bodies that are read back: no declaration tags, and no type tags of other types than void. -/
def Body.ReadBack : Body → Prop
  | .declTag .. => False
  | .typeTag _ type => type = 0
  | _ => True

/-! ## Words -/

section

variable {sec : List U8} {p : Nat}

theorem length_word (w : BitVec 32) : (word w).length = 4 := length_leBytes 4 _

theorem length_pair (e : BitVec 32 × BitVec 32) : (pair e).length = 8 := by
  rw [pair, length_append, length_word, length_word]

theorem length_triple (e : BitVec 32 × BitVec 32 × BitVec 32) : (triple e).length = 12 := by
  rw [triple, length_append, length_append, length_word, length_word, length_word]

theorem rd_found {bs : List U8} (hlen : bs.length = n) (h : Found bs sec p) : rd n sec p = some (leValue bs) := by
  have hle := h.le_length
  obtain ⟨pre, post, rfl, rfl⟩ := h
  rw [rd, if_pos (by omega), drop_left, ← hlen, take_left]

theorem rdU32_word {w : BitVec 32} (h : Found (word w) sec p) : rdU32 sec p = some w := by
  rw [rdU32, rd_found (length_word w) h, Option.map_some, word, leValue_leBytes_four]

/-- What is read at each of some places, is read one after the other. -/
theorem mapM_range {f : Nat → Option α} (h : ∀ i a, l[i]? = some a → f i = some a) :
    (List.range l.length).mapM f = some l := by
  induction l generalizing f with
  | nil => rfl
  | cons a l ih =>
    have hrest := @ih (f ∘ Nat.succ) fun i b hi => h (i + 1) b hi
    rw [length_cons, range_succ_eq_map, mapM_cons, h 0 a rfl, mapM_map, hrest]
    rfl

end

/-! ## Reading a record -/

section

variable {sec : List U8} {p : Nat} {kflag : Bool} {r : Record} {e : BitVec 32 × BitVec 32 × BitVec 32}

theorem Body.kind_lt (b : Body) : b.kind < 32 := by
  cases b with
  | refers k => cases k <;> simp only [Body.kind, RefKind.number] <;> omega
  | struct union =>
    rw [Body.kind]
    split <;> omega
  | _ => simp only [Body.kind]; omega

theorem toNat_info (h : b.WellFormed) : b.info.toNat = (if b.kflag then 2 ^ 31 else 0) + b.kind * 2 ^ 24 + b.vlen := by
  have hkind := b.kind_lt
  have hvlen := h.1
  rw [Body.info, BitVec.toNat_ofNat, Nat.mod_eq_of_lt]
  split <;> omega

theorem kind_info (h : b.WellFormed) : (b.info >>> 24 &&& 0x1f#32).toNat = b.kind := by
  have hkind := b.kind_lt
  have hvlen := h.1
  have hand : ∀ n : Nat, n &&& 31 = n % 32 := fun n => Nat.and_two_pow_sub_one_eq_mod n 5
  rw [BitVec.toNat_and, BitVec.toNat_ushiftRight, toNat_info h]
  change _ &&& 31 = _
  rw [hand]
  split <;> omega

theorem vlen_info (h : b.WellFormed) : (b.info &&& 0xffff#32).toNat = b.vlen := by
  have hvlen := h.1
  have hand : ∀ n : Nat, n &&& 65535 = n % 65536 := fun n => Nat.and_two_pow_sub_one_eq_mod n 16
  rw [BitVec.toNat_and, toNat_info h]
  change _ &&& 65535 = _
  rw [hand]
  split <;> omega

theorem kflag_info (h : b.WellFormed) : decide (b.info >>> 31 ≠ 0#32) = b.kflag := by
  have hkind := b.kind_lt
  have hvlen := h.1
  have hshift : (b.info >>> 31).toNat = if b.kflag then 1 else 0 := by
    rw [BitVec.toNat_ushiftRight, toNat_info h]
    split <;> omega
  cases hflag : b.kflag with
  | true =>
    refine decide_eq_true fun hzero => ?_
    rw [hflag, hzero] at hshift
    exact absurd hshift (by decide)
  | false =>
    refine decide_eq_false fun hne => hne (BitVec.eq_of_toNat_eq ?_)
    rw [hshift, hflag]
    rfl

/-- The three words are read, and then what the kind has. -/
theorem readType_words {nameOff info sizeOrType : BitVec 32} {kind vlen : Nat}
    (hname : rdU32 sec p = some nameOff) (hinfo : rdU32 sec (p + 4) = some info)
    (hsize : rdU32 sec (p + 8) = some sizeOrType) (hkind : (info >>> 24 &&& 0x1f#32).toNat = kind)
    (hvlen : (info &&& 0xffff#32).toNat = vlen) (hkflag : decide (info >>> 31 ≠ 0#32) = kflag) (id : Nat) :
    readType lossy strs sec id p = readKind lossy strs sec kind
      { BtfType.void with id, kind, name := btfStr lossy strs nameOff } kflag vlen sizeOrType (p + 12) := by
  rw [readType, hname, hinfo, hsize, ← hkind, ← hvlen, ← hkflag]
  rfl

theorem readType_record (hwf : r.body.WellFormed) (h : Found r.bytes sec p) (id : Nat) :
    readType lossy strs sec id p = readKind lossy strs sec r.body.kind
      { BtfType.void with id, kind := r.body.kind, name := btfStr lossy strs r.nameOff } r.body.kflag r.body.vlen
      r.body.sizeOrType (p + 12) := by
  have hinfo := rdU32_word h.right.left
  have hsize := rdU32_word h.right.right.left
  exact readType_words (rdU32_word h.left) hinfo hsize (kind_info hwf) (vlen_info hwf) (kflag_info hwf) id

theorem trailing_found (h : Found r.bytes sec p) : Found r.body.trailing sec (p + 12) := by
  have htrailing := h.right.right.right
  rwa [length_word] at htrailing

theorem readMember_triple (h : Found (triple e) sec p) :
    readMember lossy strs sec kflag p = some (member lossy strs kflag e) := by
  have htype := rdU32_word h.right.left
  have hoff := rdU32_word h.right.right
  rw [length_word] at htype hoff
  rw [length_word] at hoff
  rw [readMember, rdU32_word h.left, htype, hoff]
  rfl

theorem readEnum_pair {e : BitVec 32 × BitVec 32} (h : Found (pair e) sec p) :
    readEnum lossy strs sec p = some (enumVal lossy strs e) := by
  have hval := rdU32_word h.right
  rw [length_word] at hval
  rw [readEnum, rdU32_word h.left, hval]
  rfl

theorem readEnum64_triple (h : Found (triple e) sec p) :
    readEnum64 lossy strs sec p = some (enumVal64 lossy strs e) := by
  have hlo := rdU32_word h.right.left
  have hhi := rdU32_word h.right.right
  rw [length_word] at hlo hhi
  rw [length_word] at hhi
  have hword : (e.2.2.setWidth 64 <<< 32 ||| e.2.1.setWidth 64 : U64) = e.2.2 ++ e.2.1 := by
    refine BitVec.eq_of_getLsbD_eq fun j hj => ?_
    rw [BitVec.getLsbD_or, BitVec.getLsbD_append]
    by_cases hlow : j < 32
    · simp [hj, hlow]
    · have hzero := BitVec.getLsbD_of_ge e.2.1 j (by omega)
      simp [hj, hzero]
  rw [readEnum64, rdU32_word h.left, hlo, hhi]
  change some (BtfEnumVal.mk _ (e.2.2.setWidth 64 <<< 32 ||| e.2.1.setWidth 64 : U64).toInt) = _
  rw [hword]
  rfl

/-- The members or values behind a record. -/
theorem mapM_found {β : Type} {spell : α → List U8} (hlen : ∀ a, (spell a).length = n) {read : Nat → Option β}
    {f : α → β} (hread : ∀ a q, Found (spell a) sec q → read q = some (f a))
    (h : Found (l.flatMap spell) sec p) : (List.range l.length).mapM (fun i => read (p + i * n)) = some (l.map f) := by
  rw [← length_map f]
  refine mapM_range fun i b hi => ?_
  rw [getElem?_map] at hi
  obtain ⟨a, ha, rfl⟩ := Option.map_eq_some_iff.mp hi
  exact hread a _ (h.flatMap hlen ha)

/-- What is behind the three words of a record that is read back. -/
theorem readKind_readBack (hback : b.ReadBack) {q : Nat} (h : Found b.trailing sec q) {out : BtfType}
    (href : out.refTypeId = 0) :
    readKind lossy strs sec b.kind out b.kflag b.vlen b.sizeOrType q =
      some (b.entry lossy strs out, q + b.trailing.length) := by
  have hvoid : { out with refTypeId := 0 } = out := by rw [← href]
  cases b with
  | int size encoding =>
    change Option.bind (rdU32 sec q) _ = _
    rw [rdU32_word h]
    rfl
  | refers k type => cases k <;> rfl
  | array type index nelems =>
    have htype := rdU32_word h.left
    have hnelems := rdU32_word h.right.right
    rw [length_word, length_word] at hnelems
    change Option.bind (rdU32 sec q) (fun type => Option.bind (rdU32 sec (q + 8)) _) = _
    rw [htype, hnelems]
    rfl
  | struct union kflag size members =>
    have hmembers := mapM_found length_triple (fun e q => @readMember_triple lossy strs sec q kflag e) h
    have hlen := length_flatMap_eq length_triple members
    cases union
    all_goals
      change Option.bind ((range members.length).mapM fun i => readMember lossy strs sec kflag (q + i * 12)) _ =
        some (_, q + (members.flatMap triple).length)
      rw [hmembers, hlen]
      rfl
  | enum kflag size vals =>
    change Option.bind ((range vals.length).mapM _) _ = some (_, q + (vals.flatMap pair).length)
    rw [mapM_found length_pair (fun e q => readEnum_pair) h, length_flatMap_eq length_pair]
    rfl
  | fwd union => exact congrArg (fun t => some (t, q)) hvoid
  | func linkage type | var type linkage | float size => rfl
  | funcProto ret params =>
    change some (_, q + params.length * 8) = some (_, q + (params.flatMap pair).length)
    rw [length_flatMap_eq length_pair]
    rfl
  | datasec size vars =>
    change some (_, q + vars.length * 12) = some (_, q + (vars.flatMap triple).length)
    rw [length_flatMap_eq length_triple]
    rfl
  | declTag kflag type component => exact hback.elim
  | typeTag kflag type =>
    obtain rfl : type = 0 := hback
    exact congrArg (fun t => some (t, q)) hvoid.symm
  | enum64 kflag size vals =>
    change Option.bind ((range vals.length).mapM _) _ = some (_, q + (vals.flatMap triple).length)
    rw [mapM_found length_triple (fun e q => readEnum64_triple) h, length_flatMap_eq length_triple]
    rfl

/-- A record that is read back gets its entry, and the next one is read behind it. -/
theorem readType_readBack (hwf : r.body.WellFormed) (hback : r.body.ReadBack) (h : Found r.bytes sec p)
    (id : Nat) :
    readType lossy strs sec id p = some (r.entry lossy strs id, p + r.bytes.length) := by
  rw [readType_record hwf h, readKind_readBack hback (trailing_found h) rfl]
  simp only [Record.bytes, length_append, ← Nat.add_assoc]
  rfl

/-- A tag that is not read back gets an entry without its type. -/
theorem readType_not_readBack (hwf : r.body.WellFormed) (hback : ¬ r.body.ReadBack)
    (h : Found r.bytes sec p) (id : Nat) :
    ∃ out next, readType lossy strs sec id p = some (out, next) ∧ out ≠ r.entry lossy strs id := by
  obtain ⟨nameOff, body⟩ := r
  rw [readType_record hwf h]
  cases body with
  | declTag kflag type component =>
    refine ⟨_, _, rfl, fun heq => hwf.2 rfl ?_⟩
    exact (congrArg BtfType.refTypeId heq).symm
  | typeTag kflag type =>
    refine ⟨_, _, rfl, fun heq => hback ?_⟩
    exact (congrArg BtfType.refTypeId heq).symm
  | _ => exact absurd trivial hback

/-! ## The section -/

theorem Record.length_bytes (r : Record) : 12 ≤ r.bytes.length := by
  simp only [Record.bytes, length_append, length_word]
  omega

theorem length_le_bytes (rs : List Record) : rs.length ≤ (rs.flatMap Record.bytes).length := by
  induction rs with
  | nil => exact Nat.le_refl 0
  | cons r rs ih =>
    have hlen := r.length_bytes
    rw [flatMap_cons, length_append, length_cons]
    omega

theorem map_cons_eq_some_iff {a b : α} {x : Option (List α)} :
    (a :: ·) <$> x = some (b :: l) ↔ a = b ∧ x = some l := by
  cases x with
  | none => exact iff_of_false nofun nofun
  | some l' =>
    change some (a :: l') = some (b :: l) ↔ _
    rw [Option.some.injEq, cons.injEq, Option.some.injEq]

/-- The types of a section are its records, in their order, where all of them are read back. -/
theorem readTypes_iff {rs : List Record} (hwf : ∀ r ∈ rs, r.body.WellFormed) (h : Found (rs.flatMap Record.bytes) sec p)
    (hend : p + (rs.flatMap Record.bytes).length = sec.length) {fuel : Nat} (hfuel : rs.length < fuel) (id : Nat) :
    readTypes lossy strs sec fuel id p = some (rs.mapIdx fun i r => r.entry lossy strs (id + i)) ↔
      ∀ r ∈ rs, r.body.ReadBack := by
  induction rs generalizing p fuel id with
  | nil =>
    obtain ⟨fuel, rfl⟩ : ∃ n, fuel = n + 1 := ⟨fuel - 1, by omega⟩
    rw [flatMap_nil, length_nil] at hend
    rw [readTypes, if_neg (by omega)]
    exact iff_of_true rfl nofun
  | cons r rs ih =>
    obtain ⟨fuel, rfl⟩ : ∃ n, fuel = n + 1 := ⟨fuel - 1, by omega⟩
    obtain ⟨hr, hrs⟩ := forall_mem_cons.mp hwf
    rw [flatMap_cons] at h hend
    rw [length_append] at hend
    have hlen := r.length_bytes
    rw [readTypes, if_pos (by omega), mapIdx_cons, forall_mem_cons]
    by_cases hback : r.body.ReadBack
    · have hrest := ih hrs h.right (by omega) (Nat.lt_of_succ_lt_succ hfuel) (id + 1)
      simp only [Nat.add_assoc, Nat.add_comm 1] at hrest
      rw [readType_readBack hr hback h.left, and_iff_right hback, ← hrest]
      exact map_cons_eq_some_iff.trans (and_iff_right rfl)
    · obtain ⟨out, next, hread, hne⟩ := @readType_not_readBack lossy strs sec p r hr hback h.left id
      rw [hread]
      exact iff_of_false (fun heq => hne (map_cons_eq_some_iff.mp heq).1) fun hall => hback hall.1

end

/-! ## The file -/

section

variable {raw types : List U8}

/-- The header of 24 bytes. -/
def headerBytes (version flags : U8) (hdrLen typeOff strOff : BitVec 32) (types strs : List U8) : List U8 :=
  [0x9f#8, 0xeb#8] ++ ([version, flags] ++ (word hdrLen ++ (word typeOff ++ (word (BitVec.ofNat 32 types.length) ++
    (word strOff ++ word (BitVec.ofNat 32 strs.length))))))

/-- The file has a header, and the two sections where the header says. -/
structure Image (raw types strs : List U8) : Prop where
  typesLength : types.length < 2 ^ 32
  strsLength : strs.length < 2 ^ 32
  parts : ∃ version flags hdrLen typeOff strOff, Found (headerBytes version flags hdrLen typeOff strOff types strs) raw 0 ∧
    Found types raw (hdrLen.toNat + typeOff.toNat) ∧ Found strs raw (hdrLen.toNat + strOff.toNat)

theorem slice_found {s data : List U8} {pos : Nat} (h : Found s data pos) (hn : n = s.length) :
    slice data pos (pos + n) = some s := by
  have hle := h.le_length
  obtain ⟨pre, post, rfl, rfl⟩ := h
  rw [slice, if_pos (by omega), drop_left, Nat.add_sub_cancel_left, hn, take_left]

theorem parse_image (h : Image raw types strs) :
    parse lossy raw = (BtfType.void :: ·) <$> readTypes lossy strs types (types.length + 1) 1 0 := by
  obtain ⟨version, flags, hdrLen, typeOff, strOff, hheader, htypes, hstrs⟩ := h.parts
  have hlen := hheader.le_length
  simp only [headerBytes, length_append, length_cons, length_nil, length_word] at hlen
  have hmagic := rd_found (n := 2) rfl hheader.left
  have hhdr := rdU32_word hheader.right.right.left
  have htypeOff := rdU32_word hheader.right.right.right.left
  have htypeLen := rdU32_word hheader.right.right.right.right.left
  have hstrOff := rdU32_word hheader.right.right.right.right.right.left
  have hstrLen := rdU32_word hheader.right.right.right.right.right.right
  simp only [length_cons, length_nil, length_word] at hhdr htypeOff htypeLen hstrOff hstrLen
  have hvalue : leValue [0x9f#8, 0xeb#8] = 0xeb9f#64 := by decide
  rw [parse, hmagic]
  change (if raw.length < 24 ∨ leValue [0x9f#8, 0xeb#8] ≠ 0xeb9f#64 then none else _) = _
  rw [if_neg (fun h => h.elim (by omega) fun hne => hne hvalue), hhdr, htypeOff, htypeLen, hstrOff, hstrLen]
  change Option.bind (slice raw _ (hdrLen.toNat + strOff.toNat + (BitVec.ofNat 32 strs.length).toNat)) (fun strs' =>
    Option.bind (slice raw _ (hdrLen.toNat + typeOff.toNat + (BitVec.ofNat 32 types.length).toNat)) _) = _
  rw [slice_found hstrs (toNat_word h.strsLength), slice_found htypes (toNat_word h.typesLength)]
  rfl

/-- A file that begins with the magic number is no ELF file. -/
theorem openRaw_image (h : Image raw types strs) : openRaw lossy raw = Checked.of (parse lossy raw) := by
  obtain ⟨version, flags, hdrLen, typeOff, strOff, hheader, _⟩ := h.parts
  have hlen := hheader.le_length
  simp only [headerBytes, length_append, length_cons, length_word] at hlen
  have hfirst : raw.take 4 ≠ 0x7f#8 :: ascii ['E', 'L', 'F'] := by
    obtain ⟨pre, post, rfl, hpre⟩ := hheader
    rw [length_eq_zero_iff.mp hpre]
    intro heq
    have hhead : some 0x9f#8 = some 0x7f#8 := congrArg head? heq
    exact absurd hhead (by decide)
  rw [openRaw, if_neg (by omega), if_neg fun hand => hfirst hand.2]

/-- A file of well-formed records gives the table in which each record has the entry of its number, where no
record is a declaration tag, or a type tag of another type than void. -/
theorem openRaw_records_iff {rs : List Record} (hwf : ∀ r ∈ rs, r.body.WellFormed)
    (h : Image raw (rs.flatMap Record.bytes) strs) :
    openRaw lossy raw = Checked.of (some (BtfType.void :: rs.mapIdx fun i r => r.entry lossy strs (1 + i))) ↔
      ∀ r ∈ rs, r.body.ReadBack := by
  have hfound : Found (rs.flatMap Record.bytes) (rs.flatMap Record.bytes) 0 :=
    ⟨[], [], by rw [append_nil, nil_append], rfl⟩
  rw [openRaw_image h, parse_image h, ← readTypes_iff hwf hfound (Nat.zero_add _) (Nat.lt_succ_of_le (length_le_bytes rs)) 1]
  constructor
  · intro heq
    exact (map_cons_eq_some_iff.mp (Except.ok.inj heq)).2
  · intro heq
    rw [heq]
    rfl

/-- The usual layout: the sections one behind the other. -/
theorem image_append (version flags : U8) (htypes : types.length < 2 ^ 32) (hstrs : strs.length < 2 ^ 32) :
    Image (headerBytes version flags 24 0 (BitVec.ofNat 32 types.length) types strs ++ (types ++ strs)) types strs := by
  have hlen : (headerBytes version flags 24 0 (BitVec.ofNat 32 types.length) types strs).length = 24 := by
    simp [headerBytes, length_word]
  refine ⟨htypes, hstrs, version, flags, 24, 0, BitVec.ofNat 32 types.length, ⟨[], types ++ strs, rfl, rfl⟩,
    ⟨_, strs, rfl, hlen⟩, ?_⟩
  refine ⟨headerBytes version flags 24 0 (BitVec.ofNat 32 types.length) types strs ++ types, [], ?_, ?_⟩
  · rw [append_nil, append_assoc]
  · rw [length_append, toNat_word htypes]
    rfl

/-! ## A declaration tag -/

/-- An integer, and a pointer to it, with tags between them. -/
def tagged (tags : List Record) : List Record := ⟨0, .int 4 0x01000020⟩ :: tags ++ [⟨0, .refers .ptr 1⟩]

def taggedRaw (tags : List Record) : List U8 :=
  headerBytes 1#8 0#8 24 0 (BitVec.ofNat 32 ((tagged tags).flatMap Record.bytes).length)
      ((tagged tags).flatMap Record.bytes) [0#8] ++ ((tagged tags).flatMap Record.bytes ++ [0#8])

theorem openRaw_untagged :
    openRaw id (taggedRaw []) =
      Checked.of (some (BtfType.void :: (tagged []).mapIdx fun i r => r.entry id [0#8] (1 + i))) := by
  have hwf : ∀ r ∈ tagged [], r.body.WellFormed := by
    intro r hr
    rcases mem_pair.mp hr with rfl | rfl
    · exact ⟨by decide, by decide⟩
    · exact ⟨by decide, by decide⟩
  refine (openRaw_records_iff hwf (image_append 1#8 0#8 (by decide) (by decide))).mpr fun r hr => ?_
  rcases mem_pair.mp hr with rfl | rfl
  · trivial
  · trivial

/-- The word behind a tag is taken for the name of the next type, so that the pointer gets lost. -/
theorem openRaw_tagged :
    openRaw id (taggedRaw [⟨0, .declTag false 1 0xffffffff⟩]) = Checked.of (some [BtfType.void,
      { BtfType.void with id := 1, kind := 1, size := 4, intBits := 32, intSigned := 1 },
      { BtfType.void with id := 2, kind := 17 }, { BtfType.void with id := 3, kind := 0 }]) := by
  have himage : Image (taggedRaw [⟨0, .declTag false 1 0xffffffff⟩]) ((tagged [⟨0, .declTag false 1 0xffffffff⟩]).flatMap Record.bytes)
      [0#8] := image_append 1#8 0#8 (by decide) (by decide)
  rw [openRaw_image himage]
  exact congrArg Checked.of (by decide +kernel)

end

/-! ## Resolving a type -/

/-- Types are resolved to an end exactly if no type comes back to itself through qualifiers. -/
theorem resolve_ends_iff (types : List BtfType) :
    (∀ t ∈ types, (resolve types t).Dom) ↔ ∀ t ∈ types, ¬ Reaches₁ (resolveStep types) t t := by
  have hstays : ∀ {t u}, t ∈ types → Reaches (resolveStep types) t u → u ∈ types := by
    intro t u ht hu
    refine reaches_invariant (P := (· ∈ types)) (fun s s' _ hstep => ?_) hu ht
    rw [resolveStep] at hstep
    split at hstep
    next => exact mem_of_getElem? hstep
    next => cases hstep
  have hends : ∀ t ∈ types, (resolve types t).Dom ↔
      ¬ ∃ u, Reaches (resolveStep types) t u ∧ Reaches₁ (resolveStep types) u u := by
    intro t ht
    rw [← not_dom_iff_cycle t ((List.finite_toSet types).subset fun _ => hstays ht), not_not]
    rfl
  constructor
  · exact fun h t ht hcycle => (hends t ht).mp (h t ht) ⟨t, .refl, hcycle⟩
  · exact fun h t ht => (hends t ht).mpr fun ⟨u, hu, hcycle⟩ => h u (hstays ht hu) hcycle

/-- A typedef of itself. -/
def selfTypedef : BtfType := { BtfType.void with id := 1, kind := 8, refTypeId := 1 }

theorem resolve_forever :
    openRaw id ([0x9f#8, 0xeb#8, 1#8, 0#8, 24#8, 0#8, 0#8, 0#8, 0#8, 0#8, 0#8, 0#8, 12#8, 0#8, 0#8, 0#8, 12#8, 0#8, 0#8, 0#8,
        1#8, 0#8, 0#8, 0#8] ++ [0#8, 0#8, 0#8, 0#8, 0#8, 0#8, 0#8, 8#8, 1#8, 0#8, 0#8, 0#8] ++ [0#8]) =
      Checked.of (some [BtfType.void, selfTypedef]) ∧
    ¬ (resolve [BtfType.void, selfTypedef] selfTypedef).Dom := by
  refine ⟨OptionT.ext (by decide +kernel), fun hdom => ?_⟩
  obtain ⟨t, ht⟩ := Part.dom_iff_mem.mp hdom
  obtain ⟨hreach, hend⟩ := mem_eval.mp ht
  have hcycle : Reaches₁ (resolveStep [BtfType.void, selfTypedef]) selfTypedef selfTypedef := .single rfl
  exact step_of_cycle hcycle hreach hend

end Vock.Fuzz.Btf
