import Vock.Fuzz.Arena

/-!
# Images and their lengths

`encoded_len` says how long an image gets, whatever the resource values are.
-/

namespace Vock.Fuzz

@[simp] theorem length_resize (bytes : List U8) (n : Nat) : (resize bytes n).length = n := by
  simp only [resize, List.length_append, List.length_take, List.length_replicate]
  omega

variable (ctx : Ctx)

@[simp] theorem encode_union (inner : Arg) (w : Nat) :
    encode ctx (.union inner) w = encode ctx inner w := by rw [encode]

@[simp] theorem encode_out (slot : U64) (inner : Arg) (w : Nat) :
    encode ctx (.out slot inner) w = resize (encode ctx inner resWidth) resWidth := by rw [encode]

variable (fs : List Arg) (w : Nat)

@[simp] theorem encode_struct :
    encode ctx (.struct fs) w = encodeAll ctx fs w := by rw [encode]

@[simp] theorem encode_array :
    encode ctx (.array fs) w = encodeAll ctx fs w := by rw [encode]

mutual

theorem length_encode : ∀ (a : Arg) (w : Nat), (encode ctx a w).length = encodedLen a w
  | .struct fs, w | .array fs, w => by rw [encode, length_encodeAll fs, encodedLen]
  | .union inner, w => by rw [encode, length_encode inner, encodedLen]
  | .out .., w => by rw [encode, length_resize, encodedLen]
  | .ptr .., w => by rw [encode, length_leBytes, encodedLen]
  | .int _, w | .res .., w | .nil, w => by rw [encode, encodedLen] <;> simp
  | .csum, w => by rw [encode, List.length_replicate, encodedLen]
  | .data _, w => by rw [encode, encodedLen]

theorem length_encodeAll : ∀ (fs : List Arg) (w : Nat), (encodeAll ctx fs w).length = encodedLenAll fs w
  | [], _ => rfl
  | f :: fs, w => by rw [encodeAll, List.length_append, length_encode f, length_encodeAll fs, encodedLenAll]

end

@[simp] theorem length_fixCsums (bytes : List U8) (a : Arg) (w : Nat) :
    (fixCsums bytes a w).length = bytes.length := by
  unfold fixCsums
  split
  · rfl
  · split
    · rfl
    · simp

theorem length_image (ctx : Ctx) (inner : Arg) : (image w ctx inner).length = encodedLen inner w := by
  rw [image, length_fixCsums, length_encode]

/-- A literal is its own image. -/
@[simp] theorem image_data (ctx : Ctx) (d : List U8) : image w ctx (.data d) = d := by
  simp [image, fixCsums, csumOffset, encode]

end Vock.Fuzz
