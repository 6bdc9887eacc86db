import ValueHashing.Bytes

/-!
# Words of a chaining state

The words that compression functions work on, and the way a list of words is written into
a buffer: most significant byte first, one word after the other, until the buffer is full.
-/

namespace ValueHashing

/-- Machine words with wrapping addition and bitwise operations. -/
class Word (W : Type) extends Add W, AndOp W, XorOp W, Complement W, Inhabited W where
  /-- Bytes per word. -/
  size : Nat
  ofNat : Nat → W
  toNat : W → Nat

instance : Word UInt32 where
  size := 4
  ofNat := UInt32.ofNat
  toNat := UInt32.toNat

instance : Word UInt64 where
  size := 8
  ofNat := UInt64.ofNat
  toNat := UInt64.toNat

namespace Word

variable {W : Type} [Word W]

/-- The bytes of a word, most significant first. -/
def bytes (w : W) : Bytes := Bytes.bigEndian (size W) (toNat w)

@[simp] theorem length_bytes (w : W) : (bytes w).length = size W := by
  simp [bytes]

/-- The word whose bytes are given, most significant first. -/
def ofBytes (data : Bytes) : W := ofNat (Bytes.ofBigEndian data)

/-- Write `words` into `buffer`, one after the other, stopping when the buffer is full. A
last piece shorter than a word receives its most significant bytes; bytes of the buffer
beyond the last word stay as they are. -/
def storeAll : List W → Bytes → Bytes
  | [], buffer => buffer
  | w :: words, buffer =>
      Bytes.overwrite (bytes w) (buffer.take (size W)) ++ storeAll words (buffer.drop (size W))

@[simp] theorem length_storeAll (words : List W) (buffer : Bytes) :
    (storeAll words buffer).length = buffer.length := by
  induction words generalizing buffer with
  | nil => rfl
  | cons w words ih =>
      simp only [storeAll, List.length_append, Bytes.length_overwrite, ih, List.length_take,
        List.length_drop]
      omega

/-- The buffer begins with the bytes of the words, as many as there are and as fit. -/
theorem storeAll_eq (words : List W) (buffer : Bytes) :
    storeAll words buffer =
      (words.flatMap bytes).take buffer.length ++ buffer.drop (words.length * size W) := by
  induction words generalizing buffer with
  | nil => simp [storeAll]
  | cons w words ih =>
      have hfits : (buffer.take (size W)).length ≤ (bytes w).length := by
        rw [length_bytes, List.length_take]
        exact Nat.min_le_left _ _
      have htake : (bytes w).take (buffer.take (size W)).length =
          (bytes w).take buffer.length := by
        rw [List.take_eq_take_iff, List.length_take, length_bytes]
        omega
      rw [storeAll, ih, Bytes.overwrite_eq, htake, List.drop_of_length_le hfits, List.append_nil,
        List.flatMap_cons, List.take_append, length_bytes, List.length_drop, List.drop_drop,
        List.length_cons, Nat.succ_mul, Nat.add_comm, List.append_assoc]

end Word

end ValueHashing
