/-!
# Byte strings

Byte strings are lists. This module holds the operations that the rest of the library
builds on: the digits of a number in either byte order, overwriting the front of a
buffer, and cutting a list into pieces of equal length.

The two byte orders are reverses of one another (`bigEndian_eq_reverse`).
-/

namespace ValueHashing

/-- A byte string. -/
abbrev Bytes := List UInt8

namespace Bytes

/-- `n` zero bytes. -/
def zeros (n : Nat) : Bytes := List.replicate n 0

@[simp] theorem length_zeros (n : Nat) : (zeros n).length = n := by
  simp [zeros]

/-- The `n` low digits of `x` in base 256, least significant first. -/
def littleEndian : Nat → Nat → Bytes
  | 0, _ => []
  | n + 1, x => UInt8.ofNat x :: littleEndian n (x / 256)

/-- The `n` low digits of `x` in base 256, most significant first. -/
def bigEndian : Nat → Nat → Bytes
  | 0, _ => []
  | n + 1, x => bigEndian n (x / 256) ++ [UInt8.ofNat x]

/-- The number whose base 256 digits are `bytes`, least significant first. -/
def ofLittleEndian : Bytes → Nat
  | [] => 0
  | b :: rest => b.toNat + 256 * ofLittleEndian rest

/-- The number whose base 256 digits are `bytes`, most significant first. -/
def ofBigEndian (bytes : Bytes) : Nat :=
  bytes.foldl (fun x b => 256 * x + b.toNat) 0

@[simp] theorem length_littleEndian (n x : Nat) : (littleEndian n x).length = n := by
  induction n generalizing x with
  | zero => rfl
  | succ n ih => simp [littleEndian, ih]

@[simp] theorem length_bigEndian (n x : Nat) : (bigEndian n x).length = n := by
  induction n generalizing x with
  | zero => rfl
  | succ n ih => simp [bigEndian, ih]

/-- The two byte orders are reverses of one another. -/
theorem bigEndian_eq_reverse (n x : Nat) :
    bigEndian n x = (littleEndian n x).reverse := by
  induction n generalizing x with
  | zero => rfl
  | succ n ih => rw [bigEndian, ih, littleEndian, List.reverse_cons]

/-- The low digits stand at the end. -/
theorem drop_bigEndian (m n x : Nat) : (bigEndian (m + n) x).drop m = bigEndian n x := by
  induction n generalizing x with
  | zero => exact List.drop_of_length_le (by simp)
  | succ n ih =>
      rw [← Nat.add_assoc, bigEndian, List.drop_append_of_le_length (by simp), ih, bigEndian]

theorem drop_bigEndian_sub {m n : Nat} (h : n ≤ m) (x : Nat) :
    (bigEndian m x).drop (m - n) = bigEndian n x := by
  have hdrop := drop_bigEndian (m - n) n x
  rwa [Nat.sub_add_cancel h] at hdrop

/-- The UTF-8 bytes of a text. -/
def utf8 (s : String) : Bytes := s.toByteArray.data.toList

theorem utf8_injective {s t : String} (h : utf8 s = utf8 t) : s = t := by
  apply String.toByteArray_inj.1
  apply ByteArray.ext
  exact Array.toList_inj.1 h

/-- Write `source` over the front of `buffer`, stopping where the shorter one ends. -/
def overwrite : Bytes → Bytes → Bytes
  | s :: source, _ :: buffer => s :: overwrite source buffer
  | _, buffer => buffer

@[simp] theorem length_overwrite (source buffer : Bytes) :
    (overwrite source buffer).length = buffer.length := by
  induction source generalizing buffer with
  | nil => simp [overwrite]
  | cons s source ih => cases buffer <;> simp [overwrite, ih]

theorem overwrite_eq (source buffer : Bytes) :
    overwrite source buffer = source.take buffer.length ++ buffer.drop source.length := by
  induction source generalizing buffer with
  | nil => simp [overwrite]
  | cons s source ih => cases buffer <;> simp [overwrite, ih]

/-- Over zero bytes, what is written is cut or followed by zero bytes. -/
theorem overwrite_zeros (source : Bytes) (n : Nat) :
    overwrite source (zeros n) = source.take n ++ zeros (n - source.length) := by
  rw [overwrite_eq, length_zeros, zeros, List.drop_replicate, zeros]

end Bytes

/-- The first `count` pieces of `size` elements each; the last may be shorter. -/
def pieces {α : Type} (size : Nat) : Nat → List α → List (List α)
  | 0, _ => []
  | count + 1, xs => xs.take size :: pieces size count (xs.drop size)

@[simp] theorem length_pieces {α : Type} (size count : Nat) (xs : List α) :
    (pieces size count xs).length = count := by
  induction count generalizing xs with
  | zero => rfl
  | succ count ih => simp [pieces, ih]

/-- The pieces in order are the front of the list they were cut from. -/
theorem flatten_pieces {α : Type} (size count : Nat) (xs : List α) :
    (pieces size count xs).flatten = xs.take (count * size) := by
  induction count generalizing xs with
  | zero => simp [pieces]
  | succ count ih =>
      rw [pieces, List.flatten_cons, ih, Nat.succ_mul, Nat.add_comm, List.take_add]

end ValueHashing
