import ValueHashing.Encoding
import ValueHashing.Proofs.Digits

/-!
# Leaves and their bytes

The encoding of a leaf is what an algorithm is fed for it: integers of a fixed width, wrapped
lengths and normalized floating-point numbers have the digits of the numbers they stand for
(`encode_int` to `encode_length`).

In either byte order the bytes of an integer tell the integer, and the bytes of a length tell it
as long as it fits into the width in which lengths are written. The values of a scalar shape have
encodings of one size, and different ones have different encodings (`encode_scalar_inj`).
-/

namespace ValueHashing

/-! ## What a leaf is fed as -/

namespace Layout

variable (L : Layout)

theorem digits_eq_encode (size n : Nat) : L.digits size n = L.order.encode size n := by
  rw [digits]
  cases L.order <;> rfl

@[simp] theorem length_digits (size n : Nat) : (L.digits size n).length = size := by
  rw [digits_eq_encode, ByteOrder.length_encode]

/-- Digits that are not written do not count. -/
theorem digits_mod (size n : Nat) : L.digits size (n % 256 ^ size) = L.digits size n := by
  rw [digits, digits]
  cases L.order with
  | big => exact Bytes.bigEndian_mod (Nat.le_refl size) n
  | little | native => exact Bytes.littleEndian_mod (Nat.le_refl size) n

theorem digits_toNat (w : Width) (x : BitVec w.bits) : L.digits w.size x.toNat = L.integer w x :=
  L.digits_eq_encode w.size x.toNat

/-- A number cut to a width has the digits that fit. -/
theorem integer_ofNat (w : Width) (n : Nat) :
    L.integer w (BitVec.ofNat w.bits n) = L.digits w.size n := by
  rw [← digits_toNat, BitVec.toNat_ofNat, w.two_pow_bits, digits_mod]

/-- To write the low digits of a length is to wrap it. -/
theorem count_eq_length (n : Nat) : L.count n = L.length n :=
  (L.integer_ofNat L.lengthWidth n).symm

end Layout

theorem FloatFormat.pattern_toNat (format : FloatFormat) (x : BitVec format.width.bits) :
    format.pattern x.toNat = (format.normalize x).toNat := by
  -- The sign bit alone is the pattern of the negative zero in both formats.
  have hsign {width signBit : Nat} (x : BitVec width)
      (hbit : (BitVec.intMin width).toNat = signBit) :
      (if x.toNat = signBit then 0 else x.toNat) =
        (if x = BitVec.intMin width then 0 else x).toNat := by
    subst hbit
    by_cases hx : x = BitVec.intMin width
    · rw [hx, if_pos rfl, if_pos rfl]
      rfl
    · rw [if_neg hx, if_neg fun h => hx (BitVec.toNat_inj.mp h)]
  cases format with
  | single => exact hsign x rfl
  | double => exact hsign x rfl

section

variable (L : Layout)

theorem encode_int (signed : Bool) (w : Width) (x : BitVec w.bits) :
    encode L (.int signed w) x = L.integer w x :=
  L.digits_toNat w x

theorem encode_machineInt (signed : Bool) (x : BitVec Width.machine.bits) :
    encode L (.machineInt signed) x = L.integer .machine x :=
  L.digits_toNat .machine x

theorem encode_char (c : Char) :
    encode L .char c = L.integer .w32 (BitVec.ofNat 32 c.toNat) :=
  (L.integer_ofNat .w32 c.toNat).symm

theorem encode_float (format : FloatFormat) (x : BitVec format.width.bits) :
    encode L (.float format) x = L.integer format.width (format.normalize x) := by
  rw [encode, format.pattern_toNat, L.digits_toNat]

theorem encode_text (s : String) :
    encode L .text s = Bytes.utf8 s ++ L.length (Bytes.utf8 s).length := by
  rw [encode, L.count_eq_length]

theorem encode_length (n : BitVec Width.machine.bits) :
    encode L .length n = L.length n.toNat :=
  L.count_eq_length n.toNat

end

/-! ## Leaves are told apart -/

theorem ByteOrder.encode_inj (order : ByteOrder) {size x y : Nat} (hx : x < 256 ^ size)
    (hy : y < 256 ^ size) : order.encode size x = order.encode size y ↔ x = y := by
  unfold encode
  split
  · exact Bytes.littleEndian_inj hx hy
  · exact Bytes.bigEndian_inj hx hy

namespace Layout

variable (L : Layout)

theorem integer_inj {w : Width} {x y : BitVec w.bits} :
    L.integer w x = L.integer w y ↔ x = y := by
  have hx : x.toNat < 256 ^ w.size := w.two_pow_bits ▸ x.isLt
  have hy : y.toNat < 256 ^ w.size := w.two_pow_bits ▸ y.isLt
  rw [integer, integer, L.order.encode_inj hx hy, BitVec.toNat_inj]

@[simp] theorem length_length (n : Nat) : (L.length n).length = L.lengthWidth.size :=
  L.length_integer _ _

/-- Code points fit into four bytes. -/
theorem integer_char_inj {c d : Char} :
    L.integer .w32 (BitVec.ofNat 32 c.toNat) = L.integer .w32 (BitVec.ofNat 32 d.toNat) ↔
      c = d := by
  have hc : c.toNat < 2 ^ 32 := c.val.toNat_lt
  have hd : d.toNat < 2 ^ 32 := d.val.toNat_lt
  have hbits : BitVec.ofNat 32 c.toNat = BitVec.ofNat 32 d.toNat ↔ c = d := by
    rw [← BitVec.toNat_inj, BitVec.toNat_ofNat, BitVec.toNat_ofNat, Nat.mod_eq_of_lt hc,
      Nat.mod_eq_of_lt hd, Char.toNat_inj]
  exact (L.integer_inj (w := .w32)).trans hbits

end Layout

/-- Integers, truth values and characters. -/
def Shape.scalar : Shape → Bool
  | int .. | machineInt _ | bool | char => true
  | _ => false

variable (L : Layout) {s : Shape}

/-- All values of a scalar shape have encodings of one size. -/
theorem length_encode_scalar (hs : s.scalar = true) (x y : s.Value) :
    (encode L s x).length = (encode L s y).length := by
  cases s with
  | int | machineInt | char => exact (L.length_digits _ _).trans (L.length_digits _ _).symm
  | bool => rfl
  | _ => cases hs

theorem encode_scalar_inj (hs : s.scalar = true) {x y : s.Value}
    (h : encode L s x = encode L s y) : x = y := by
  cases s with
  | int signed w =>
      rw [encode_int, encode_int] at h
      exact L.integer_inj.mp h
  | machineInt signed =>
      rw [encode_machineInt, encode_machineInt] at h
      exact L.integer_inj.mp h
  | bool =>
      have hinj : ∀ b c : Bool, b.toUInt8 = c.toUInt8 → b = c := by decide
      exact hinj x y (List.cons.inj h).1
  | char =>
      rw [encode_char, encode_char] at h
      exact L.integer_char_inj.mp h
  | _ => cases hs

end ValueHashing
