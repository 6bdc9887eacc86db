import Mathlib.Algebra.Group.Nat.Defs
import ValueHashing.Width

/-!
# Numbers and their digits

Reading back `n` digits of a number gives the number modulo `256 ^ n`
(`ofLittleEndian_littleEndian`), the low digits do not depend on the others, and the high digits are
those of the quotient by a power of 256 (`take_bigEndian`).
-/

namespace ValueHashing

namespace Bytes

/-- Reading back `n` digits of `x` keeps `x` modulo `256 ^ n`. -/
theorem ofLittleEndian_littleEndian (n x : Nat) :
    ofLittleEndian (littleEndian n x) = x % 256 ^ n := by
  induction n generalizing x with
  | zero => simp [littleEndian, ofLittleEndian, Nat.mod_one]
  | succ n ih =>
      rw [littleEndian, ofLittleEndian, ih, Nat.pow_succ, Nat.mul_comm (256 ^ n),
        Nat.mod_mul]
      simp

theorem littleEndian_mod {m n : Nat} (h : n ≤ m) (x : Nat) :
    littleEndian n (x % 256 ^ m) = littleEndian n x := by
  induction n generalizing m x with
  | zero => rfl
  | succ n ih =>
      obtain ⟨k, rfl⟩ : ∃ k, m = k + 1 := ⟨m - 1, by omega⟩
      have hpow : 256 ^ (k + 1) = 256 * 256 ^ k := by rw [Nat.pow_succ, Nat.mul_comm]
      have hlow : x % 256 ^ (k + 1) % 256 = x % 256 := by rw [hpow, Nat.mod_mul_right_mod]
      have hbyte : UInt8.ofNat (x % 256 ^ (k + 1)) = UInt8.ofNat x := by
        rw [← UInt8.toNat_inj, UInt8.toNat_ofNat', UInt8.toNat_ofNat']
        exact hlow
      have hrest : x % 256 ^ (k + 1) / 256 = x / 256 % 256 ^ k := by
        rw [hpow, Nat.mod_mul_right_div_self]
      rw [littleEndian, littleEndian, hbyte, hrest, ih (by omega)]

/-- The low digits do not depend on the others. -/
theorem bigEndian_mod {m n : Nat} (h : n ≤ m) (x : Nat) :
    bigEndian n (x % 256 ^ m) = bigEndian n x := by
  rw [bigEndian_eq_reverse, bigEndian_eq_reverse, littleEndian_mod h]

/-- The high digits stand in front. -/
theorem take_bigEndian {k n : Nat} (h : k ≤ n) (x : Nat) :
    (bigEndian n x).take k = bigEndian k (x / 256 ^ (n - k)) := by
  obtain ⟨low, rfl⟩ := Nat.exists_eq_add_of_le h
  rw [Nat.add_sub_cancel_left]
  induction low generalizing x with
  | zero => rw [Nat.pow_zero, Nat.div_one, Nat.add_zero, List.take_of_length_le (by simp)]
  | succ low ih =>
      have hdigit : k ≤ (bigEndian (k + low) (x / 256)).length := by
        rw [length_bigEndian]
        exact Nat.le_add_right k low
      calc
        (bigEndian (k + (low + 1)) x).take k = (bigEndian (k + low) (x / 256)).take k :=
          List.take_append_of_le_length hdigit
        _ = bigEndian k (x / 256 / 256 ^ low) := ih (x / 256) (Nat.le_add_right k low)
        _ = bigEndian k (x / 256 ^ (low + 1)) := by
          rw [Nat.div_div_eq_div_mul, ← Nat.pow_succ']

/-- Numbers that fit into `n` digits are told apart by these. -/
theorem littleEndian_inj {n x y : Nat} (hx : x < 256 ^ n) (hy : y < 256 ^ n) :
    littleEndian n x = littleEndian n y ↔ x = y := by
  constructor
  · intro h
    have hread := congrArg ofLittleEndian h
    rwa [ofLittleEndian_littleEndian, ofLittleEndian_littleEndian, Nat.mod_eq_of_lt hx,
      Nat.mod_eq_of_lt hy] at hread
  · rintro rfl
    rfl

theorem bigEndian_inj {n x y : Nat} (hx : x < 256 ^ n) (hy : y < 256 ^ n) :
    bigEndian n x = bigEndian n y ↔ x = y := by
  rw [bigEndian_eq_reverse, bigEndian_eq_reverse, List.reverse_inj, littleEndian_inj hx hy]

theorem ofLittleEndian_zeros (n : Nat) : ofLittleEndian (zeros n) = 0 := by
  induction n with
  | zero => rfl
  | succ n ih =>
      change (0 : UInt8).toNat + 256 * ofLittleEndian (zeros n) = 0
      rw [ih]
      rfl

/-- Zero bytes at the end are leading zero digits. -/
theorem ofLittleEndian_append_zeros (bytes : Bytes) (n : Nat) :
    ofLittleEndian (bytes ++ zeros n) = ofLittleEndian bytes := by
  induction bytes with
  | nil => exact ofLittleEndian_zeros n
  | cons b bytes ih => rw [List.cons_append, ofLittleEndian, ofLittleEndian, ih]

end Bytes

/-- A result is projected by reading as many of its first bytes as there are. -/
theorem project_eq_ofNat (w : Width) (result : Bytes) :
    project w result = BitVec.ofNat w.bits (Bytes.ofLittleEndian (result.take w.size)) := by
  rw [project, Bytes.overwrite_zeros, Bytes.ofLittleEndian_append_zeros]

theorem Width.two_pow_bits (w : Width) : 2 ^ w.bits = 256 ^ w.size := by
  rw [bits, Nat.pow_mul]

end ValueHashing
