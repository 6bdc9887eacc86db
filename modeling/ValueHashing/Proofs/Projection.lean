import Mathlib.Algebra.BigOperators.Ring.Finset
import Mathlib.Data.Nat.Digits.Defs
import ValueHashing.Proofs.Digits

/-!
# Results read as numbers

A result is projected to an integer by reading its first bytes as the digits of a number in base
256, least significant first (`toNat_project`). Since the digits that do not fit are the high ones,
to cut a result is to reduce the number modulo a power of 256 (`Bytes.ofLittleEndian_take`), and
projections of one result to several widths are reductions of one number.
-/

namespace ValueHashing

namespace Bytes

/-- The bytes as digits of a number in base 256. -/
theorem ofLittleEndian_eq_ofDigits (bytes : Bytes) :
    ofLittleEndian bytes = Nat.ofDigits 256 (bytes.map UInt8.toNat) := by
  induction bytes with
  | nil => rfl
  | cons b bytes ih => rw [ofLittleEndian, ih, List.map_cons, Nat.ofDigits_cons]

theorem toNat_lt_of_mem_map {bytes : Bytes} {digit : Nat} (h : digit ∈ bytes.map UInt8.toNat) :
    digit < 256 := by
  obtain ⟨b, -, rfl⟩ := List.mem_map.mp h
  exact b.toNat_lt

/-- Every byte counts with the power of 256 at its index. -/
theorem ofLittleEndian_eq_sum (bytes : Bytes) :
    ofLittleEndian bytes =
      ∑ i ∈ Finset.range bytes.length, (bytes.getD i 0).toNat * 256 ^ i := by
  induction bytes with
  | nil => rfl
  | cons b bytes ih =>
      have hshift (i : Nat) : ((b :: bytes).getD (i + 1) 0).toNat * 256 ^ (i + 1) =
          256 * ((bytes.getD i 0).toNat * 256 ^ i) := by
        rw [List.getD_cons_succ, Nat.pow_succ']
        exact Nat.mul_left_comm ..
      rw [ofLittleEndian, ih, List.length_cons, Finset.sum_range_succ', Finset.mul_sum]
      simp only [hshift, List.getD_cons_zero, Nat.pow_zero, Nat.mul_one]
      exact Nat.add_comm ..

/-- The first `n` bytes are the number modulo `256 ^ n`. -/
theorem ofLittleEndian_take (n : Nat) (bytes : Bytes) :
    ofLittleEndian (bytes.take n) = ofLittleEndian bytes % 256 ^ n := by
  rw [ofLittleEndian_eq_ofDigits, ofLittleEndian_eq_ofDigits, List.map_take,
    Nat.ofDigits_mod_pow_eq_ofDigits_take n (by decide) _ fun _ => toNat_lt_of_mem_map]

/-- Byte strings of one length are told apart by the numbers they stand for. -/
theorem ofLittleEndian_inj {xs ys : Bytes} (hlength : xs.length = ys.length) :
    ofLittleEndian xs = ofLittleEndian ys ↔ xs = ys := by
  constructor
  · intro h
    rw [ofLittleEndian_eq_ofDigits, ofLittleEndian_eq_ofDigits] at h
    have hdigits : xs.map UInt8.toNat = ys.map UInt8.toNat :=
      Nat.ofDigits_inj_of_len_eq (by decide) (by simpa using hlength)
        (fun _ => toNat_lt_of_mem_map) (fun _ => toNat_lt_of_mem_map) h
    exact List.map_injective_iff.mpr (fun _ _ => UInt8.toNat_inj.mp) hdigits
  · rintro rfl
    rfl

end Bytes

/-- A projection is the number that the whole result stands for, reduced to the width. -/
theorem toNat_project (w : Width) (result : Bytes) :
    (project w result).toNat = Bytes.ofLittleEndian result % 256 ^ w.size := by
  rw [project_eq_ofNat, BitVec.toNat_ofNat, w.two_pow_bits, Bytes.ofLittleEndian_take,
    Nat.mod_mod]

/-- A result is projected to the sum of its first bytes, as many as the width takes and as there
are, each times the power of 256 at its index. So a narrow projection is a wide one of the same
result, reduced. Only the first bytes matter, zero bytes at the end of a result do not, and long
enough results are projected alike if their first bytes are equal. -/
theorem toNat_project_eq_sum :
    (∀ (w : Width) (result : Bytes), (project w result).toNat =
      ∑ i ∈ Finset.range (min result.length w.size), (result.getD i 0).toNat * 256 ^ i) ∧
    (∀ narrow wide : Width, narrow.size ≤ wide.size → ∀ result,
      (project narrow result).toNat = (project wide result).toNat % 256 ^ narrow.size) ∧
    (∀ (w : Width) (xs ys : Bytes), xs.take w.size = ys.take w.size →
      project w xs = project w ys) ∧
    (∀ (w : Width) (result : Bytes) (n : Nat),
      project w (result ++ Bytes.zeros n) = project w result) ∧
    ∀ (w : Width) (xs ys : Bytes), w.size ≤ xs.length → w.size ≤ ys.length →
      (project w xs = project w ys ↔ xs.take w.size = ys.take w.size) := by
  have hcut (w : Width) (result : Bytes) :
      (project w result).toNat = Bytes.ofLittleEndian (result.take w.size) := by
    rw [toNat_project, Bytes.ofLittleEndian_take]
  have hfront (w : Width) (xs ys : Bytes) (h : xs.take w.size = ys.take w.size) :
      project w xs = project w ys := by
    rw [← BitVec.toNat_inj, hcut, hcut, h]
  refine ⟨?_, ?_, hfront, ?_, ?_⟩
  · intro w result
    rw [hcut, Bytes.ofLittleEndian_eq_sum, List.length_take, Nat.min_comm]
    refine Finset.sum_congr rfl fun i hi => ?_
    have hlt : i < w.size := (Nat.lt_min.mp (Finset.mem_range.mp hi)).2
    rw [List.getD_eq_getElem?_getD, List.getElem?_take_of_lt hlt, ← List.getD_eq_getElem?_getD]
  · intro narrow wide hle result
    have hdvd : 256 ^ narrow.size ∣ 256 ^ wide.size := Nat.pow_dvd_pow 256 hle
    rw [toNat_project, toNat_project, Nat.mod_mod_of_dvd _ hdvd]
  · intro w result n
    rw [← BitVec.toNat_inj, toNat_project, toNat_project, Bytes.ofLittleEndian_append_zeros]
  · intro w xs ys hxs hys
    refine ⟨fun h => ?_, hfront w xs ys⟩
    have hlength : (xs.take w.size).length = (ys.take w.size).length := by
      rw [List.length_take_of_le hxs, List.length_take_of_le hys]
    rw [← BitVec.toNat_inj, hcut, hcut] at h
    exact (Bytes.ofLittleEndian_inj hlength).mp h

/-- Nine bytes, projected to four bytes and to a machine word, with another last byte, and against
another fourth byte. -/
theorem toNat_project_eq_sum_nine :
    let xs : Bytes := [1, 2, 3, 4, 5, 6, 7, 8, 9]
    let ys : Bytes := [1, 2, 3, 4, 5, 6, 7, 8, 0]
    let zs : Bytes := [1, 2, 3, 5, 5, 6, 7, 8, 9]
    Width.w32.size ≤ Width.machine.size ∧
      (project .w32 xs).toNat = (project .machine xs).toNat % 256 ^ 4 ∧
      xs.take Width.machine.size = ys.take Width.machine.size ∧
      project .machine xs = project .machine ys ∧
      Width.w32.size ≤ xs.length ∧ Width.w32.size ≤ zs.length ∧
      project .w32 xs ≠ project .w32 zs := by
  intro xs ys zs
  have hwidths : Width.w32.size ≤ Width.machine.size := by decide
  have hxs : Width.w32.size ≤ xs.length := by decide
  have hzs : Width.w32.size ≤ zs.length := by decide
  have hfront : xs.take Width.machine.size = ys.take Width.machine.size := by decide
  obtain ⟨-, hreduced, hsame, -, hiff⟩ := toNat_project_eq_sum
  refine ⟨hwidths, hreduced .w32 .machine hwidths xs, hfront, hsame .machine xs ys hfront, hxs, hzs,
    fun h => ?_⟩
  have htake : xs.take 4 = zs.take 4 := (hiff .w32 xs zs hxs hzs).mp h
  revert htake
  decide

end ValueHashing
