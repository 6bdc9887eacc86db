import Mathlib.Data.List.Forall2
import ValueHashing.Proofs.Lawful

/-!
# Exactly the right tag is accepted

Comparing tags gathers in one byte the bits in which two byte strings of one length differ. A bit
that is found stays found (`getLsbD_differences`), so differences at several places do not cancel,
and the byte is zero for equal strings only. Strings of different lengths are refused before, since
pairing their bytes would stop at the end of the shorter one. A keyed instance over an algorithm
that computes therefore accepts the nested digest of what it absorbed, and no other byte string
(`Hmac.check_eq_ok_iff_tag`).
-/

namespace ValueHashing

/-- A bit is found if it was found before or some element brings it. -/
theorem getLsbD_foldl_or {α : Type} (f : α → UInt8) (xs : List α) (found : UInt8) (i : Nat) :
    (xs.foldl (fun found x => found ||| f x) found).toBitVec.getLsbD i =
      (found.toBitVec.getLsbD i || xs.any fun x => (f x).toBitVec.getLsbD i) := by
  induction xs generalizing found with
  | nil => simp
  | cons x xs ih =>
      rw [List.foldl_cons, ih, UInt8.toBitVec_or, BitVec.getLsbD_or, List.any_cons, Bool.or_assoc]

/-- A bit is among the differences if some pair of bytes differs in it. -/
theorem getLsbD_differences (xs ys : Bytes) (i : Nat) :
    (differences xs ys).toBitVec.getLsbD i =
      (xs.zip ys).any fun p => (p.1 ^^^ p.2).toBitVec.getLsbD i := by
  rw [differences, getLsbD_foldl_or, UInt8.toBitVec_zero, BitVec.getLsbD_zero, Bool.false_or]

/-- A byte is zero if none of its bits is set. -/
theorem eq_zero_iff_getLsbD (b : UInt8) : b = 0 ↔ ∀ i, b.toBitVec.getLsbD i = false := by
  constructor
  · rintro rfl i
    exact BitVec.getLsbD_zero
  · intro h
    apply UInt8.eq_of_toBitVec_eq
    apply BitVec.eq_of_getLsbD_eq
    intro i _
    rw [h i, UInt8.toBitVec_zero, BitVec.getLsbD_zero]

/-- Nothing is found in pairs of equal bytes, and in no others. -/
theorem differences_eq_zero_iff (xs ys : Bytes) :
    differences xs ys = 0 ↔ ∀ p ∈ xs.zip ys, p.1 = p.2 := by
  have hbits (p : UInt8 × UInt8) :
      p.1 = p.2 ↔ ∀ i, (p.1 ^^^ p.2).toBitVec.getLsbD i = false := by
    rw [← eq_zero_iff_getLsbD, UInt8.xor_eq_zero_iff]
  simp only [eq_zero_iff_getLsbD, getLsbD_differences, List.any_eq_false, hbits, Bool.not_eq_true]
  exact ⟨fun h p hp i => h i p hp, fun h i p hp => h p hp i⟩

/-- Between strings of one length nothing is found only if they are equal. -/
theorem differences_eq_zero_iff_eq {xs ys : Bytes} (hlength : xs.length = ys.length) :
    differences xs ys = 0 ↔ xs = ys := by
  rw [differences_eq_zero_iff, ← List.forall₂_eq_eq_eq, List.forall₂_iff_zip]
  simp [hlength]

/-- The answer of a comparison, for strings of any lengths. -/
theorem checkTag_eq (computed expected : Bytes) :
    checkTag computed expected = if computed = expected then .ok () else .error .mismatch := by
  by_cases hlength : computed.length = expected.length
  · simp only [checkTag, differences_eq_zero_iff_eq hlength, hlength, ne_eq, not_true_eq_false,
      if_false]
    rfl
  · have hne : computed ≠ expected := fun h => hlength (congrArg List.length h)
    rw [checkTag, if_pos hlength, if_neg hne]
    rfl

theorem checkTag_eq_ok_iff {computed expected : Bytes} :
    checkTag computed expected = .ok () ↔ computed = expected := by
  rw [checkTag_eq]
  by_cases h : computed = expected <;> simp [h]

theorem checkTag_of_ne {computed expected : Bytes} (h : computed ≠ expected) :
    checkTag computed expected = .error .mismatch := by
  rw [checkTag_eq, if_neg h]

/-- A lawful algorithm computes its own digest. -/
theorem StreamingHash.Lawful.computes_digest {H : StreamingHash} (hH : H.Lawful) :
    H.Computes H.fresh.value fun data => (H.digest data).value := by
  obtain ⟨digest, hdigest⟩ := hH.exists_computes .fresh
  have hvalue : (fun data => (H.digest data).value) = digest :=
    funext fun data => hdigest.value_digest data
  rw [hvalue]
  exact hdigest

namespace Hmac

/-- What is compared with the expected tag is the nested digest of what was absorbed. -/
theorem check_absorbAll_keyed {H : StreamingHash} {digest : Bytes → Bytes}
    (hsize : H.blockSize ≤ bufferSize) (hdigest : H.Computes H.fresh.value digest) (key : Bytes)
    (chunks : List Bytes) (expected : Bytes) :
    check H ((of H).absorbAll ((of H).keyed key).value chunks) expected =
      checkTag (formula digest H.blockSize key chunks.flatten) expected :=
  congrArg (checkTag · expected) (computes_start hsize hdigest key chunks)

/-- Two byte strings pass for one tag if they are equal, and otherwise there is one error. A keyed
instance over an algorithm that computes accepts a tag if it is the nested digest of what was
absorbed under the padded key; it refuses all others, among them what is left of that tag when bytes
are cut off its end, and what it becomes when bytes are added. Lawful algorithms compute, each its
own digest. -/
theorem check_eq_ok_iff_tag :
    (∀ computed expected : Bytes,
      (checkTag computed expected = .ok () ↔ computed = expected) ∧
        (computed ≠ expected → checkTag computed expected = .error .mismatch)) ∧
      (∀ H : StreamingHash, H.Lawful →
        H.Computes H.fresh.value fun data => (H.digest data).value) ∧
      ∀ (H : StreamingHash) (digest : Bytes → Bytes), H.blockSize ≤ bufferSize →
        H.Computes H.fresh.value digest → ∀ (key : Bytes) (chunks : List Bytes),
          let s := (of H).absorbAll ((of H).keyed key).value chunks
          let tag := formula digest H.blockSize key chunks.flatten
          (∀ expected, (check H s expected = .ok () ↔ expected = tag) ∧
            (expected ≠ tag → check H s expected = .error .mismatch)) ∧
            (∀ n < tag.length, check H s (tag.take n) = .error .mismatch) ∧
            ∀ more ≠ [], check H s (tag ++ more) = .error .mismatch := by
  refine ⟨fun _ _ => ⟨checkTag_eq_ok_iff, checkTag_of_ne⟩, fun _ hH => hH.computes_digest, ?_⟩
  intro H digest hsize hdigest key chunks s tag
  have hcheck (expected : Bytes) : check H s expected = checkTag tag expected :=
    check_absorbAll_keyed hsize hdigest key chunks expected
  have hrefuse {expected : Bytes} (hne : expected ≠ tag) :
      check H s expected = .error .mismatch := by
    rw [hcheck]
    exact checkTag_of_ne hne.symm
  refine ⟨?_, ?_, ?_⟩
  · intro expected
    refine ⟨?_, hrefuse⟩
    rw [hcheck, checkTag_eq_ok_iff]
    exact eq_comm
  · intro n hn
    apply hrefuse
    intro htake
    have hlength := congrArg List.length htake
    rw [List.length_take] at hlength
    omega
  · intro more hmore
    apply hrefuse
    intro happend
    exact hmore (List.append_right_eq_self.mp happend)

/-- Two differences that would cancel in a sum without carries, and a tag of FNV-1a with
blocks of twelve bytes, with one byte less and with one byte more. -/
theorem check_eq_ok_iff_tag_fnv :
    let H := Fnv.algorithm 12
    let digest (data : Bytes) := (H.digest data).value
    let s := (of H).absorbAll ((of H).keyed [1, 2, 3]).value [[4], [], [5]]
    let tag := formula digest 12 [1, 2, 3] [4, 5]
    ([1, 2] : Bytes) ≠ [2, 1] ∧ checkTag [1, 2] [2, 1] = .error .mismatch ∧
      H.Lawful ∧ H.blockSize ≤ bufferSize ∧ H.Computes H.fresh.value digest ∧
      check H s tag = .ok () ∧
      tag ++ [0] ≠ tag ∧ check H s (tag ++ [0]) = .error .mismatch ∧
      7 < tag.length ∧ check H s (tag.take 7) = .error .mismatch := by
  intro H digest s tag
  have hdiffer : ([1, 2] : Bytes) ≠ [2, 1] := by decide
  have hH : H.Lawful := Fnv.lawful 12
  have hsize : H.blockSize ≤ bufferSize := by decide
  obtain ⟨hcompare, hcomputes, hkeyed⟩ := check_eq_ok_iff_tag
  have hdigest : H.Computes H.fresh.value digest := hcomputes H hH
  obtain ⟨haccept, hcut, hadd⟩ := hkeyed H digest hsize hdigest [1, 2, 3] [[4], [], [5]]
  have hlength : 7 < tag.length := by decide
  have hlonger : tag ++ [0] ≠ tag := by simp
  exact ⟨hdiffer, (hcompare [1, 2] [2, 1]).2 hdiffer, hH, hsize, hdigest, (haccept tag).1.mpr rfl,
    hlonger, hadd [0] (by decide), hlength, hcut 7 hlength⟩

end Hmac

end ValueHashing
