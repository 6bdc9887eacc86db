import Mathlib.Data.Nat.ModEq
import ValueHashing.Proofs.Encoding.Decodability

/-!
# Counts that wrap

A count is written in a word of fixed width and wraps where it does not fit. The word stands at the
end of an encoding and always has one size, so the bytes before it can be compared by themselves:
two collections have one encoding if their elements have the same bytes and their counts wrap to the
same word (`encode_collection_eq_iff`). If encodings of elements are read from the front and some
are to be told apart, the bytes of the elements tell how many there are, and the count adds nothing
(`encode_collection_inj`). Elements without bytes leave only the count.
-/

namespace ValueHashing

variable (L : Layout)

/-- Lengths are written alike if they differ by a multiple of the number of words. -/
theorem Layout.length_eq_iff (m n : Nat) :
    L.length m = L.length n ↔ m ≡ n [MOD 2 ^ L.lengthWidth.bits] := by
  rw [length, length, integer_inj, lengthWord, lengthWord, ← BitVec.toNat_inj,
    BitVec.toNat_ofNat, BitVec.toNat_ofNat]
  rfl

/-- The bytes of the elements and the word of the count are compared apart. -/
theorem encode_collection_eq_iff {kind : Collection} (hkind : kind.counted = true) {s : Shape}
    (xs ys : List s.Value) :
    encode L (.collection kind s) xs = encode L (.collection kind s) ys ↔
      xs.flatMap (encode L s) = ys.flatMap (encode L s) ∧
        xs.length ≡ ys.length [MOD 2 ^ L.lengthWidth.bits] := by
  rw [encode_collection L hkind, encode_collection L hkind, ← L.length_eq_iff]
  constructor
  · intro heq
    exact List.append_inj' heq (by simp)
  · rintro ⟨hbytes, hcount⟩
    rw [hbytes, hcount]

/-- Where elements are told apart by what a string begins with, the end of their bytes settles how
many there are, whether or not their count fits. -/
theorem encode_collection_inj {kind : Collection} (hkind : kind.counted = true) {s : Shape}
    [Nontrivial s.Value] (hread : LeftReadable (encode L s)) (xs ys : List s.Value) :
    encode L (.collection kind s) xs = encode L (.collection kind s) ys ↔ xs = ys := by
  rw [encode_collection_eq_iff L hkind]
  constructor
  · rintro ⟨hbytes, -⟩
    exact hread.eq_of_flatMap_eq hbytes
  · rintro rfl
    exact ⟨rfl, rfl⟩

/-- Elements without bytes show in the count only. -/
theorem encode_collection_eq_iff_of_nil {kind : Collection} (hkind : kind.counted = true)
    {s : Shape} (hnil : ∀ x : s.Value, encode L s x = []) (xs ys : List s.Value) :
    encode L (.collection kind s) xs = encode L (.collection kind s) ys ↔
      xs.length ≡ ys.length [MOD 2 ^ L.lengthWidth.bits] := by
  have hbytes (zs : List s.Value) : zs.flatMap (encode L s) = [] :=
    List.flatMap_eq_nil_iff.mpr fun x _ => hnil x
  rw [encode_collection_eq_iff L hkind, hbytes, hbytes]
  exact and_iff_right rfl

/-- Every scalar shape has two values. -/
theorem Shape.nontrivial_of_scalar {s : Shape} (hs : s.scalar = true) : Nontrivial s.Value := by
  have hint (w : Width) : (0 : BitVec w.bits) ≠ 1 := by cases w <;> decide
  cases s with
  | int signed w => exact ⟨0, 1, hint w⟩
  | machineInt signed => exact ⟨0, 1, hint .machine⟩
  | bool => exact ⟨false, true, Bool.false_ne_true⟩
  | char => exact ⟨'a', 'b', by decide⟩
  | _ => cases hs

theorem leftReadable_encode_scalar {s : Shape} (hs : s.scalar = true) :
    LeftReadable (encode L s) := by
  cases s with
  | int | machineInt | bool | char => exact leftReadable_encode L rfl rfl rfl
  | _ => cases hs

/-- Whatever the width of a length, and also where lengths do not fit into it: collections of
integers, truth values or characters have one encoding only if they have the same elements, and
texts only if they are equal. Collections of the unit have one encoding if their lengths are
congruent modulo the number of words of the width. In all cases one encoding means one string that
is fed to an algorithm. -/
theorem encode_eq_iff_despite_wrapping :
    (∀ (kind : Collection) (s : Shape), kind.counted = true → s.scalar = true →
      ∀ xs ys : List s.Value,
        encode L (.collection kind s) xs = encode L (.collection kind s) ys ↔ xs = ys) ∧
    (∀ x y : String, encode L .text x = encode L .text y ↔ x = y) ∧
    (∀ kind : Collection, kind.counted = true → ∀ xs ys : List Unit,
      encode L (.collection kind .unit) xs = encode L (.collection kind .unit) ys ↔
        xs.length ≡ ys.length [MOD 2 ^ L.lengthWidth.bits]) ∧
    ∀ s : Shape, s.ordered = true → ∀ (x y : s.Value) (H : StreamingHash)
      (r : (Recording.of H).State),
        (feed (Recording.of H) L s r x).bytes = (feed (Recording.of H) L s r y).bytes ↔
          encode L s x = encode L s y := by
  refine ⟨?_, ?_, ?_, fun s hs x y H r => bytes_feed_eq_iff L hs x y H r⟩
  · intro kind s hkind hs xs ys
    have htwo : Nontrivial s.Value := Shape.nontrivial_of_scalar hs
    exact encode_collection_inj L hkind (leftReadable_encode_scalar L hs) xs ys
  · intro x y
    constructor
    · intro heq
      rw [encode_text, encode_text] at heq
      obtain ⟨hbytes, -⟩ := List.append_inj' heq (by simp)
      exact Bytes.utf8_injective hbytes
    · rintro rfl
      rfl
  · intro kind hkind xs ys
    exact encode_collection_eq_iff_of_nil L hkind (s := .unit) (fun _ => rfl) xs ys

/-- With lengths of one byte, one element and 257 elements have the same count. Zero bytes are told
apart nevertheless, and units are not. -/
theorem encode_eq_iff_despite_wrapping_byte :
    let L : Layout := ⟨.little, .w8⟩
    let bytes := Shape.collection .slice (.int false .w8)
    let units := Shape.collection .slice .unit
    let H := Fnv.algorithm 1
    let r : (Recording.of H).State := Recording.start H.fresh.value
    Collection.counted .slice = true ∧ (Shape.int false .w8).scalar = true ∧
      units.ordered = true ∧
      encode L bytes [0] ≠ encode L bytes (List.replicate 257 0) ∧
      encode L units [()] = encode L units (List.replicate 257 ()) ∧
      (feed (Recording.of H) L units r [()]).bytes =
        (feed (Recording.of H) L units r (List.replicate 257 ())).bytes := by
  intro L bytes units H r
  have hkind : Collection.counted .slice = true := rfl
  have hscalar : (Shape.int false .w8).scalar = true := rfl
  have hordered : units.ordered = true := rfl
  obtain ⟨hscalars, -, hunits, hfed⟩ := encode_eq_iff_despite_wrapping L
  have hwraps : 1 ≡ 257 [MOD 2 ^ L.lengthWidth.bits] := by decide
  have hsame : encode L units [()] = encode L units (List.replicate 257 ()) := by
    apply (hunits .slice hkind _ _).mpr
    rw [List.length_replicate]
    exact hwraps
  refine ⟨hkind, hscalar, hordered, fun heq => ?_, hsame, (hfed units hordered _ _ H r).mpr hsame⟩
  have hlists : [0] = List.replicate 257 (0 : BitVec Width.w8.bits) :=
    (hscalars .slice (.int false .w8) hkind hscalar _ _).mp heq
  have hlengths := congrArg List.length hlists
  rw [List.length_replicate] at hlengths
  cases hlengths

end ValueHashing
