import ValueHashing.Proofs.Digits
import ValueHashing.Proofs.Feed.Calls

/-!
# The algorithm that keeps the whole message

`StreamingHash.ofDigest` absorbs by appending and digests the whole message when it is finished. Fed
a value, its message gets longer by the bytes that `encodeAfter` gives (`feed_ofDigest`). For a
value of an ordered shape these are its encoding (`encodeAfter_eq_encode`). Those of an unordered
collection depend on the message before it, because its elements go to copies of the instance at
hand (`encodeAfter_unordered`).
-/

namespace ValueHashing

variable (L : Layout) (digest : Bytes → Bytes)

/-- The algorithm that keeps the whole message, and a key as the first part of it. -/
@[reducible] def StreamingHash.ofDigest : StreamingHash where
  State := Bytes
  blockSize := 1
  outputSize := (digest []).length
  fresh := pure []
  default := pure []
  seeded seed := pure (if seed = 0 then [] else seedKey seed)
  keyed key := pure key
  absorb before data := before ++ data
  finish := digest

theorem StreamingHash.absorbAll_ofDigest (before : Bytes) (parts : List Bytes) :
    (ofDigest digest).absorbAll before parts = before ++ parts.flatten := by
  induction parts generalizing before with
  | nil => exact (List.append_nil before).symm
  | cons part parts ih =>
      rw [absorbAll_cons, ih, List.flatten_cons, List.append_assoc]

/-! ## The bytes of a value after other bytes -/

theorem encodeEach_eq_flatMap {α : Type} {one : Bytes → α → Bytes} {e : α → Bytes}
    (hone : ∀ before x, one before x = e x) (before : Bytes) (xs : List α) :
    encodeEach one before xs = xs.flatMap e := by
  induction xs generalizing before with
  | nil => rfl
  | cons x xs ih => rw [encodeEach, ih, hone, List.flatMap_cons]

/-- What was absorbed before does not show in the bytes of an ordered shape. -/
theorem encodeAfter_eq_encode {s : Shape} (hs : s.ordered = true) (before : Bytes) (x : s.Value) :
    encodeAfter L digest s before x = encode L s x := by
  induction s generalizing before with
  | int | machineInt | bool | char | float | unit | text | length | hidden => rfl
  | pair first second ihFirst ihSecond =>
      rw [Shape.ordered, Bool.and_eq_true] at hs
      rw [encodeAfter, encode, ihFirst hs.1, ihSecond hs.2]
  | record fields ih => exact ih hs before x
  | option present ih =>
      cases x with
      | none => rfl
      | some x => rw [encodeAfter, encode, ih hs]
  | indirect kind target ih => exact ih hs before x
  | array count element ih => exact encodeEach_eq_flatMap (ih hs) before x.toList
  | collection kind element ih =>
      rw [Shape.ordered, Bool.and_eq_true] at hs
      rw [encodeAfter, encode]
      cases hkind : kind.discipline with
      | contiguous counted | successive counted =>
          simp only [encodeEach_eq_flatMap (ih hs.2)]
      | unordered => simp [hkind] at hs

/-- An unordered collection has the bytes of a sum and of a count. Each element adds the number
that the first eight bytes of a digest stand for: the digest of all bytes before the collection
and those of the element alone. -/
theorem encodeAfter_unordered {kind : Collection} (hkind : kind.discipline = .unordered)
    (element : Shape) (before : Bytes) (xs : List element.Value) :
    encodeAfter L digest (.collection kind element) before xs =
      L.integer .w64 (BitVec.ofNat 64 (xs.map fun x => Bytes.ofLittleEndian
        ((digest (before ++ encodeAfter L digest element before x)).take 8)).sum) ++
        L.length xs.length := by
  rw [encodeAfter, hkind, ← L.count_eq_length]
  exact congrArg (· ++ L.count xs.length) (L.integer_ofNat .w64 _).symm

/-! ## Feeding the algorithm that keeps the whole message -/

theorem foldl_eq_append_encodeEach {α : Type} {one : Bytes → α → Bytes} {e : Bytes → α → Bytes}
    (hone : ∀ before x, one before x = before ++ e before x) (before : Bytes) (xs : List α) :
    xs.foldl one before = before ++ encodeEach e before xs := by
  induction xs generalizing before with
  | nil => exact (List.append_nil before).symm
  | cons x xs ih => rw [List.foldl_cons, ih, hone, encodeEach, List.append_assoc]

/-- Fed a value of an ordered shape, the whole message gets longer by its calls, and these make up
its encoding. -/
theorem feed_ofDigest_of_ordered {s : Shape} (hs : s.ordered = true) (before : Bytes)
    (x : s.Value) :
    feed (.ofDigest digest) L s before x = before ++ encodeAfter L digest s before x := by
  rw [feed_eq_absorbAll_feedCalls L (.ofDigest digest) hs, StreamingHash.absorbAll_ofDigest,
    flatten_feedCalls, encodeAfter_eq_encode L digest hs]

theorem feedRun_ofDigest {s : Shape}
    (hone : ∀ (before : Bytes) (x : s.Value),
      feed (.ofDigest digest) L s before x = before ++ encodeAfter L digest s before x)
    (before : Bytes) (xs : List s.Value) :
    feedRun (.ofDigest digest) L s (feed (.ofDigest digest) L s) before xs =
      before ++ encodeEach (encodeAfter L digest s) before xs := by
  cases s with
  | int signed w =>
      -- Integers may go through the staging buffer, but a run of them is a value of its own.
      have hrun := feed_ofDigest_of_ordered L digest
        (s := .collection .run (.int signed w)) rfl before xs
      exact hrun.trans (congrArg (before ++ ·) (List.append_nil _))
  | _ => exact foldl_eq_append_encodeEach hone before xs

/-- Fed a value, the whole message gets longer by the bytes of the value after it. -/
theorem feed_ofDigest (s : Shape) (before : Bytes) (x : s.Value) :
    feed (.ofDigest digest) L s before x = before ++ encodeAfter L digest s before x := by
  induction s generalizing before with
  | int | machineInt | bool | char | float | unit | text | length | hidden =>
      exact feed_ofDigest_of_ordered L digest rfl before x
  | pair first second ihFirst ihSecond =>
      rw [feed, ihFirst, ihSecond, encodeAfter, List.append_assoc]
  | record fields ih => exact ih before x
  | option present ih =>
      cases x with
      | none => rfl
      | some x =>
          have hflag := ih (before ++ [1]) x
          rw [List.append_assoc] at hflag
          exact hflag
  | indirect kind target ih => exact ih before x
  | array count element ih => exact feedRun_ofDigest L digest ih before x.toList
  | collection kind element ih =>
      rw [feed]
      cases hkind : kind.discipline with
      | contiguous counted | successive counted =>
          rw [encodeAfter, hkind]
          simp only [feedRun_ofDigest L digest ih, foldl_eq_append_encodeEach ih]
          cases counted with
          | true =>
              rw [encodeCount, L.count_eq_length]
              exact List.append_assoc ..
          | false => exact congrArg (before ++ ·) (List.append_nil _).symm
      | unordered =>
          have hshare (y : element.Value) :
              contribution (.ofDigest digest) (feed (.ofDigest digest) L element before y) =
                BitVec.ofNat 64 (Bytes.ofLittleEndian
                  ((digest (before ++ encodeAfter L digest element before y)).take 8)) := by
            rw [ih]
            exact project_eq_ofNat .w64 _
          rw [encodeAfter_unordered L digest hkind]
          simp only [feedUnordered, foldl_add_eq_sum, hshare, sum_map_ofNat]
          exact List.append_assoc ..

end ValueHashing
