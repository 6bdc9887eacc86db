import ValueHashing.Proofs.Cancellation
import ValueHashing.Proofs.Encoding.Agreement
import ValueHashing.Proofs.Encoding.Leaves
import ValueHashing.Proofs.Feed.Calls

/-!
# Encodings are read from the end

A count stands behind what it counts, so an encoding is read from its end: first the count, then
the elements, the last one first. Flags of options are no help there, since they stand in front;
but for values that agree in their flags, equal strings that end with encodings have equal fronts
and equal values (`agree_of_append_encode_eq`). Where there are no options this needs no assumption.
From the front it is the other way round: flags are read before what they are flags of, and values
have to agree in their counts (`agree_of_encode_append_eq`).

## Implementation notes

Both lemmas carry the rest of the string through the induction, since the values to the left or to
the right of a part are different strings on both sides until they are read.
-/

namespace ValueHashing

variable (L : Layout)

/-- The bytes after the elements of a collection that is followed by its size. -/
theorem encodeCount_of_counted {kind : Collection} (h : kind.counted = true) (n : Nat) :
    encodeCount L kind.discipline n = L.length n := by
  unfold Collection.counted at h
  cases hkind : kind.discipline with
  | contiguous counted | successive counted =>
      simp only [hkind] at h
      rw [h, encodeCount, L.count_eq_length]
  | unordered => simp [hkind] at h

theorem encode_collection {kind : Collection} (h : kind.counted = true) (element : Shape)
    (xs : List element.Value) :
    encode L (.collection kind element) xs =
      xs.flatMap (encode L element) ++ L.length xs.length := by
  rw [← encodeCount_of_counted L h, encode]
  cases hkind : kind.discipline with
  | contiguous | successive => rfl
  | unordered => simp [Collection.counted, hkind] at h

/-- Read from the front: values that agree in their counts can be taken off strings that begin with
their encodings. -/
theorem agree_of_encode_append_eq {s : Shape} (hs : s.delimited = true) {x y : s.Value}
    (h : s.Agree .counts x y) {p q : Bytes} (heq : encode L s x ++ p = encode L s y ++ q) :
    s.Agree .contents x y ∧ p = q := by
  induction s generalizing p q with
  | int | machineInt | bool | char =>
      obtain ⟨hscalar, hrest⟩ := List.append_inj heq (length_encode_scalar L rfl x y)
      exact ⟨fun _ => encode_scalar_inj L rfl hscalar, hrest⟩
  | float | length => cases hs
  | unit => exact ⟨fun _ => rfl, heq⟩
  | text =>
      have hlength : (Bytes.utf8 x).length = (Bytes.utf8 y).length := h.2 rfl
      rw [encode_text, encode_text, List.append_assoc, List.append_assoc] at heq
      obtain ⟨hbytes, hrest⟩ := List.append_inj heq hlength
      obtain ⟨_, hpq⟩ := List.append_inj hrest (by simp)
      exact ⟨⟨fun _ => Bytes.utf8_injective hbytes, fun _ => hlength⟩, hpq⟩
  | pair first second ihFirst ihSecond =>
      rw [Shape.delimited_pair, Bool.and_eq_true] at hs
      rw [encode, encode, List.append_assoc, List.append_assoc] at heq
      obtain ⟨hfirst, hrest⟩ := ihFirst hs.1 h.1 heq
      obtain ⟨hsecond, hpq⟩ := ihSecond hs.2 h.2 hrest
      exact ⟨⟨hfirst, hsecond⟩, hpq⟩
  | hidden => exact ⟨trivial, heq⟩
  | record fields ih =>
      exact ih hs h heq
  | option present ih =>
      cases x with
      | none =>
          cases y with
          | none => exact ⟨trivial, List.cons.inj heq |>.2⟩
          | some y => exact absurd (List.cons.inj heq).1 (by decide)
      | some x =>
          cases y with
          | none => exact absurd (List.cons.inj heq).1 (by decide)
          | some y => exact ih hs h (List.cons.inj heq).2
  | indirect kind target ih =>
      exact ih hs h heq
  | array count element ih =>
      exact forall₂_of_flatMap_append_eq h (fun _ _ _ _ hxy _ _ => ih hs hxy) heq
  | collection kind element ih =>
      rw [Shape.delimited_collection, Bool.and_eq_true] at hs
      have hlength := h.1 rfl
      rw [encode_collection L hs.1, encode_collection L hs.1, List.append_assoc,
        List.append_assoc] at heq
      obtain ⟨helements, hrest⟩ :=
        forall₂_of_flatMap_append_eq (h.2 hlength) (fun _ _ _ _ hxy _ _ => ih hs.2 hxy) heq
      obtain ⟨_, hpq⟩ := List.append_inj hrest (by simp)
      exact ⟨⟨fun _ => hlength, fun _ => helements⟩, hpq⟩

/-- A size behind every collection leaves no room for unordered ones. -/
theorem Shape.ordered_of_delimited {s : Shape} (hs : s.delimited = true) : s.ordered = true := by
  induction s with
  | int | machineInt | bool | char | float | unit | text | length | hidden => rfl
  | pair first second ihFirst ihSecond =>
      rw [delimited_pair, Bool.and_eq_true] at hs
      rw [ordered, ihFirst hs.1, ihSecond hs.2, Bool.and_self]
  | record fields ih | option present ih | indirect kind target ih | array count element ih =>
      exact ih hs
  | collection kind element ih =>
      rw [delimited_collection, Bool.and_eq_true] at hs
      have hkind : (kind.discipline != .unordered) = true := by
        cases kind with
        | hashedSet | hashedMap | unorderedRange => cases hs.1
        | _ => rfl
      rw [ordered, hkind, ih hs.2, Bool.and_self]

/-- Whatever was fed before, a hash is fed one string for values with one encoding, and different
strings for all others. -/
theorem bytes_feed_eq_iff {s : Shape} (hs : s.ordered = true) (x y : s.Value) (H : StreamingHash)
    (r : (Recording.of H).State) :
    (feed (Recording.of H) L s r x).bytes = (feed (Recording.of H) L s r y).bytes ↔
      encode L s x = encode L s y := by
  rw [Recording.bytes_feed L H hs, Recording.bytes_feed L H hs]
  exact List.append_right_inj r.bytes

theorem bytes_feed_ne {s : Shape} (hs : s.delimited = true) {x y : s.Value}
    (hne : encode L s x ≠ encode L s y) (H : StreamingHash) (r : (Recording.of H).State) :
    (feed (Recording.of H) L s r x).bytes ≠ (feed (Recording.of H) L s r y).bytes := by
  intro heq
  exact hne ((bytes_feed_eq_iff L (Shape.ordered_of_delimited hs) x y H r).mp heq)

end ValueHashing
