import ValueHashing.Proofs.Feed.Reordering
import ValueHashing.Proofs.Feed.Runs
import ValueHashing.Proofs.Shape.Order

/-!
# Containers with the same content

Two states are alike when no continuation tells them apart (`StreamingHash.Alike`). An instance that
computes is left in states that are alike by values of any two shapes that have the same bytes
(`alike_feed`). Contiguous elements go in batches, the others one by one, and an element may have
bytes that depend on everything before it; still, all containers of the same elements in the same
order have the same bytes, up to their number (`alike_of_same_content`).

A sorted collection has the bytes of the list of its elements in ascending order, whatever the order
of the insertions. For collections without an order the states are not only alike but equal.
-/

namespace ValueHashing

namespace StreamingHash

variable {H : StreamingHash}

/-- Under every continuation the states give the same results, on the way and in the end. -/
def Alike (H : StreamingHash) (h k : H.State) : Prop :=
  ∀ actions : List Action,
    (Running.run H h actions).results = (Running.run H k actions).results ∧
      H.finish (Running.run H h actions).state = H.finish (Running.run H k actions).state

/-- States that compute one function follow one transcript. -/
theorem Computes.alike {h k : H.State} {digest : Bytes → Bytes} (hh : H.Computes h digest)
    (hk : H.Computes k digest) : H.Alike h k := by
  intro actions
  have hsimulates := Computes.simulates H digest
  have hleft := Running.follows_run hh actions
  have hright := Running.follows_run hk actions
  constructor
  · rw [hleft.results, hright.results]
  · rw [hsimulates.finish hleft.state, hsimulates.finish hright.state]

/-- Values with the same bytes leave an instance that computes in states that are alike. -/
theorem Computes.alike_feed {h : H.State} {digest : Bytes → Bytes} (hh : H.Computes h digest)
    (L : Layout) {s t : Shape} {x : s.Value} {y : t.Value}
    (hbytes : encodeAfter L digest s [] x = encodeAfter L digest t [] y) :
    H.Alike (feed H L s h x) (feed H L t h y) := by
  have hsimulates := Computes.simulates H digest
  have hleft := hsimulates.feed L s (k := []) hh x
  have hright := hsimulates.feed L t (k := []) hh y
  rw [feed_ofDigest] at hleft hright
  rw [hbytes] at hleft
  exact Computes.alike hleft hright

end StreamingHash

namespace Shape

/-- The components of a tuple, all of one shape. -/
def tupleOf (element : Shape) : (xs : List element.Value) →
    (tuple (List.replicate xs.length element)).Value
  | [] => ()
  | x :: xs => (x, tupleOf element xs)

/-- The key of an entry of a map. -/
def entryKey {key value : Shape} (e : (entry key value).Value) : key.Value := e.1

/-- Values that present a list in its order, and are fed with its length. -/
def countedForms (element : Shape) (xs : List element.Value) : List ((s : Shape) × s.Value) :=
  [⟨.collection .slice element, xs⟩, ⟨.collection .vector element, xs⟩,
    ⟨.collection .deque element, xs⟩, ⟨.collection .sizedRange element, xs⟩,
    ⟨.collection .sortedSet element, xs⟩, ⟨.collection .sortedMap element, xs⟩]

/-- Values that present a list in its order, and are fed without its length. -/
def plainForms (element : Shape) (xs : List element.Value) : List ((s : Shape) × s.Value) :=
  [⟨.array xs.length element, ⟨xs.toArray, List.size_toArray ..⟩⟩, ⟨.collection .run element, xs⟩,
    ⟨.collection .range element, xs⟩,
    ⟨.tuple (List.replicate xs.length element), tupleOf element xs⟩]

end Shape

variable (L : Layout) (digest : Bytes → Bytes)

theorem encodeAfter_tupleOf (element : Shape) (before : Bytes) (xs : List element.Value) :
    encodeAfter L digest (.tuple (List.replicate xs.length element)) before
        (Shape.tupleOf element xs) =
      encodeEach (encodeAfter L digest element) before xs := by
  induction xs generalizing before with
  | nil => rfl
  | cons x xs ih => exact congrArg (encodeAfter L digest element before x ++ ·) (ih _)

theorem encodeAfter_of_mem_countedForms {element : Shape} {xs : List element.Value}
    {form : (s : Shape) × s.Value} (hform : form ∈ Shape.countedForms element xs)
    (before : Bytes) :
    encodeAfter L digest form.1 before form.2 =
      encodeEach (encodeAfter L digest element) before xs ++ L.count xs.length := by
  simp only [Shape.countedForms, List.mem_cons, List.not_mem_nil, or_false] at hform
  rcases hform with rfl | rfl | rfl | rfl | rfl | rfl <;> rfl

theorem encodeAfter_of_mem_plainForms {element : Shape} {xs : List element.Value}
    {form : (s : Shape) × s.Value} (hform : form ∈ Shape.plainForms element xs)
    (before : Bytes) :
    encodeAfter L digest form.1 before form.2 =
      encodeEach (encodeAfter L digest element) before xs := by
  simp only [Shape.plainForms, List.mem_cons, List.not_mem_nil, or_false] at hform
  rcases hform with rfl | rfl | rfl | rfl
  · rfl
  · exact List.append_nil _
  · exact List.append_nil _
  · exact encodeAfter_tupleOf L digest element before xs

/-- The same elements, presented by two collections without an order. -/
theorem feed_unordered_eq_of_perm (H : StreamingHash) {kind other : Collection}
    (hkind : kind.discipline = .unordered) (hother : other.discipline = .unordered)
    (element : Shape) {xs ys : List element.Value} (hperm : xs.Perm ys) (h : H.State) :
    feed H L (.collection kind element) h xs = feed H L (.collection other element) h ys := by
  have hsame : List.Forall₂ Eq ys ys := List.forall₂_same.mpr fun _ _ => rfl
  have hone (h : H.State) (x y : element.Value) (hxy : x = y) :
      feed H L element h x = feed H L element h y := by rw [hxy]
  rw [feed, feed, hkind, hother]
  exact feedUnordered_eq_of_perm L H hone hperm hsame h

/-- Feeding containers with the same content to an instance whose results do not show how bytes are
cut into pieces leaves states that are alike. The elements may be of any shape.

Slices, vectors, queues, sized ranges and sorted collections that present one list are fed with its
length, and arrays, runs, ranges and tuples without. A sorted set that was filled in any order is
alike to the vector of what was inserted, each element once and in ascending order; for the order of
values its elements are `Shape.setElements`. A sorted map is alike to the vector of its entries in
ascending order of the keys, each the last one inserted under its key; for the order of values they
are `Shape.mapEntries`. For a hashed map and an unordered range over its entries the states are
equal, in whatever orders the entries are presented. -/
theorem alike_of_same_content (H : StreamingHash) (h : H.State)
    (hcut : ∀ xs ys : List Bytes, xs.flatten = ys.flatten →
      H.finish (H.absorbAll h xs) = H.finish (H.absorbAll h ys)) :
    (∀ (element : Shape) (xs : List element.Value),
      (∀ x ∈ Shape.countedForms element xs, ∀ y ∈ Shape.countedForms element xs,
        H.Alike (feed H L x.1 h x.2) (feed H L y.1 h y.2)) ∧
      ∀ x ∈ Shape.plainForms element xs, ∀ y ∈ Shape.plainForms element xs,
        H.Alike (feed H L x.1 h x.2) (feed H L y.1 h y.2)) ∧
    (∀ (element : Shape) (cmp : element.Value → element.Value → Ordering),
      LawfulOrder cmp → ∀ inserted sorted : List element.Value, StrictlyAscending cmp sorted →
      (∀ x, x ∈ sorted ↔ x ∈ inserted) →
      H.Alike (feed H L (.collection .sortedSet element) h (sortDistinct cmp inserted))
        (feed H L (.collection .vector element) h sorted)) ∧
    (∀ (key value : Shape) (cmp : key.Value → key.Value → Ordering),
      LawfulOrder cmp → ∀ inserted sorted : List (Shape.entry key value).Value,
      StrictlyAscending (fun x y => cmp (Shape.entryKey x) (Shape.entryKey y)) sorted →
      (∀ e, e ∈ sorted ↔
        ∃ before after, inserted = before ++ e :: after ∧
          ∀ later ∈ after, Shape.entryKey e ≠ Shape.entryKey later) →
      H.Alike
        (feed H L (.collection .sortedMap (.entry key value)) h
          (sortDistinct (fun x y => cmp (Shape.entryKey x) (Shape.entryKey y)) inserted))
        (feed H L (.collection .vector (.entry key value)) h sorted)) ∧
    ∀ (key value : Shape) (xs ys : List (Shape.entry key value).Value), xs.Perm ys →
      feed H L (.collection .hashedMap (.entry key value)) h xs =
        feed H L (.collection .unorderedRange (.entry key value)) h ys := by
  obtain ⟨digest, hcomputes⟩ := StreamingHash.exists_computes_iff.mpr hcut
  refine ⟨?_, ?_, ?_, ?_⟩
  · intro element xs
    constructor
    · intro x hx y hy
      apply hcomputes.alike_feed
      rw [encodeAfter_of_mem_countedForms L digest hx, encodeAfter_of_mem_countedForms L digest hy]
    · intro x hx y hy
      apply hcomputes.alike_feed
      rw [encodeAfter_of_mem_plainForms L digest hx, encodeAfter_of_mem_plainForms L digest hy]
  · intro element cmp _ inserted sorted hsorted hmem
    rw [sortDistinct_eq_of_mem_iff cmp hsorted hmem]
    exact hcomputes.alike_feed L rfl
  · intro key value cmp _ inserted sorted hsorted hmem
    rw [sortDistinct_eq_of_last cmp Shape.entryKey hsorted hmem]
    exact hcomputes.alike_feed L rfl
  · intro key value xs ys hperm
    exact feed_unordered_eq_of_perm L H rfl rfl _ hperm h

/-- Two sets of bytes in an array and in a tuple, a queue of them, a set and a map with insertions
that repeat an element and a key, and a map in two orders. -/
theorem alike_of_same_content_fnv :
    let H := Fnv.algorithm 1
    let L : Layout := ⟨.big, .w16⟩
    let h : H.State := Fnv.offsetBasis
    let bytes := Shape.collection .hashedSet (.int false .w8)
    let number := Shape.int true .w16
    let entry := Shape.entry number .char
    H.Alike (feed H L (.array 2 bytes) h ⟨#[[2, 3], []], rfl⟩)
        (feed H L (.tuple [bytes, bytes]) h ([2, 3], [], ())) ∧
      H.Alike (feed H L (.collection .deque bytes) h [[2, 3], []])
        (feed H L (.collection .slice bytes) h [[2, 3], []]) ∧
      H.Alike (feed H L (.collection .sortedSet number) h (number.setElements [3, -1, 3]))
        (feed H L (.collection .vector number) h [-1, 3]) ∧
      H.Alike
        (feed H L (.collection .sortedMap entry) h
          (Shape.mapEntries number .char [(2, 'a', ()), (-1, 'b', ()), (2, 'c', ())]))
        (feed H L (.collection .vector entry) h [(-1, 'b', ()), (2, 'c', ())]) ∧
      feed H L (.collection .hashedMap entry) h [(2, 'c', ()), (-1, 'b', ())] =
        feed H L (.collection .unorderedRange entry) h [(-1, 'b', ()), (2, 'c', ())] := by
  intro H L h bytes number entry
  have hcut := StreamingHash.exists_computes_iff.mp ⟨_, Fnv.computes_absorb 1 h⟩
  obtain ⟨hforms, hsets, hmaps, hhashed⟩ := alike_of_same_content L H h hcut
  obtain ⟨hcounted, hplain⟩ := hforms bytes [[2, 3], []]
  have hlawful : LawfulOrder number.compareValues := Shape.lawfulOrder_compareValues number
  refine ⟨?_, ?_, ?_, ?_, ?_⟩
  · exact hplain ⟨.array 2 bytes, ⟨#[[2, 3], []], rfl⟩⟩ (by simp [Shape.plainForms])
      ⟨.tuple [bytes, bytes], ([2, 3], [], ())⟩ (by simp [Shape.plainForms, Shape.tupleOf])
  · exact hcounted ⟨.collection .deque bytes, [[2, 3], []]⟩ (by simp [Shape.countedForms])
      ⟨.collection .slice bytes, [[2, 3], []]⟩ (by simp [Shape.countedForms])
  · have hsorted : StrictlyAscending number.compareValues [-1, 3] :=
      List.pairwise_pair.mpr (by decide)
    apply hsets number number.compareValues hlawful [3, -1, 3] [-1, 3] hsorted
    intro x
    simp only [List.mem_cons, List.not_mem_nil, or_false]
    tauto
  · have hsorted : StrictlyAscending
        (fun x y : entry.Value => number.compareValues (Shape.entryKey x) (Shape.entryKey y))
        [(-1, 'b', ()), (2, 'c', ())] :=
      List.pairwise_pair.mpr (by decide)
    have hlast (e : BitVec 16 × Char × Unit) : e ∈ [(-1, 'b', ()), (2, 'c', ())] ↔
        ∃ before after, [(2, 'a', ()), (-1, 'b', ()), (2, 'c', ())] = before ++ e :: after ∧
          ∀ later ∈ after, e.1 ≠ later.1 := by
      constructor
      · intro he
        simp only [List.mem_cons, List.not_mem_nil, or_false] at he
        rcases he with rfl | rfl
        · exact ⟨[(2, 'a', ())], [(2, 'c', ())], rfl, by decide⟩
        · exact ⟨[(2, 'a', ()), (-1, 'b', ())], [], rfl, by decide⟩
      · rintro ⟨before, after, heq, hafter⟩
        cases before with
        | nil =>
            obtain ⟨rfl, rfl⟩ := List.cons.inj heq
            exact absurd rfl (hafter (2, 'c', ()) (by simp))
        | cons _ before =>
            obtain ⟨-, htail⟩ := List.cons.inj heq
            rw [htail]
            exact List.mem_append_right before List.mem_cons_self
    exact hmaps number .char number.compareValues hlawful _ _ hsorted hlast
  · exact hhashed number .char _ _ (List.Perm.swap ..)

end ValueHashing
