import Mathlib.InformationTheory.Coding.UniquelyDecodable
import Mathlib.Logic.Nontrivial.Basic
import ValueHashing.Proofs.Encoding.Boundaries

/-!
# Encodings with flags are read from the front

A flag stands in front of what it is the flag of. So where nothing has a count, in shapes made of
scalars by aggregates, arrays and options, a string that begins with the encoding of a value begins
with that of no other value (`LeftReadable`), although the encodings of one shape have many sizes.

What can be read off a string can be read off again from what is left. Any number of encodings in a
row is therefore decoded in one way (`LeftReadable.uniquelyDecodable`), unless the shape has a
single value, which leaves no bytes.
-/

namespace ValueHashing

open InformationTheory

variable {α : Type} {e : α → Bytes}

/-- A string begins with one encoding at most. -/
structure LeftReadable (e : α → Bytes) : Prop where
  read : ∀ {x y p q}, e x ++ p = e y ++ q → x = y ∧ p = q

namespace LeftReadable

/-- If an element has an empty encoding, any string begins with it. -/
theorem ne_nil [Nontrivial α] (h : LeftReadable e) (x : α) : e x ≠ [] := by
  intro hnil
  obtain ⟨y, hy⟩ := exists_ne x
  have hsame : e x ++ e y = e y ++ [] := by rw [hnil, List.nil_append, List.append_nil]
  exact hy (h.read hsame).1.symm

/-- As many encodings in a row on both sides are read one after the other. -/
theorem flatMap (h : LeftReadable e) {xs ys : List α} (hlength : xs.length = ys.length)
    {p q : Bytes} (heq : xs.flatMap e ++ p = ys.flatMap e ++ q) : xs = ys ∧ p = q := by
  have hpairs : List.Forall₂ (fun _ _ => True) xs ys :=
    Shape.forall₂_of_length_eq hlength fun _ _ => trivial
  obtain ⟨hequal, hpq⟩ := forall₂_of_flatMap_append_eq (R := Eq) hpairs
    (fun _ _ _ _ _ _ _ hxy => h.read hxy) heq
  rw [List.forall₂_eq_eq_eq] at hequal
  exact ⟨hequal, hpq⟩

/-- Where no encoding is empty, the end of the string tells the number of encodings. -/
theorem eq_of_flatMap_eq [Nontrivial α] (h : LeftReadable e) {xs ys : List α}
    (heq : xs.flatMap e = ys.flatMap e) : xs = ys := by
  induction xs generalizing ys with
  | nil =>
      cases ys with
      | nil => rfl
      | cons y ys =>
          rw [List.flatMap_nil, List.flatMap_cons] at heq
          exact absurd (List.append_eq_nil_iff.mp heq.symm).1 (h.ne_nil y)
  | cons x xs ih =>
      cases ys with
      | nil =>
          rw [List.flatMap_nil, List.flatMap_cons] at heq
          exact absurd (List.append_eq_nil_iff.mp heq).1 (h.ne_nil x)
      | cons y ys =>
          rw [List.flatMap_cons, List.flatMap_cons] at heq
          obtain ⟨rfl, hrest⟩ := h.read heq
          rw [ih hrest]

theorem uniquelyDecodable [Nontrivial α] (h : LeftReadable e) :
    UniquelyDecodable (Set.range e) := by
  intro codes others hcodes hothers heq
  obtain ⟨xs, rfl⟩ : codes ∈ Set.range (List.map e) := by
    rw [Set.range_list_map]
    exact hcodes
  obtain ⟨ys, rfl⟩ : others ∈ Set.range (List.map e) := by
    rw [Set.range_list_map]
    exact hothers
  rw [← List.flatMap_def, ← List.flatMap_def] at heq
  rw [h.eq_of_flatMap_eq heq]

end LeftReadable

variable (L : Layout)

/-- Without counts and without hidden parts, encodings are read from the front. -/
theorem leftReadable_encode {s : Shape} (hs : s.delimited = true) (hcounts : s.countless = true)
    (hvisible : s.visible = true) : LeftReadable (encode L s) := by
  refine ⟨fun {x y p q} heq => ?_⟩
  have hagree : s.Agree .counts x y := Shape.agree_counts_of_countless hcounts x y
  obtain ⟨hxy, hpq⟩ := agree_of_encode_append_eq L hs hagree heq
  exact ⟨(Shape.agree_contents_iff_eq hvisible x y).mp hxy, hpq⟩

/-- In shapes made of integers, truth values, characters and the unit by tuples, aggregates, arrays
and options, an encoding followed by anything is read from the front in one way: equal strings begin
with equal values, and what follows these is equal. So a given number of values in a row is read in
one way whatever follows them, any number of values in a row is if there are two values to tell
apart, and different values feed different bytes to any algorithm. Above all a present value and an
absent one never do feed the same bytes, and neither do an absent option and a present one that
holds no value. -/
theorem encode_append_eq_iff {s : Shape} (hs : s.delimited = true) (hcounts : s.countless = true)
    (hvisible : s.visible = true) :
    (∀ (x y : s.Value) (p q : Bytes),
      encode L s x ++ p = encode L s y ++ q ↔ x = y ∧ p = q) ∧
    (∀ (xs ys : List s.Value) (p q : Bytes), xs.length = ys.length →
      xs.flatMap (encode L s) ++ p = ys.flatMap (encode L s) ++ q → xs = ys ∧ p = q) ∧
    (Nontrivial s.Value → UniquelyDecodable (Set.range (encode L s))) ∧
    (∀ x y : s.Value, x ≠ y → ∀ (H : StreamingHash) (r : (Recording.of H).State),
      (feed (Recording.of H) L s r x).bytes ≠ (feed (Recording.of H) L s r y).bytes) ∧
    (∀ (x : s.Value) (p q : Bytes),
      encode L (.option s) (some x) ++ p ≠ encode L (.option s) none ++ q) ∧
    ∀ p q : Bytes,
      encode L (.option (.option s)) none ++ p ≠ encode L (.option (.option s)) (some none) ++ q := by
  have hread : LeftReadable (encode L s) := leftReadable_encode L hs hcounts hvisible
  have hpresent : LeftReadable (encode L (.option s)) :=
    leftReadable_encode L hs hcounts hvisible
  have hnested : LeftReadable (encode L (.option (.option s))) :=
    leftReadable_encode L hs hcounts hvisible
  refine ⟨?_, ?_, ?_, ?_, ?_, ?_⟩
  · intro x y p q
    refine ⟨fun heq => hread.read heq, ?_⟩
    rintro ⟨rfl, rfl⟩
    rfl
  · intro xs ys p q hlength heq
    exact hread.flatMap hlength heq
  · intro _
    exact hread.uniquelyDecodable
  · intro x y hne H r
    refine bytes_feed_ne L hs (fun heq => ?_) H r
    exact hne (hread.read (congrArg (· ++ []) heq)).1
  · intro x p q heq
    cases (hpresent.read heq).1
  · intro p q heq
    cases (hnested.read heq).1

/-- Options within options, an array of options and a character: two values that differ in one inner
flag only have encodings of different sizes, and neither begins with the other. -/
theorem encode_append_eq_iff_nested :
    let s := Shape.tuple [.option (.option .bool), .array 2 (.option (.int true .w16)), .char]
    let x : s.Value := (none, ⟨#[none, some 0x100], rfl⟩, 'a', ())
    let y : s.Value := (some none, ⟨#[none, some 0x100], rfl⟩, 'a', ())
    s.delimited = true ∧ s.countless = true ∧ s.visible = true ∧ x ≠ y ∧
      (∀ p q, encode .big s x ++ p ≠ encode .big s y ++ q) ∧
      UniquelyDecodable (Set.range (encode .big s)) := by
  intro s x y
  have hs : s.delimited = true := by decide
  have hcounts : s.countless = true := by decide
  have hvisible : s.visible = true := by decide
  have hne : x ≠ y := by
    intro h
    cases congrArg (fun v : s.Value => v.1) h
  obtain ⟨hread, -, hrow, -⟩ := encode_append_eq_iff .big hs hcounts hvisible
  refine ⟨hs, hcounts, hvisible, hne, ?_, hrow ⟨x, y, hne⟩⟩
  intro p q heq
  exact hne ((hread x y p q).mp heq).1

end ValueHashing
