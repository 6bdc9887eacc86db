import ValueHashing.Proofs.Cancellation
import ValueHashing.Proofs.Encoding.Agreement
import ValueHashing.Proofs.Feed.Containers

/-!
# Representations do not show

Much of a shape says how a value is represented: through which indirection it is held, whether an
integer is signed, whether several values have a name in common. `Shape.erase` takes this away and
`Shape.eraseValue` takes it away from values, at any depth. What is left has the bytes that there
were before (`encodeAfter_erase`), so that an instance that computes is left in states that are
alike by a value and by its erasure (`alike_of_erased`).

## Implementation notes

The erased elements of a sorted set need not be in ascending order, and those of a hashed set need
not be different. They are therefore not sets any more: a sorted collection becomes the range of its
elements in the order that they had, a hashed one the multiset of them.
-/

namespace ValueHashing

/-- What a kind of collection is without the properties of its elements. -/
def Collection.erase : Collection → Collection
  | .sortedSet | .sortedMap => .sizedRange
  | .hashedSet | .hashedMap => .unorderedRange
  | kind => kind

@[simp] theorem Collection.discipline_erase (kind : Collection) :
    kind.erase.discipline = kind.discipline := by
  cases kind <;> rfl

namespace Shape

/-- Whether a shape is that of a part that is not hashed. -/
def isHidden : Shape → Bool
  | hidden _ => true
  | _ => false

/-- Two components, or the second one alone if the first one is dropped. -/
def pairUnless (dropped : Bool) (first second : Shape) : Shape :=
  match dropped with
  | true => second
  | false => pair first second

/-- The value of two components, or of the second one alone. -/
def pairUnlessValue {first second : Shape} :
    (dropped : Bool) → first.Value → second.Value → (pairUnless dropped first second).Value
  | true, _, y => y
  | false, x, y => (x, y)

/-- A shape without its representation: indirections are gone, integers are unsigned and of fixed
width, truth values and characters are integers, and an aggregate is the tuple of its parts that are
hashed. -/
def erase : Shape → Shape
  | int _ width => int false width
  | machineInt _ => int false .w64
  | bool => int false .w8
  | char => int false .w32
  | pair first second => pairUnless first.isHidden first.erase second.erase
  | hidden _ => unit
  | record fields => fields.erase
  | option present => option present.erase
  | indirect _ target => target.erase
  | array count element => array count element.erase
  | collection kind element => collection kind.erase element.erase
  | s => s

/-- A value without its representation. -/
def eraseValue : (s : Shape) → s.Value → s.erase.Value
  | int .., x | machineInt _, x | float _, x | unit, x | text, x | length, x => x
  | bool, b => BitVec.ofNat 8 b.toNat
  | char, c => BitVec.ofNat 32 c.toNat
  | pair first second, x =>
      pairUnlessValue first.isHidden (first.eraseValue x.1) (second.eraseValue x.2)
  | hidden _, _ => ()
  | record fields, x => fields.eraseValue x
  | option present, x => x.map present.eraseValue
  | indirect _ target, x => target.eraseValue x
  | array _ element, x => x.map element.eraseValue
  | collection _ element, xs => xs.map element.eraseValue

/-- Whether nothing is left in a shape that erasing takes away. -/
def bare (s : Shape) : Bool :=
  s.everyPart fun
    | int signed _ => !signed
    | machineInt _ | bool | char | hidden _ | record _ | indirect .. => false
    | collection kind _ => kind = kind.erase
    | _ => true

theorem bare_erase (s : Shape) : s.erase.bare = true := by
  induction s with
  | int | machineInt | bool | char | float | unit | text | length | hidden => rfl
  | pair first second ihFirst ihSecond =>
      rw [erase]
      cases first.isHidden with
      | true => exact ihSecond
      | false => exact Bool.and_eq_true_iff.mpr ⟨ihFirst, ihSecond⟩
  | record fields ih | option present ih | indirect kind target ih | array count element ih =>
      exact ih
  | collection kind element ih =>
      have hkind : kind.erase = kind.erase.erase := by cases kind <;> rfl
      exact Bool.and_eq_true_iff.mpr ⟨decide_eq_true hkind, ih⟩

/-- An aggregate becomes the tuple of those of its parts that are hashed. -/
theorem erase_record (fields : List Shape) :
    (record (tuple fields)).erase = tuple ((fields.filter fun s => !s.isHidden).map erase) := by
  have htuple : (tuple fields).erase =
      tuple ((fields.filter fun s => !s.isHidden).map erase) := by
    induction fields with
    | nil => rfl
    | cons s fields ih =>
        rw [tuple_cons, erase, ih]
        cases hs : s.isHidden with
        | true => rw [List.filter_cons_of_neg (by simp [hs]), pairUnless]
        | false =>
            rw [List.filter_cons_of_pos (by simp [hs]), List.map_cons, tuple_cons, pairUnless]
  exact htuple

/-- Values that agree in everything that is hashed are one without their representation. -/
theorem eraseValue_eq_of_agree {s : Shape} {x y : s.Value} (h : s.Agree .contents x y) :
    s.eraseValue x = s.eraseValue y := by
  induction s with
  | int | machineInt | bool | char | float | unit | length => rw [h rfl]
  | text => rw [h.1 rfl]
  | pair first second ihFirst ihSecond => rw [eraseValue, eraseValue, ihFirst h.1, ihSecond h.2]
  | hidden => rfl
  | record fields ih => exact ih h
  | option present ih =>
      cases x with
      | none =>
          cases y with
          | none => rfl
          | some y => cases h
      | some x =>
          cases y with
          | none => cases h
          | some y => exact congrArg some (ih h)
  | indirect kind target ih => exact ih h
  | array count element ih =>
      have hmap : x.map element.eraseValue = y.map element.eraseValue := by
        apply Vector.toList_inj.mp
        rw [Vector.toList_map, Vector.toList_map]
        exact map_eq_of_forall₂ h fun _ _ => ih
      exact hmap
  | collection kind element ih => exact map_eq_of_forall₂ (h.2 (h.1 rfl)) fun _ _ => ih

end Shape

variable (L : Layout) (digest : Bytes → Bytes)

theorem encodeAfter_of_isHidden {s : Shape} (hs : s.isHidden = true) (before : Bytes)
    (x : s.Value) : encodeAfter L digest s before x = [] := by
  cases s with
  | hidden => rfl
  | _ => cases hs

theorem encodeAfter_pairUnless (dropped : Bool) {first second : Shape} (before : Bytes)
    (x : first.Value) (y : second.Value) :
    encodeAfter L digest (.pairUnless dropped first second) before
        (Shape.pairUnlessValue dropped x y) =
      let bytes := if dropped then [] else encodeAfter L digest first before x
      bytes ++ encodeAfter L digest second (before ++ bytes) y := by
  cases dropped with
  | true => simp [Shape.pairUnless, Shape.pairUnlessValue]
  | false => rfl

/-- Elements in a row have the bytes of what is made of them if each one has. -/
theorem encodeEach_map {α β : Type} {one : Bytes → α → Bytes} {other : Bytes → β → Bytes}
    {f : α → β} (h : ∀ before x, other before (f x) = one before x) (before : Bytes)
    (xs : List α) : encodeEach other before (xs.map f) = encodeEach one before xs := by
  induction xs generalizing before with
  | nil => rfl
  | cons x xs ih => simp only [List.map_cons, encodeEach, h, ih]

/-- A value has the bytes that it has without its representation. -/
theorem encodeAfter_erase (s : Shape) (before : Bytes) (x : s.Value) :
    encodeAfter L digest s.erase before (s.eraseValue x) = encodeAfter L digest s before x := by
  induction s generalizing before with
  | int | machineInt | float | unit | text | length | hidden => rfl
  | bool =>
      have hbyte : UInt8.ofBitVec (BitVec.ofNat 8 x.toNat) = if x then 1 else 0 := by
        cases x <;> rfl
      have hone : L.integer .w8 (BitVec.ofNat 8 x.toNat) = [if x then 1 else 0] :=
        (L.integer_w8 _).trans (congrArg (fun b => [b]) hbyte)
      exact (encode_int L false .w8 _).trans hone
  | char => exact (encode_int L false .w32 _).trans (encode_char L x).symm
  | pair first second ihFirst ihSecond =>
      have hfirst : (if first.isHidden then []
          else encodeAfter L digest first.erase before (first.eraseValue x.1)) =
            encodeAfter L digest first before x.1 := by
        cases hhidden : first.isHidden with
        | true => exact (encodeAfter_of_isHidden L digest hhidden before x.1).symm
        | false => exact ihFirst before x.1
      refine (encodeAfter_pairUnless L digest first.isHidden before _ _).trans ?_
      simp only [hfirst, ihSecond, encodeAfter]
  | record fields ih => exact ih before x
  | option present ih =>
      cases x with
      | none => rfl
      | some x => exact congrArg (1 :: ·) (ih _ x)
  | indirect kind target ih => exact ih before x
  | array count element ih =>
      have helements : (x.map element.eraseValue).toList = x.toList.map element.eraseValue :=
        Vector.toList_map
      exact (congrArg (encodeEach _ before) helements).trans (encodeEach_map ih before x.toList)
  | collection kind element ih =>
      change encodeAfter L digest (.collection kind.erase element.erase) before
        (x.map element.eraseValue) = _
      cases hkind : kind.discipline with
      | contiguous counted | successive counted =>
          simp only [encodeAfter, Collection.discipline_erase, hkind, encodeEach_map ih,
            List.length_map]
      | unordered =>
          have herased : kind.erase.discipline = .unordered := kind.discipline_erase.trans hkind
          rw [encodeAfter_unordered L digest herased, encodeAfter_unordered L digest hkind]
          simp only [List.map_map, Function.comp_def, ih, List.length_map]

/-- Feeding a value without its representation, to an instance whose results do not show how bytes
are cut into pieces, leaves it in a state that is alike to the one that the value itself leaves.
Nothing is left of the representation in any part of the shape, and aggregates are the tuples of
their parts that are hashed. The erased elements of a sorted collection stay in the order that they
had, and those of a hashed one are presented in any order. So values that differ only in parts that
are not hashed, at any depth, leave states that are alike. -/
theorem alike_of_erased (H : StreamingHash) (h : H.State)
    (hcut : ∀ xs ys : List Bytes, xs.flatten = ys.flatten →
      H.finish (H.absorbAll h xs) = H.finish (H.absorbAll h ys)) :
    (∀ s : Shape, s.erase.bare = true) ∧
    (∀ fields : List Shape, (Shape.record (.tuple fields)).erase =
      .tuple ((fields.filter fun s => !s.isHidden).map Shape.erase)) ∧
    (∀ (s : Shape) (x : s.Value),
      H.Alike (feed H L s h x) (feed H L s.erase h (s.eraseValue x))) ∧
    (∀ (s : Shape) (x : s.Value) (y : s.erase.Value), s.erase.Reordered (s.eraseValue x) y →
      H.Alike (feed H L s h x) (feed H L s.erase h y)) ∧
    ∀ (s : Shape) (x y : s.Value), s.Agree .contents x y →
      H.Alike (feed H L s h x) (feed H L s h y) := by
  obtain ⟨digest, hcomputes⟩ := StreamingHash.exists_computes_iff.mpr hcut
  have herased (s : Shape) (x : s.Value) :
      H.Alike (feed H L s h x) (feed H L s.erase h (s.eraseValue x)) :=
    hcomputes.alike_feed L (encodeAfter_erase L digest s [] x).symm
  refine ⟨Shape.bare_erase, Shape.erase_record, herased, ?_, ?_⟩
  · intro s x y hy
    rw [← feed_eq_of_reordered L H hy h]
    exact herased s x
  · intro s x y hxy
    apply hcomputes.alike_feed
    rw [← encodeAfter_erase L digest s [] x, ← encodeAfter_erase L digest s [] y,
      Shape.eraseValue_eq_of_agree hxy]

/-- Boxed signed machine integers, a set of aggregates with a part that is not hashed, and a map
from characters to truth values, fed to FNV-1a. The erased integers go through the staging buffer,
and the erased aggregates are presented in another order. -/
theorem alike_of_erased_fnv :
    let H := Fnv.algorithm 1
    let h : H.State := Fnv.offsetBasis
    let element := Shape.record (.tuple [.int true .w16, .hidden .char])
    let s := Shape.tuple [.collection .vector (.indirect .owned (.machineInt true)),
      .collection .hashedSet element, .collection .sortedMap (.tuple [.char, .bool])]
    let erased := Shape.tuple [.collection .vector (.int false .w64),
      .collection .unorderedRange (.tuple [.int false .w16]),
      .collection .sizedRange (.tuple [.int false .w32, .int false .w8])]
    let x : s.Value := ([5, -1], [(-2, 'a', ()), (3, 'b', ())], [('c', true, ())], ())
    let y : s.Value := ([5, -1], [(-2, 'd', ()), (3, 'e', ())], [('c', true, ())], ())
    let z : erased.Value :=
      ([5, 0xffffffffffffffff], [(3, ()), (0xfffe, ())], [(99, 1, ())], ())
    s.erase = erased ∧ H.Alike (feed H .big s h x) (feed H .big erased h z) ∧
      s.Agree .contents x y ∧ x ≠ y ∧ H.Alike (feed H .big s h x) (feed H .big s h y) := by
  intro H h element s erased x y z
  have hcut := StreamingHash.exists_computes_iff.mp ⟨_, Fnv.computes_absorb 1 h⟩
  obtain ⟨-, -, -, hreordered, hhidden⟩ := alike_of_erased .big H h hcut
  have hset : Shape.Reordered (.collection .unorderedRange (.tuple [.int false .w16]))
      [(0xfffe, ()), (3, ())] [(3, ()), (0xfffe, ())] :=
    ⟨_, List.Perm.swap .., List.forall₂_same.mpr fun _ _ => ⟨rfl, rfl⟩⟩
  have hvector : Shape.Reordered (.collection .vector (.int false .w64))
      [5, 0xffffffffffffffff] [5, 0xffffffffffffffff] :=
    List.forall₂_same.mpr fun _ _ => rfl
  have hmap : Shape.Reordered (.collection .sizedRange (.tuple [.int false .w32, .int false .w8]))
      [(99, 1, ())] [(99, 1, ())] :=
    List.forall₂_same.mpr fun _ _ => ⟨rfl, rfl, rfl⟩
  have hxz : s.erase.Reordered (s.eraseValue x) z := ⟨hvector, hset, hmap, rfl⟩
  have helements : Shape.Agree .contents (.collection .hashedSet element)
      [(-2, 'a', ()), (3, 'b', ())] [(-2, 'd', ()), (3, 'e', ())] :=
    ⟨fun _ => rfl, fun _ => .cons ⟨fun _ => rfl, trivial, fun _ => rfl⟩
      (.cons ⟨fun _ => rfl, trivial, fun _ => rfl⟩ .nil)⟩
  have hxy : s.Agree .contents x y :=
    ⟨Shape.agree_refl _ _, helements, Shape.agree_refl _ _, fun _ => rfl⟩
  have hne : x ≠ y := by
    intro heq
    cases congrArg (fun v : s.Value => v.2.1) heq
  exact ⟨rfl, hreordered s x z hxz, hxy, hne, hhidden s x y hxy⟩

end ValueHashing
