import ValueHashing.Shape

/-!
# The order of values

Sorted collections present their elements in ascending order: integers by value, `false`
before `true`, characters by code point, texts by their UTF-8 bytes, an absent value before
a present one, and everything with several parts by the first part that differs, a prefix
before what it begins.

`sortDistinct` builds the elements of a set or the entries of a map from a list in any
order: of elements that compare equal the last one stays.
-/

namespace ValueHashing

namespace Shape

/-- Compare two values of one shape. Bit patterns of floating-point numbers, which no
sorted collection holds, compare as integers. -/
def compareValues : (s : Shape) → s.Value → s.Value → Ordering
  | int signed _, x, y =>
      if signed then compare x.toInt y.toInt else compare x.toNat y.toNat
  | machineInt signed, x, y =>
      if signed then compare x.toInt y.toInt else compare x.toNat y.toNat
  | bool, x, y => compare x.toNat y.toNat
  | char, x, y => compare x.toNat y.toNat
  | float _, x, y => compare x.toNat y.toNat
  | unit, _, _ => .eq
  | text, x, y =>
      List.compareLex (fun a b => compare a.toNat b.toNat) (Bytes.utf8 x) (Bytes.utf8 y)
  | length, x, y => compare x.toNat y.toNat
  | pair first second, x, y =>
      (first.compareValues x.1 y.1).then (second.compareValues x.2 y.2)
  | hidden part, x, y => part.compareValues x y
  | record fields, x, y => fields.compareValues x y
  | option _, none, none => .eq
  | option _, none, some _ => .lt
  | option _, some _, none => .gt
  | option present, some x, some y => present.compareValues x y
  | indirect _ target, x, y => target.compareValues x y
  | array _ element, x, y => List.compareLex element.compareValues x.toList y.toList
  | collection _ element, x, y => List.compareLex element.compareValues x y

end Shape

/-- Of neighbours that compare equal, keep the last. -/
def keepLast {α : Type} (cmp : α → α → Ordering) : List α → List α
  | x :: y :: rest =>
      if cmp x y = .eq then keepLast cmp (y :: rest) else x :: keepLast cmp (y :: rest)
  | xs => xs

/-- The elements of a list in ascending order; of those that compare equal the last one
in the list stays. -/
def sortDistinct {α : Type} (cmp : α → α → Ordering) (xs : List α) : List α :=
  keepLast cmp (xs.mergeSort fun x y => (cmp x y).isLE)

namespace Shape

/-- The elements of a set, from a list of insertions. -/
def setElements (element : Shape) (inserted : List element.Value) : List element.Value :=
  sortDistinct element.compareValues inserted

/-- The entries of a map, from a list of insertions; of equal keys the last one wins. -/
def mapEntries (key value : Shape) (inserted : List (entry key value).Value) :
    List (entry key value).Value :=
  sortDistinct (fun x y => key.compareValues x.1 y.1) inserted

end Shape

end ValueHashing
