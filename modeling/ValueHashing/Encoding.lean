import Mathlib.Data.BitVec
import ValueHashing.Layout
import ValueHashing.Shape

/-!
# The bytes of a value

`encode` gives the bytes of a value of an ordered shape, element by element and without an
algorithm. `encodeAfter` covers every shape: the bytes of an unordered collection depend
on what was absorbed before it and on the algorithm, given as the function from absorbed
bytes to results.

## Implementation notes

The bytes of leaves are digits of numbers, and no function that feeds a value is used for them:
integers, lengths and floating-point numbers are not cut, reordered or normalized here the way
they are on their way to an algorithm.
-/

namespace ValueHashing

namespace Layout

/-- The `size` low digits of a number. The order of the machine is that of a little-endian
one. -/
def digits (L : Layout) (size n : Nat) : Bytes :=
  match L.order with
  | .big => Bytes.bigEndian size n
  | .little | .native => Bytes.littleEndian size n

/-- The digits of a number of elements, of which the higher ones may not fit. -/
def count (L : Layout) (n : Nat) : Bytes := L.digits L.lengthWidth.size n

end Layout

/-- The bit pattern of a floating-point number, or that of the positive zero in place of the
negative one, whose pattern is the sign bit alone. -/
def FloatFormat.pattern : FloatFormat → Nat → Nat
  | single, bits => if bits = 0x80000000 then 0 else bits
  | double, bits => if bits = 0x8000000000000000 then 0 else bits

variable (L : Layout)

/-- The bytes that follow the elements of a collection. -/
def encodeCount : Discipline → Nat → Bytes
  | .contiguous false, _ | .successive false, _ => []
  | .contiguous true, n | .successive true, n | .unordered, n => L.count n

/-- The bytes of a value of an ordered shape. An unordered collection has no bytes of its
own and counts as empty here. -/
def encode : (s : Shape) → s.Value → Bytes
  | .int _ w, x => L.digits w.size x.toNat
  | .machineInt _, x => L.digits 8 x.toNat
  | .bool, b => [if b then 1 else 0]
  | .char, c => L.digits 4 c.toNat
  | .float format, x => L.digits format.width.size (format.pattern x.toNat)
  | .unit, _ => []
  | .text, s => Bytes.utf8 s ++ L.count (Bytes.utf8 s).length
  | .length, n => L.count n.toNat
  | .pair first second, x => encode first x.1 ++ encode second x.2
  | .hidden _, _ => []
  | .record fields, x => encode fields x
  | .option _, none => [0]
  | .option present, some x => 1 :: encode present x
  | .indirect _ target, x => encode target x
  | .array _ element, x => x.toList.flatMap (encode element)
  | .collection kind element, xs =>
      match kind.discipline with
      | .unordered => []
      | discipline => xs.flatMap (encode element) ++ encodeCount L discipline xs.length

/-- The bytes of elements one after the other, where those of an element depend on what was
absorbed before it. -/
def encodeEach {α : Type} (one : Bytes → α → Bytes) : Bytes → List α → Bytes
  | _, [] => []
  | before, x :: xs =>
      let bytes := one before x
      bytes ++ encodeEach one (before ++ bytes) xs

/-- The bytes of a value when `before` was absorbed already, under an algorithm whose
result after the bytes `m` is `digest m`. -/
def encodeAfter (digest : Bytes → Bytes) : (s : Shape) → (before : Bytes) → s.Value → Bytes
  | .pair first second, before, x =>
      let bytes := encodeAfter digest first before x.1
      bytes ++ encodeAfter digest second (before ++ bytes) x.2
  | .record fields, before, x => encodeAfter digest fields before x
  | .option _, _, none => [0]
  | .option present, before, some x => 1 :: encodeAfter digest present (before ++ [1]) x
  | .indirect _ target, before, x => encodeAfter digest target before x
  | .array _ element, before, x => encodeEach (encodeAfter digest element) before x.toList
  | .collection kind element, before, xs =>
      match kind.discipline with
      | .unordered =>
          let share (x : element.Value) : Nat :=
            Bytes.ofLittleEndian ((digest (before ++ encodeAfter digest element before x)).take 8)
          L.digits 8 (xs.map share).sum ++ L.count xs.length
      | discipline =>
          encodeEach (encodeAfter digest element) before xs ++
            encodeCount L discipline xs.length
  | s, _, x => encode L s x

end ValueHashing
