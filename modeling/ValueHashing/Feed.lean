import ValueHashing.StreamingHash
import ValueHashing.Layout
import ValueHashing.Shape

/-!
# Feeding values to a hash

`feed` hands a value to a hash algorithm, call by call. Which calls are made depends on
the shape of the value and on the layout. Collections that carry their number feed it after
their elements, so that the boundaries between nested collections show.

Contiguous integers are staged in a buffer and fed one full buffer at a time. Elements of
an unordered collection are fed to copies of the state at hand, and only the sum of what the
copies give is fed to the state itself.
-/

namespace ValueHashing

variable (H : StreamingHash) (L : Layout)

/-- Bytes that are staged before they are fed. -/
def stagingSize : Nat := 256

/-- Feed the length of something. -/
def feedLength (h : H.State) (n : Nat) : H.State := H.absorb h (L.length n)

/-- Feed a present value after the flag one, an absent one as the flag zero. -/
def feedFlag (h : H.State) (present : Bool) : H.State := H.absorb h [present.toUInt8]

/-- Stage one piece of a run in the buffer and feed the part of the buffer that it
fills. -/
def feedPiece (w : Width) (s : H.State × Bytes) (piece : List (BitVec w.bits)) :
    H.State × Bytes :=
  let buffer := Bytes.overwrite (piece.flatMap (L.integer w)) s.2
  (H.absorb s.1 (buffer.take (piece.length * w.size)), buffer)

/-- Feed a run of integers, as many to a call as fit into the staging buffer. -/
def feedStaged (w : Width) (h : H.State) (xs : List (BitVec w.bits)) : H.State :=
  let perPiece := stagingSize / w.size
  let count := (xs.length + perPiece - 1) / perPiece
  ((pieces perPiece count xs).foldl (feedPiece H L w) (h, Bytes.zeros stagingSize)).1

/-- Feed contiguous elements. Unsigned bytes go in one call, other integers of fixed width
through the staging buffer, and everything else one element at a time with `one`. -/
def feedRun : (s : Shape) → (one : H.State → s.Value → H.State) → H.State →
    List s.Value → H.State
  | .int false .w8, _, h, xs => H.absorb h (xs.map UInt8.ofBitVec)
  | .int _ w, _, h, xs => feedStaged H L w h xs
  | _, one, h, xs => xs.foldl one h

/-- What one element of an unordered collection contributes: the result of the state after
it, narrowed to 64 bits. -/
def contribution (h : H.State) : BitVec 64 := project .w64 (H.finish h)

/-- Feed elements whose order carries no meaning: the wrapping sum of what each contributes
on its own, then their number. -/
def feedUnordered {α : Type} (one : H.State → α → H.State) (h : H.State) (xs : List α) :
    H.State :=
  let sum := xs.foldl (fun sum x => sum + contribution H (one h x)) 0
  feedLength H L (H.absorb h (L.integer .w64 sum)) xs.length

/-- Feed a value. -/
def feed : (s : Shape) → H.State → s.Value → H.State
  | .int _ w, h, x => H.absorb h (L.integer w x)
  | .machineInt _, h, x => H.absorb h (L.integer .machine x)
  | .bool, h, b => H.absorb h [b.toUInt8]
  | .char, h, c => H.absorb h (L.integer .w32 (BitVec.ofNat 32 c.toNat))
  | .float format, h, x => H.absorb h (L.integer format.width (format.normalize x))
  | .unit, h, _ => h
  | .text, h, s =>
      let bytes := Bytes.utf8 s
      feedLength H L (H.absorb h bytes) bytes.length
  | .length, h, n => feedLength H L h n.toNat
  | .pair first second, h, x => feed second (feed first h x.1) x.2
  | .hidden _, h, _ => h
  | .record fields, h, x => feed fields h x
  | .option _, h, none => feedFlag H h false
  | .option present, h, some x => feed present (feedFlag H h true) x
  | .indirect _ target, h, x => feed target h x
  | .array _ element, h, x => feedRun H L element (feed element) h x.toList
  | .collection kind element, h, xs =>
      match kind.discipline with
      | .contiguous counted =>
          let h := feedRun H L element (feed element) h xs
          if counted then feedLength H L h xs.length else h
      | .successive counted =>
          let h := xs.foldl (feed element) h
          if counted then feedLength H L h xs.length else h
      | .unordered => feedUnordered H L (feed element) h xs

end ValueHashing
