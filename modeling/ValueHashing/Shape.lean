import ValueHashing.Width

/-!
# Shapes and their values

A shape describes a kind of value: integers, texts, aggregates, collections. `Shape.Value`
gives the values of a shape. What a value feeds to a hash algorithm depends on its shape
alone, so two shapes may share their values and still be told apart, such as a run of
elements with and without a trailing count.
-/

namespace ValueHashing

/-- The two binary floating-point formats. Values are kept as bit patterns. -/
inductive FloatFormat where
  | single
  | double
deriving DecidableEq, Repr

/-- The width of the bit pattern. -/
def FloatFormat.width : FloatFormat → Width
  | single => .w32
  | double => .w64

/-- The bit pattern by which a number is hashed. The negative zero, whose pattern is the
sign bit alone, equals the positive one and is hashed like it. -/
def FloatFormat.normalize (format : FloatFormat) (x : BitVec format.width.bits) :
    BitVec format.width.bits :=
  if x = BitVec.intMin format.width.bits then 0 else x

/-- Ways to hold a value by indirection. None of them shows in what is hashed. -/
inductive Indirection where
  | shared
  | exclusive
  | owned
  | counted
  | countedAcrossThreads
  | copyOnWrite
deriving DecidableEq, Repr

/-- The kinds of collections. The values of each are lists of elements, in the order in
which the collection presents them; a map has key-value pairs for elements. -/
inductive Collection where
  /-- Contiguous elements that belong to something else. -/
  | slice
  /-- Contiguous elements of its own. -/
  | vector
  /-- A queue open at both ends. -/
  | deque
  /-- A set in ascending order. -/
  | sortedSet
  /-- A map in ascending order of its keys. -/
  | sortedMap
  /-- Any sequence, with its length. -/
  | sizedRange
  /-- Contiguous elements without their number. -/
  | run
  /-- Any sequence, without its length. -/
  | range
  /-- A set without an order. -/
  | hashedSet
  /-- A map without an order. -/
  | hashedMap
  /-- Any multiset, presented in some order. -/
  | unorderedRange
deriving DecidableEq, Repr

/-- How the elements of a collection are fed. -/
inductive Discipline where
  /-- In order from one stretch of memory, so that integers may be fed in batches. -/
  | contiguous (counted : Bool)
  /-- In order, one at a time. -/
  | successive (counted : Bool)
  /-- Independently of their order, and always with their number. -/
  | unordered
deriving DecidableEq, Repr

/-- How a kind of collection feeds its elements. -/
def Collection.discipline : Collection → Discipline
  | slice | vector => .contiguous true
  | run => .contiguous false
  | deque | sortedSet | sortedMap | sizedRange => .successive true
  | range => .successive false
  | hashedSet | hashedMap | unorderedRange => .unordered

/-- A kind of value. -/
inductive Shape where
  /-- An integer of fixed width; signed ones are in two's complement. -/
  | int (signed : Bool) (width : Width)
  /-- An integer of the width of a machine word. -/
  | machineInt (signed : Bool)
  | bool
  | char
  | float (format : FloatFormat)
  | unit
  | text
  /-- The length of something, without the thing itself. -/
  | length
  | pair (first second : Shape)
  /-- A part that is present in the value and never hashed. -/
  | hidden (part : Shape)
  /-- An aggregate with its own name, made of the fields of another shape. -/
  | record (fields : Shape)
  | option (present : Shape)
  | indirect (kind : Indirection) (target : Shape)
  /-- A fixed number of contiguous elements. -/
  | array (count : Nat) (element : Shape)
  | collection (kind : Collection) (element : Shape)
deriving DecidableEq, Repr

namespace Shape

/-- The values of a shape. -/
@[reducible] def Value : Shape → Type
  | int _ width => BitVec width.bits
  | machineInt _ => BitVec Width.machine.bits
  | bool => Bool
  | char => Char
  | float format => BitVec format.width.bits
  | unit => Unit
  | text => String
  | length => BitVec Width.machine.bits
  | pair first second => first.Value × second.Value
  | hidden part => part.Value
  | record fields => fields.Value
  | option present => Option present.Value
  | indirect _ target => target.Value
  | array count element => Vector element.Value count
  | collection _ element => List element.Value

/-- Several components, one after the other. -/
def tuple (components : List Shape) : Shape := components.foldr pair unit

@[simp] theorem tuple_nil : tuple [] = unit := rfl

@[simp] theorem tuple_cons (s : Shape) (rest : List Shape) :
    tuple (s :: rest) = pair s (tuple rest) := rfl

/-- An entry of a map: a key and what it stands for. -/
def entry (key value : Shape) : Shape := tuple [key, value]

/-- Whether no part of a shape is fed independently of its order. -/
def ordered : Shape → Bool
  | pair first second => first.ordered && second.ordered
  | record fields => fields.ordered
  | option present => present.ordered
  | indirect _ target => target.ordered
  | array _ element => element.ordered
  | collection kind element => kind.discipline != .unordered && element.ordered
  | _ => true

end Shape

end ValueHashing
