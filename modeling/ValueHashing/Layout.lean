import ValueHashing.Width

/-!
# Layouts

A layout says how integers and lengths become bytes: in which byte order, and with how many
bytes per length. It never changes what an algorithm does with the bytes.
-/

namespace ValueHashing

/-- The order of the bytes of an integer. -/
inductive ByteOrder where
  /-- Least significant byte first. -/
  | little
  /-- Most significant byte first. -/
  | big
  /-- The order of the machine. -/
  | native
deriving DecidableEq, Repr

namespace ByteOrder

/-- The byte order of the machine, which is a little-endian one. -/
def machine : ByteOrder := little

/-- The order itself, with `native` replaced by that of the machine. -/
def onMachine : ByteOrder → ByteOrder
  | native => machine
  | order => order

/-- Whether the least significant byte comes first. -/
def isLittle (order : ByteOrder) : Bool := order.onMachine = little

/-- The name of the order. -/
def name : ByteOrder → String
  | little => "Little"
  | big => "Big"
  | native => "Native"

/-- The `size` low bytes of `x` in the given order. -/
def encode (order : ByteOrder) (size x : Nat) : Bytes :=
  if order.isLittle then Bytes.littleEndian size x else Bytes.bigEndian size x

@[simp] theorem length_encode (order : ByteOrder) (size x : Nat) :
    (order.encode size x).length = size := by
  unfold encode
  split <;> simp

end ByteOrder

/-- A length as an integer of the given width; what does not fit is cut off. -/
def lengthWord (w : Width) (length : Nat) : BitVec w.bits := BitVec.ofNat w.bits length

/-- How integers and lengths become bytes. -/
structure Layout where
  /-- The byte order of integers and lengths. -/
  order : ByteOrder
  /-- The width of a length. -/
  lengthWidth : Width
deriving DecidableEq, Repr

namespace Layout

/-- The order of the machine and lengths of four bytes. -/
def standard : Layout := ⟨.native, .w32⟩

/-- Least significant byte first, and lengths of eight bytes. -/
def little : Layout := ⟨.little, .w64⟩

/-- Most significant byte first, and lengths of eight bytes. -/
def big : Layout := ⟨.big, .w64⟩

/-- The bytes of an integer of width `w`. -/
def integer (L : Layout) (w : Width) (x : BitVec w.bits) : Bytes :=
  L.order.encode w.size x.toNat

/-- The bytes of a length. -/
def length (L : Layout) (n : Nat) : Bytes :=
  L.integer L.lengthWidth (lengthWord L.lengthWidth n)

@[simp] theorem length_integer (L : Layout) (w : Width) (x : BitVec w.bits) :
    (L.integer w x).length = w.size := by
  simp [integer]

end Layout

end ValueHashing
