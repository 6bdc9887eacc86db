import ValueHashing.Bytes

/-!
# Integer widths

The widths of the fixed-size integers that values are made of, that lengths are written
in, and that results are projected to.
-/

namespace ValueHashing

/-- The width of a fixed-size integer. -/
inductive Width where
  | w8
  | w16
  | w32
  | w64
  | w128
deriving DecidableEq, Repr

namespace Width

/-- Bytes per integer. -/
def size : Width → Nat
  | w8 => 1
  | w16 => 2
  | w32 => 4
  | w64 => 8
  | w128 => 16

/-- Bits per integer. -/
def bits (w : Width) : Nat := 8 * w.size

/-- The width of a machine word, in which lengths and positions in memory are counted. -/
def machine : Width := w64

theorem size_pos (w : Width) : 0 < w.size := by cases w <;> decide

end Width

/-- Read the front of a result as an integer of the given width, least significant byte
first. Bytes that are missing count as zero. -/
def project (w : Width) (result : Bytes) : BitVec w.bits :=
  BitVec.ofNat w.bits (Bytes.ofLittleEndian (Bytes.overwrite result (Bytes.zeros w.size)))

end ValueHashing
