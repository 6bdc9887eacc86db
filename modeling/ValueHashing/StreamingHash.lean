import ValueHashing.Bytes
import ValueHashing.Trace

/-!
# Streaming hash algorithms

A streaming hash algorithm has four ways to start, absorbs byte strings, and gives a result
of fixed size. An algorithm is a value (`StreamingHash`), so that a keyed construction is a
function from algorithms to algorithms. Absorbing and finishing are pure functions of the
state: an earlier state stays available, which is how an intermediate result is read while
the message goes on.
-/

namespace ValueHashing

/-- A streaming hash algorithm. -/
structure StreamingHash where
  /-- What has been absorbed so far. -/
  State : Type
  /-- Bytes per block; a keyed construction sizes its key block by it. -/
  blockSize : Nat
  /-- Bytes per result. -/
  outputSize : Nat
  /-- The standard initial state. -/
  fresh : Logged State
  /-- The initial state when none is asked for. -/
  default : Logged State
  /-- An initial state derived from a 64-bit seed. -/
  seeded : UInt64 → Logged State
  /-- An initial state derived from a key of any length. -/
  keyed : Bytes → Logged State
  /-- Take in more bytes of the message. -/
  absorb : State → Bytes → State
  /-- The result of the message absorbed so far. -/
  finish : State → Bytes

namespace StreamingHash

variable (H : StreamingHash)

/-- Absorb several byte strings, in order. -/
def absorbAll (state : H.State) (parts : List Bytes) : H.State :=
  parts.foldl H.absorb state

@[simp] theorem absorbAll_nil (state : H.State) : H.absorbAll state [] = state := rfl

@[simp] theorem absorbAll_cons (state : H.State) (part : Bytes) (parts : List Bytes) :
    H.absorbAll state (part :: parts) = H.absorbAll (H.absorb state part) parts := rfl

theorem absorbAll_append (state : H.State) (xs ys : List Bytes) :
    H.absorbAll state (xs ++ ys) = H.absorbAll (H.absorbAll state xs) ys := by
  simp [absorbAll]

/-- The result of one byte string. -/
def digest (data : Bytes) : Logged Bytes := do
  let state ← H.fresh
  return H.finish (H.absorb state data)

/-- The result of several byte strings, absorbed in order. -/
def digestAll (parts : List Bytes) : Logged Bytes := do
  let state ← H.fresh
  return H.finish (H.absorbAll state parts)

/-- The key that a seed stands for: its eight bytes, least significant first. -/
def seedKey (seed : UInt64) : Bytes := Bytes.littleEndian 8 seed.toNat

@[simp] theorem length_seedKey (seed : UInt64) : (seedKey seed).length = 8 := by
  simp [seedKey]

/-- The algorithm whose keyed start absorbs the key as the first bytes of the message.
An empty key and the seed zero stand for the plain start and absorb nothing. -/
def keyPrefixed : StreamingHash :=
  let start (key : Bytes) : Logged H.State :=
    if key.isEmpty then H.fresh else (fun state => H.absorb state key) <$> H.fresh
  { H with
    seeded := fun seed => if seed = 0 then H.fresh else start (seedKey seed)
    keyed := start }

end StreamingHash

end ValueHashing
