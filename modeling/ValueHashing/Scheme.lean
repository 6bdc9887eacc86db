import ValueHashing.Fnv
import ValueHashing.Hmac
import ValueHashing.Recording
import ValueHashing.Sha2.Variant

/-!
# Schemes

A scheme names an algorithm: a variant of SHA-2, one of the plain algorithms, or a keyed
construction over a scheme, to any depth.
-/

namespace ValueHashing

/-- The names of the algorithms. -/
inductive Scheme where
  | sha2 (variant : Sha2.Variant)
  /-- FNV-1a with blocks of the given size. -/
  | fnv (blockSize : Nat)
  /-- FNV-1a with a record of every call. -/
  | recorder
  | hmac (inner : Scheme)
deriving DecidableEq, Repr

namespace Scheme

/-- The algorithm of a scheme. The recorder starts from a key by absorbing it, so that its
record shows the key. -/
def algorithm : Scheme → StreamingHash
  | sha2 variant => variant.algorithm
  | fnv blockSize => Fnv.algorithm blockSize
  | recorder => (Recording.of (Fnv.algorithm 1)).keyPrefixed
  | hmac inner => Hmac.of inner.algorithm

/-- The calls that a state has on record, for a scheme that keeps one. -/
def calls? : (s : Scheme) → s.algorithm.State → Option (List Bytes)
  | recorder, state => some (Recording.calls state).toList
  | _, _ => none

end Scheme

end ValueHashing
