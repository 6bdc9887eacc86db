import ValueHashing.Feed

/-!
# Tables of buckets

A map from texts to values whose entries are spread over buckets by the hash of their key.
The number of buckets is chosen once. Each bucket holds its entries in the order in which
their keys were first inserted.
-/

namespace ValueHashing

/-- A table of buckets. The algorithm is part of the type, so that a table is always read
with the algorithm that it was filled with. -/
structure BucketTable (H : StreamingHash) (V : Type) where
  buckets : Array (List (String × V))

/-- The hash of a text: the result of a fresh instance fed the text in the standard layout,
narrowed to a machine word. -/
def textHash (H : StreamingHash) (key : String) : Nat :=
  (project .machine (H.finish (feed H .standard .text H.fresh.value key))).toNat

/-- Put a value under a key: in place of the value that stands there, which is returned,
or else at the end. -/
def insertEntry {V : Type} (key : String) (value : V) :
    List (String × V) → Option V × List (String × V)
  | [] => (none, [(key, value)])
  | (k, v) :: rest =>
      if k = key then (some v, (k, value) :: rest)
      else
        let (old, rest) := insertEntry key value rest
        (old, (k, v) :: rest)

namespace BucketTable

variable {H : StreamingHash} {V : Type}

/-- An empty table of `n` buckets, and of one bucket for `n = 0`. -/
def ofCount (n : Nat) : BucketTable H V := ⟨Array.replicate (max n 1) []⟩

/-- The index of the bucket that a key belongs to. -/
def index (t : BucketTable H V) (key : String) : Nat := textHash H key % t.buckets.size

/-- Put a value under a key and return the one that stood there before. -/
def insert (t : BucketTable H V) (key : String) (value : V) : Option V × BucketTable H V :=
  let i := t.index key
  match t.buckets[i]? with
  | none => (none, t)
  | some bucket =>
      let (old, bucket) := insertEntry key value bucket
      (old, ⟨t.buckets.setIfInBounds i bucket⟩)

/-- The value under a key. -/
def get? (t : BucketTable H V) (key : String) : Option V :=
  match t.buckets[t.index key]? with
  | none => none
  | some bucket => bucket.lookup key

@[simp] theorem size_ofCount (n : Nat) :
    (ofCount n : BucketTable H V).buckets.size = max n 1 := by
  simp [ofCount]

@[simp] theorem size_insert (t : BucketTable H V) (key : String) (value : V) :
    (t.insert key value).2.buckets.size = t.buckets.size := by
  simp only [insert]
  split <;> simp

end BucketTable

end ValueHashing
