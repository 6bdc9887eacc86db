import ValueHashing.StreamingHash

/-!
# Recorded runs

`Recording.of H` behaves like `H` and also keeps every byte string handed to it, in order
and one entry per call. It shows not only which bytes a value feeds to an algorithm but
also in how many calls, the empty ones included.
-/

namespace ValueHashing

/-- A state together with the calls that led to it, oldest first. -/
structure Recording (State : Type) where
  state : State
  calls : Array Bytes

namespace Recording

variable {State : Type}

/-- Nothing has been absorbed yet. -/
def start (state : State) : Recording State := ⟨state, #[]⟩

/-- All bytes absorbed so far. -/
def bytes (r : Recording State) : Bytes := r.calls.toList.flatten

/-- `H`, with a record of every call. -/
def of (H : StreamingHash) : StreamingHash where
  State := Recording H.State
  blockSize := H.blockSize
  outputSize := H.outputSize
  fresh := start <$> H.fresh
  default := start <$> H.default
  seeded seed := start <$> H.seeded seed
  keyed key := start <$> H.keyed key
  absorb r data := ⟨H.absorb r.state data, r.calls.push data⟩
  finish r := H.finish r.state

@[simp] theorem bytes_start (state : State) : (start state).bytes = [] := rfl

@[simp] theorem bytes_absorb (H : StreamingHash) (r : Recording H.State) (data : Bytes) :
    ((of H).absorb r data).bytes = r.bytes ++ data := by
  simp [of, bytes]

end Recording

end ValueHashing
