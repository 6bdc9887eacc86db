import ValueHashing.Proofs.Absorber.Calls
import ValueHashing.Proofs.Absorber.Checked

/-!
# Runs of an absorber

A run absorbs bytes, closes the message and absorbs keys, in any order. All that it takes in,
paddings included, is one message (`Absorber.extend`), and the absorber tracks it
(`Tracks.run`). While its length is counted exactly, no check of an operation fails
(`run?_eq`).
-/

namespace ValueHashing.Absorber

/-- What can be done to an absorber. -/
inductive Operation where
  | absorb (data : Bytes)
  | close
  | absorbKey (key : Bytes)
deriving DecidableEq, Repr

variable {W : Type} {C : Compression W} {initial : Vector W 8} {a : Absorber C}
  {message : Bytes}

/-- Carry out one operation. -/
def step (a : Absorber C) : Operation → Absorber C
  | .absorb data => a.absorb data
  | .close => a.close
  | .absorbKey key => a.absorbKey key

/-- Carry out one operation with its checks. -/
def step? (a : Absorber C) : Operation → Option (Absorber C)
  | .absorb data => a.absorb? data
  | .close => a.close?
  | .absorbKey key => a.absorbKey? key

/-- Carry out operations in order. -/
def run (a : Absorber C) (operations : List Operation) : Absorber C :=
  operations.foldl step a

/-- Carry out operations in order, up to the first failed check. -/
def run? (a : Absorber C) (operations : List Operation) : Option (Absorber C) :=
  operations.foldlM step? a

/-- The message after one more operation. Closing adds the padding, and a key adds itself,
the padding of the message that it ends, and itself again. -/
def extendOnce (C : Compression W) (message : Bytes) : Operation → Bytes
  | .absorb data => message ++ data
  | .close => message ++ padding C.blockSize C.lengthSize message.length
  | .absorbKey key =>
      if key.isEmpty then message
      else
        message ++ key ++ padding C.blockSize C.lengthSize (message.length + key.length) ++ key

/-- The message after operations. -/
def extend (C : Compression W) (message : Bytes) (operations : List Operation) : Bytes :=
  operations.foldl (extendOnce C) message

theorem length_le_extendOnce (C : Compression W) (message : Bytes) (operation : Operation) :
    message.length ≤ (extendOnce C message operation).length := by
  cases operation with
  | absorb data => simp [extendOnce]
  | close => simp [extendOnce]
  | absorbKey key =>
      simp only [extendOnce]
      split
      · exact Nat.le_refl _
      · simp only [List.length_append]
        omega

theorem length_le_extend (C : Compression W) (message : Bytes) (operations : List Operation) :
    message.length ≤ (extend C message operations).length := by
  induction operations generalizing message with
  | nil => exact Nat.le_refl _
  | cons operation operations ih =>
      exact Nat.le_trans (length_le_extendOnce C message operation) (ih _)

/-- Every operation keeps track of the message. -/
theorem Tracks.step (h : Tracks initial a message) (operation : Operation) :
    Tracks initial (a.step operation) (extendOnce C message operation) := by
  cases operation with
  | absorb data => exact h.absorb data
  | close => exact h.close
  | absorbKey key =>
      simp only [extendOnce]
      split
      · next hempty =>
          rw [List.isEmpty_iff] at hempty
          subst hempty
          exact h
      · next hkey => exact h.absorbKey (by simpa using hkey)

theorem Tracks.run (h : Tracks initial a message) (operations : List Operation) :
    Tracks initial (a.run operations) (extend C message operations) := by
  induction operations generalizing a message with
  | nil => exact h
  | cons operation operations ih => exact ih (h.step operation)

theorem step?_eq (h : Tracks initial a message) (operation : Operation)
    (hlt : (extendOnce C message operation).length < 2 ^ 128) :
    a.step? operation = some (a.step operation) := by
  cases operation with
  | absorb data =>
      refine absorb?_eq h ?_ data
      simp only [extendOnce, List.length_append] at hlt
      omega
  | close => exact close?_eq h hlt
  | absorbKey key =>
      simp only [extendOnce] at hlt
      split at hlt
      · next hempty =>
          rw [List.isEmpty_iff] at hempty
          subst hempty
          rfl
      · refine absorbKey?_eq h key ?_
        rw [List.length_append] at hlt
        omega

/-- No check fails in a run whose message is counted exactly. -/
theorem run?_eq (h : Tracks initial a message) (operations : List Operation)
    (hlt : (extend C message operations).length < 2 ^ 128) :
    a.run? operations = some (a.run operations) := by
  induction operations generalizing a message with
  | nil => rfl
  | cons operation operations ih =>
      have hstep := step?_eq h operation
        (Nat.lt_of_le_of_lt (length_le_extend C _ operations) hlt)
      calc
        a.run? (operation :: operations) =
            (a.step? operation).bind fun b => b.run? operations := rfl
        _ = (a.step operation).run? operations := by rw [hstep, Option.bind_some]
        _ = some (a.run (operation :: operations)) := ih (h.step operation) hlt

/-- A run whose message is shorter than `2 ^ 128` bytes holds the length of the message, the
bytes after its last whole block, and the chaining state after its whole blocks; these are
the blocks that are compressed, each once and in order. No check of an operation fails. What
else stands in the buffer never shows, whatever is done later. -/
theorem run_holds_message (C : Compression W) (initial : Vector W 8)
    (operations : List Operation) (hlt : (extend C [] operations).length < 2 ^ 128) :
    let message := extend C [] operations
    let a := (start (C := C) initial).run operations
    let recording := (start (C := C.recorded) (C.withRecord initial [])).run operations
    a.total.toNat = message.length ∧
      a.pending = message.length % C.blockSize ∧
      a.block.toList.take a.pending =
        message.drop (message.length - message.length % C.blockSize) ∧
      a.state = (messageBlocks C.blockSize message).foldl C.compress initial ∧
      recording.state =
        C.withRecord a.state (C.calls initial (messageBlocks C.blockSize message)) ∧
      (start (C := C) initial).run? operations = some a ∧
      ∀ block : Vector UInt8 C.blockSize,
        block.toList.take a.pending = a.block.toList.take a.pending →
          ∀ later, ({ a with block }.run later).close = (a.run later).close := by
  intro message a recording
  have h : Tracks initial a message := (Tracks.start initial).run operations
  have hrecording : Tracks (C.withRecord initial []) recording message :=
    (Tracks.start (C := C.recorded) (C.withRecord initial [])).run operations
  refine ⟨?_, h.pending, ?_, h.state, ?_, run?_eq (Tracks.start initial) operations hlt, ?_⟩
  · rw [h.total, BitVec.toNat_ofNat, Nat.mod_eq_of_lt hlt]
  · rw [h.waiting, leftover, Nat.mul_comm, Nat.mod_eq_sub, Nat.sub_sub_self (Nat.mul_div_le _ _)]
  · rw [hrecording.state, h.state]
    exact C.chain_recorded initial message
  · intro block hblock later
    have hstale : Tracks initial { a with block } message :=
      ⟨⟨h.pending, hblock.trans h.waiting, h.state⟩, h.total⟩
    exact (hstale.run later).close_eq (h.run later)

/-- A compression that counts blocks in every word, on blocks of ten bytes. -/
def counting : Compression Nat where
  blockSize := 10
  lengthSize := 4
  compress state _ := state.map (· + 1)

/-- A message that leaves no room for its length, and then a key: the run has absorbed 31
bytes, compressed three blocks, and one byte of the key waits. -/
theorem run_holds_message_spilled_padding :
    let operations : List Operation :=
      [.absorb [1, 2, 3, 4, 5, 6], .close, .absorb [], .absorbKey [7]]
    (extend counting [] operations).length < 2 ^ 128 ∧
      ((start (C := counting) (Vector.replicate 8 0)).run operations).total.toNat = 31 ∧
      ((start (C := counting) (Vector.replicate 8 0)).run operations).pending = 1 ∧
      ((start (C := counting) (Vector.replicate 8 0)).run operations).state = Vector.replicate 8 3 := by
  intro operations
  have hlength : (extend counting [] operations).length = 31 := by decide
  have hlt : (extend counting [] operations).length < 2 ^ 128 := by
    rw [hlength]
    decide
  obtain ⟨htotal, hpending, _, hstate, _⟩ :=
    run_holds_message counting (Vector.replicate 8 0) operations hlt
  refine ⟨hlt, htotal.trans hlength, ?_, ?_⟩
  · rw [hpending, hlength]
    rfl
  · rw [hstate]
    decide +kernel

end ValueHashing.Absorber
