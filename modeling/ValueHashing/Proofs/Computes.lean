import ValueHashing.Fnv

/-!
# States that stand for functions of bytes

A state of a streaming hash computes a function when the result depends on the concatenation
of what the state takes in, and not on how it is cut into pieces. A state that has taken in
some bytes computes the function of what follows them.
-/

namespace ValueHashing.StreamingHash

variable {H : StreamingHash} {state : H.State} {digest : Bytes → Bytes}

/-- Fed any pieces, `state` gives the value of `digest` at their concatenation. -/
def Computes (H : StreamingHash) (state : H.State) (digest : Bytes → Bytes) : Prop :=
  ∀ chunks, H.finish (H.absorbAll state chunks) = digest chunks.flatten

theorem Computes.finish (h : H.Computes state digest) : H.finish state = digest [] := h []

theorem Computes.absorb (h : H.Computes state digest) (data : Bytes) :
    H.Computes (H.absorb state data) fun message => digest (data ++ message) :=
  fun chunks => h (data :: chunks)

theorem Computes.finish_absorb (h : H.Computes state digest) (data : Bytes) :
    H.finish (H.absorb state data) = digest data := by
  rw [(h.absorb data).finish, List.append_nil]

/-- From a fresh state, the digest of one byte string. -/
theorem Computes.value_digest (h : H.Computes H.fresh.value digest) (data : Bytes) :
    (H.digest data).value = digest data :=
  h.finish_absorb data

/-- From a fresh state, the digest of several byte strings. -/
theorem Computes.value_digestAll (h : H.Computes H.fresh.value digest) (parts : List Bytes) :
    (H.digestAll parts).value = digest parts.flatten :=
  h parts

/-- When absorbing two byte strings is absorbing them as one, every state computes. -/
theorem computes_of_absorb_append (state : H.State)
    (hnil : ∀ s, H.absorb s [] = s)
    (happend : ∀ s xs ys, H.absorb s (xs ++ ys) = H.absorb (H.absorb s xs) ys) :
    H.Computes state fun message => H.finish (H.absorb state message) := by
  intro chunks
  induction chunks generalizing state with
  | nil => simp only [absorbAll_nil, List.flatten_nil, hnil]
  | cons chunk chunks ih => simp only [absorbAll_cons, ih, List.flatten_cons, happend]

end ValueHashing.StreamingHash

namespace ValueHashing.Fnv

/-- FNV-1a computes from any state, byte by byte. -/
theorem computes_absorb (blockSize : Nat) (state : UInt64) :
    (algorithm blockSize).Computes state fun message =>
      Bytes.littleEndian 8 (absorb state message).toNat :=
  StreamingHash.computes_of_absorb_append (H := algorithm blockSize) state (fun _ => rfl)
    absorb_append

end ValueHashing.Fnv
