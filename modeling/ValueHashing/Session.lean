import ValueHashing.Feed
import ValueHashing.Scheme

/-!
# Sessions

A session keeps instances of streaming hashes under names and works on them step by step:
an instance is started, absorbs bytes and values, is copied, and at last is finished in one
of three ways and gone.
-/

namespace ValueHashing

/-- An instance of an algorithm. -/
structure Instance where
  scheme : Scheme
  state : scheme.algorithm.State

/-- The ways to start an instance. -/
inductive Start where
  | fresh
  | default
  | seeded (seed : UInt64)
  | keyed (key : Bytes)
deriving DecidableEq, Repr

namespace Instance

/-- Start an instance of a scheme. -/
def start (scheme : Scheme) (how : Start) : Logged Instance :=
  Instance.mk scheme <$>
    match how with
    | .fresh => scheme.algorithm.fresh
    | .default => scheme.algorithm.default
    | .seeded seed => scheme.algorithm.seeded seed
    | .keyed key => scheme.algorithm.keyed key

/-- Absorb a byte string. -/
def absorb (i : Instance) (data : Bytes) : Instance :=
  { i with state := i.scheme.algorithm.absorb i.state data }

/-- Absorb several byte strings, in order. -/
def absorbAll (i : Instance) (parts : List Bytes) : Instance :=
  { i with state := i.scheme.algorithm.absorbAll i.state parts }

/-- Absorb a value. -/
def feed (i : Instance) (L : Layout) (s : Shape) (x : s.Value) : Instance :=
  { i with state := ValueHashing.feed i.scheme.algorithm L s i.state x }

/-- The result of what was absorbed. -/
def finish (i : Instance) : Bytes := i.scheme.algorithm.finish i.state

/-- The calls on record, if the scheme keeps a record. -/
def calls? (i : Instance) : Option (List Bytes) := i.scheme.calls? i.state

end Instance

/-- What is done to the named instances. -/
inductive Step where
  | start (name : String) (scheme : Scheme) (how : Start)
  | absorb (name : String) (data : Bytes)
  | absorbAll (name : String) (parts : List Bytes)
  | feed (name : String) (layout : Layout) (shape : Shape) (value : shape.Value)
  | copy (name target : String)
  | finish (name : String)
  | project (name : String) (width : Width)
  | check (name : String) (expected : Bytes)

/-- What a step answers. -/
inductive Answer where
  /-- The instance as it is after the step. -/
  | running (i : Instance)
  /-- A new instance and what was reported while it was built. -/
  | started (i : Instance) (trace : List TraceEvent)
  | digest (result : Bytes)
  | value (n : Nat)
  | checked (outcome : Except TagError Unit)
  /-- No instance has the name. -/
  | unknown

/-- Running instances by name. -/
structure Session where
  instances : List (String × Instance)

namespace Session

/-- No instance is running. -/
def empty : Session := ⟨[]⟩

/-- The instance of a name. -/
def get? (s : Session) (name : String) : Option Instance := s.instances.lookup name

/-- Forget the instance of a name. -/
def erase (s : Session) (name : String) : Session :=
  ⟨s.instances.filter fun p => p.1 ≠ name⟩

/-- Keep an instance under a name, in place of any other. -/
def insert (s : Session) (name : String) (i : Instance) : Session :=
  ⟨(name, i) :: (s.erase name).instances⟩

/-- Replace the instance of a name by what becomes of it. -/
def advance (s : Session) (name : String) (change : Instance → Instance) :
    Session × Answer :=
  match s.get? name with
  | none => (s, .unknown)
  | some i => (s.insert name (change i), .running (change i))

/-- Read the result of an instance, which is gone afterwards. -/
def finish (s : Session) (name : String) (read : Bytes → Answer) : Session × Answer :=
  match s.get? name with
  | none => (s, .unknown)
  | some i => (s.erase name, read i.finish)

/-- Carry out one step. -/
def step (s : Session) : Step → Session × Answer
  | .start name scheme how =>
      let started := Instance.start scheme how
      (s.insert name started.value, .started started.value started.trace)
  | .absorb name data => s.advance name (·.absorb data)
  | .absorbAll name parts => s.advance name (·.absorbAll parts)
  | .feed name layout shape value => s.advance name (·.feed layout shape value)
  | .copy name target =>
      match s.get? name with
      | none => (s, .unknown)
      | some i => (s.insert target i, .running i)
  | .finish name => s.finish name .digest
  | .project name width => s.finish name fun r => .value (ValueHashing.project width r).toNat
  | .check name expected => s.finish name fun r => .checked (checkTag r expected)

/-- Carry out steps in order, and collect the answers. -/
def run (s : Session) : List Step → Session × List Answer
  | [] => (s, [])
  | step :: steps =>
      let (s, answer) := s.step step
      let (s, answers) := s.run steps
      (s, answer :: answers)

end Session

end ValueHashing
