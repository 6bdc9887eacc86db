/-!
# Trace events

Building a keyed instance reports what it does with the key. `Logged` is a result
together with the events reported on the way to it, oldest first. It is the result of
whatever may report: of the ways to start, and in the module `Reporting` of every operation.
-/

namespace ValueHashing

/-- What is reported while key material is absorbed. -/
inductive TraceEvent where
  /-- A plain algorithm derives its initial state from a key of `keySize` bytes. -/
  | keyedStart (algorithm : String) (keySize : Nat)
  /-- A key longer than the block of the wrapped algorithm is replaced by its digest. -/
  | longKey (keySize blockSize : Nat)
deriving DecidableEq, Repr

namespace TraceEvent

/-- The component that reports the event. -/
def target : TraceEvent → String
  | keyedStart .. => "hashes::sha2"
  | longKey .. => "hashes::hmac"

/-- Every event is reported at the finest level. -/
def level (_ : TraceEvent) : String := "TRACE"

/-- The text of the record. -/
def message : TraceEvent → String
  | keyedStart algorithm keySize =>
      algorithm ++ ": deriving initial state from " ++ toString keySize ++ "-byte key"
  | longKey keySize blockSize =>
      "key of " ++ toString keySize ++ " bytes exceeds the " ++ toString blockSize ++
        "-byte block; hashing it first"

end TraceEvent

/-- A value and the events reported while it was computed. -/
structure Logged (α : Type) where
  value : α
  trace : List TraceEvent

namespace Logged

variable {α β : Type}

/-- Report one event. -/
def report (event : TraceEvent) : Logged Unit := ⟨(), [event]⟩

/-- Also give what is reported as a part of the value. -/
def listen (x : Logged α) : Logged (α × List TraceEvent) := ⟨(x.value, x.trace), x.trace⟩

instance : Monad Logged where
  pure a := ⟨a, []⟩
  bind x f := ⟨(f x.value).value, x.trace ++ (f x.value).trace⟩

@[simp] theorem value_pure (a : α) : (pure a : Logged α).value = a := rfl

@[simp] theorem trace_pure (a : α) : (pure a : Logged α).trace = [] := rfl

@[simp] theorem value_bind (x : Logged α) (f : α → Logged β) :
    (x >>= f).value = (f x.value).value := rfl

@[simp] theorem trace_bind (x : Logged α) (f : α → Logged β) :
    (x >>= f).trace = x.trace ++ (f x.value).trace := rfl

@[simp] theorem value_map (f : α → β) (x : Logged α) : (f <$> x).value = f x.value := rfl

@[simp] theorem trace_map (f : α → β) (x : Logged α) : (f <$> x).trace = x.trace := by
  change x.trace ++ [] = x.trace
  simp

@[simp] theorem trace_report (event : TraceEvent) : (report event).trace = [event] := rfl

instance : LawfulMonad Logged :=
  LawfulMonad.mk' Logged
    (fun x => by cases x; simp [Functor.map])
    (fun _ _ => rfl)
    (fun x f g => by simp [Bind.bind, List.append_assoc])

end Logged

end ValueHashing
