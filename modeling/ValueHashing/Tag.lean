import ValueHashing.Bytes

/-!
# Comparing tags

A computed tag is compared with an expected one by looking at every byte, whatever bytes
came before. The refusal says nothing about where or how the tags differ.
-/

namespace ValueHashing

/-- Why a tag is refused. -/
inductive TagError where
  /-- The computed tag is not the expected one. -/
  | mismatch
deriving DecidableEq, Repr

/-- The text of the error. -/
def TagError.message : TagError → String
  | mismatch => "verification failed"

/-- The bits in which two byte strings of one length differ, gathered in one byte. -/
def differences (xs ys : Bytes) : UInt8 :=
  (xs.zip ys).foldl (fun found p => found ||| (p.1 ^^^ p.2)) 0

/-- Accept the computed tag if it is the expected one. Tags of different lengths never
match. -/
def checkTag (computed expected : Bytes) : Except TagError Unit :=
  if computed.length ≠ expected.length then throw .mismatch
  else if differences computed expected = 0 then pure ()
  else throw .mismatch

end ValueHashing
