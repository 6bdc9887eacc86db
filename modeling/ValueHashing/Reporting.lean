import ValueHashing.Session

/-!
# Operations with what they report

In `StreamingHash` only the ways to start may report. Here every operation may: each is a
computation that carries along what the operations it runs report, down to the compression of
a block. Two report something themselves, a variant of SHA-2 that starts from a key
(`Sha2.Parameters.startKeyedLogged`) and the keyed construction that shortens a key
(`Hmac.keyBlockLogged`).

`Reporting H` holds the operations of an algorithm `H` in this form. Feeding a value,
comparing a tag and the steps of a session use nothing else of an algorithm.
-/

namespace ValueHashing

/-- The ways to start, as one function. -/
def StreamingHash.start (H : StreamingHash) : Start → Logged H.State
  | .fresh => H.fresh
  | .default => H.default
  | .seeded seed => H.seeded seed
  | .keyed key => H.keyed key

/-- The operations of an algorithm, each with what it reports. -/
structure Reporting (H : StreamingHash) where
  start : Start → Logged H.State
  absorb : H.State → Bytes → Logged H.State
  finish : H.State → Logged Bytes

/-! ## Absorbers -/

/-- Mix one block into the chaining state. -/
def Compression.compressLogged {W : Type} (C : Compression W) (state : Vector W 8)
    (block : Vector UInt8 C.blockSize) : Logged (Vector W 8) :=
  return C.compress state block

namespace Absorber

variable {W : Type} {C : Compression W}

/-- `absorbBlocks`, block by block. -/
def absorbBlocksLogged (a : Absorber C) (data : Bytes) : Logged (Absorber C) := do
  let count := data.length / C.blockSize
  let rest := data.drop (count * C.blockSize)
  let state ← (pieces C.blockSize count data).foldlM
    (fun state piece => C.compressLogged state (blockOf C.blockSize piece)) a.state
  if rest.isEmpty then return { a with state }
  else return { a with state, block := writeAt a.block 0 rest, pending := rest.length }

/-- `absorb`, with the compression of a filled block and of the blocks after it. -/
def absorbLogged (a : Absorber C) (data : Bytes) : Logged (Absorber C) :=
  if data.isEmpty then return a
  else
    let a := { a with total := a.total + BitVec.ofNat 128 data.length }
    if a.pending = 0 then a.absorbBlocksLogged data
    else
      let taken := min (C.blockSize - a.pending) data.length
      let block := writeAt a.block a.pending (data.take taken)
      let pending := a.pending + taken
      if pending < C.blockSize then return { a with block, pending }
      else do
        let state ← C.compressLogged a.state block
        { a with state, block, pending := 0 }.absorbBlocksLogged (data.drop taken)

/-- `close`, which absorbs the padding in two parts. -/
def closeLogged (a : Absorber C) : Logged (Absorber C) := do
  let bitLength := Bytes.bigEndian 16 (a.total * 8#128).toNat
  let tail := C.blockSize - C.lengthSize
  let size := if a.pending < tail then tail - a.pending else C.blockSize + tail - a.pending
  let filled ← a.absorbLogged ((0x80 :: Bytes.zeros (C.blockSize - 1)).take size)
  let closed ← filled.absorbLogged (bitLength.drop (16 - C.lengthSize))
  return { closed with block := zeroBlock C.blockSize }

/-- `absorbKey`, which closes the key as a message. -/
def absorbKeyLogged (a : Absorber C) (key : Bytes) : Logged (Absorber C) :=
  if key.isEmpty then return a
  else do
    let first ← a.absorbLogged key
    let closed ← first.closeLogged
    closed.absorbLogged key

/-- `closeInto`, which closes the message. -/
def closeIntoLogged [Word W] (a : Absorber C) (buffer : Bytes) : Logged Bytes := do
  let closed ← a.closeLogged
  return Word.storeAll closed.state.toList buffer

end Absorber

/-! ## Algorithms -/

namespace Sha2

namespace Parameters

variable {W : Type} [Word W] (p : Parameters W)

/-- The start from a key reports a key that has bytes, and absorbs it. -/
def startKeyedLogged (key : Bytes) : Logged (Absorber p.compression) :=
  if key.isEmpty then return Absorber.start p.initial
  else do
    Logged.report (.keyedStart p.name key.length)
    (Absorber.start p.initial).absorbKeyLogged key

/-- A variant of SHA-2. -/
def reporting : Reporting p.algorithm where
  start
    | .fresh | .default => pure (Absorber.start p.initial)
    | .seeded seed =>
        if seed = 0 then pure (Absorber.start p.initial)
        else p.startKeyedLogged (StreamingHash.seedKey seed)
    | .keyed key => p.startKeyedLogged key
  absorb := Absorber.absorbLogged
  finish a := a.closeIntoLogged (Bytes.zeros p.digestSize)

end Parameters

/-- The variants by name. -/
def Variant.reporting : (v : Variant) → Reporting v.algorithm
  | .sha224 => Sha2.sha224.reporting
  | .sha256 => Sha2.sha256.reporting
  | .sha384 => Sha2.sha384.reporting
  | .sha512 => Sha2.sha512.reporting
  | .sha512_224 => Sha2.sha512_224.reporting
  | .sha512_256 => Sha2.sha512_256.reporting

end Sha2

namespace Reporting

/-- An algorithm of which nothing but a start may report. -/
def plain (H : StreamingHash) : Reporting H where
  start := H.start
  absorb h data := pure (H.absorb h data)
  finish h := pure (H.finish h)

variable {H : StreamingHash} (R : Reporting H)

/-- Absorb several byte strings, in order. -/
def absorbAll (h : H.State) (parts : List Bytes) : Logged H.State := parts.foldlM R.absorb h

/-- The result of one byte string. -/
def digest (data : Bytes) : Logged Bytes := do
  let h ← R.start .fresh
  let h ← R.absorb h data
  R.finish h

/-- The result of several byte strings, absorbed in order. -/
def digestAll (parts : List Bytes) : Logged Bytes := do
  let h ← R.start .fresh
  let h ← R.absorbAll h parts
  R.finish h

end Reporting

namespace Hmac

variable {H : StreamingHash} (R : Reporting H)

/-- The key brought to the size of a block. A key that does not fit is reported and hashed. -/
def keyBlockLogged (key : Bytes) : Logged Bytes :=
  let block := (Bytes.zeros bufferSize).take H.blockSize
  if key.length > H.blockSize then do
    Logged.report (.longKey key.length H.blockSize)
    let shortened ← R.digest key
    return Bytes.overwrite shortened block
  else
    return Bytes.overwrite key block

/-- The two instances under a key. -/
def startLogged (key : Bytes) : Logged (Hmac H.State) := do
  let block ← keyBlockLogged R key
  let inner ← R.start .fresh
  let inner ← R.absorb inner (innerBlock block)
  let outer ← R.start .fresh
  let outer ← R.absorb outer (outerBlock block)
  return { inner, outer }

/-- The result of the inner instance, absorbed by the outer one. -/
def finishLogged (s : Hmac H.State) : Logged Bytes := do
  let result ← R.finish s.inner
  let outer ← R.absorb s.outer result
  R.finish outer

/-- The keyed algorithm over another one. -/
def reporting : Reporting (of H) where
  start
    | .fresh | .default => startLogged R []
    | .seeded seed =>
        if seed = 0 then startLogged R [] else startLogged R (StreamingHash.seedKey seed)
    | .keyed key => startLogged R key
  absorb s data := do
    let inner ← R.absorb s.inner data
    return { s with inner }
  finish := finishLogged R

/-- The tag of `data` under `key` in one step. -/
def tagLogged (key data : Bytes) : Logged Bytes := do
  let s ← startLogged R key
  let s ← (reporting R).absorb s data
  (reporting R).finish s

/-- Finish and compare with the expected tag. -/
def checkLogged (s : Hmac H.State) (expected : Bytes) : Logged (Except TagError Unit) := do
  let computed ← finishLogged R s
  return checkTag computed expected

end Hmac

/-- The algorithm of a scheme. -/
def Scheme.reporting : (s : Scheme) → Reporting s.algorithm
  | sha2 variant => variant.reporting
  | fnv blockSize => .plain (Fnv.algorithm blockSize)
  | recorder => .plain (Recording.of (Fnv.algorithm 1)).keyPrefixed
  | hmac inner => Hmac.reporting inner.reporting

/-! ## Values -/

namespace Reporting

variable {H : StreamingHash} (R : Reporting H) (L : Layout)

/-- Feed the length of something. -/
def feedLength (h : H.State) (n : Nat) : Logged H.State := R.absorb h (L.length n)

/-- Feed the flag of a present or of an absent value. -/
def feedFlag (h : H.State) (present : Bool) : Logged H.State := R.absorb h [present.toUInt8]

/-- Stage one piece of a run and feed it. -/
def feedPiece (w : Width) (s : H.State × Bytes) (piece : List (BitVec w.bits)) :
    Logged (H.State × Bytes) := do
  let buffer := Bytes.overwrite (piece.flatMap (L.integer w)) s.2
  let h ← R.absorb s.1 (buffer.take (piece.length * w.size))
  return (h, buffer)

/-- Feed a run of integers through the staging buffer. -/
def feedStaged (w : Width) (h : H.State) (xs : List (BitVec w.bits)) : Logged H.State := do
  let perPiece := stagingSize / w.size
  let count := (xs.length + perPiece - 1) / perPiece
  let s ← (pieces perPiece count xs).foldlM (R.feedPiece L w) (h, Bytes.zeros stagingSize)
  return s.1

/-- Feed contiguous elements. -/
def feedRun : (s : Shape) → (one : H.State → s.Value → Logged H.State) → H.State →
    List s.Value → Logged H.State
  | .int false .w8, _, h, xs => R.absorb h (xs.map UInt8.ofBitVec)
  | .int _ w, _, h, xs => R.feedStaged L w h xs
  | _, one, h, xs => xs.foldlM one h

/-- What one element of an unordered collection contributes. -/
def contribution (h : H.State) : Logged (BitVec 64) := do
  let result ← R.finish h
  return project .w64 result

/-- Feed elements whose order carries no meaning, each to a copy of the state. -/
def feedUnordered {α : Type} (one : H.State → α → Logged H.State) (h : H.State)
    (xs : List α) : Logged H.State := do
  let add (sum : BitVec 64) (x : α) : Logged (BitVec 64) := do
    let copy ← one h x
    let share ← R.contribution copy
    return sum + share
  let sum ← xs.foldlM add 0
  let h ← R.absorb h (L.integer .w64 sum)
  R.feedLength L h xs.length

/-- Feed a value. -/
def feed : (s : Shape) → H.State → s.Value → Logged H.State
  | .int _ w, h, x => R.absorb h (L.integer w x)
  | .machineInt _, h, x => R.absorb h (L.integer .machine x)
  | .bool, h, b => R.absorb h [b.toUInt8]
  | .char, h, c => R.absorb h (L.integer .w32 (BitVec.ofNat 32 c.toNat))
  | .float format, h, x => R.absorb h (L.integer format.width (format.normalize x))
  | .unit, h, _ => return h
  | .text, h, s => do
      let bytes := Bytes.utf8 s
      let h ← R.absorb h bytes
      R.feedLength L h bytes.length
  | .length, h, n => R.feedLength L h n.toNat
  | .pair first second, h, x => do
      let h ← feed first h x.1
      feed second h x.2
  | .hidden _, h, _ => return h
  | .record fields, h, x => feed fields h x
  | .option _, h, none => R.feedFlag h false
  | .option present, h, some x => do
      let h ← R.feedFlag h true
      feed present h x
  | .indirect _ target, h, x => feed target h x
  | .array _ element, h, x => R.feedRun L element (feed element) h x.toList
  | .collection kind element, h, xs =>
      match kind.discipline with
      | .contiguous counted => do
          let h ← R.feedRun L element (feed element) h xs
          if counted then R.feedLength L h xs.length else return h
      | .successive counted => do
          let h ← xs.foldlM (feed element) h
          if counted then R.feedLength L h xs.length else return h
      | .unordered => R.feedUnordered L (feed element) h xs

end Reporting

/-! ## Sessions -/

namespace Instance

/-- Start an instance of a scheme. -/
def startLogged (scheme : Scheme) (how : Start) : Logged Instance :=
  Instance.mk scheme <$> scheme.reporting.start how

/-- Go on with the state that an operation leaves. -/
def advanceLogged (i : Instance)
    (change : Reporting i.scheme.algorithm → i.scheme.algorithm.State →
      Logged i.scheme.algorithm.State) : Logged Instance :=
  Instance.mk i.scheme <$> change i.scheme.reporting i.state

/-- The result of what was absorbed. -/
def finishLogged (i : Instance) : Logged Bytes := i.scheme.reporting.finish i.state

end Instance

namespace Session

/-- Replace the instance of a name by what becomes of it. -/
def advanceLogged (s : Session) (name : String) (change : Instance → Logged Instance) :
    Logged (Session × Answer) :=
  match s.get? name with
  | none => return (s, .unknown)
  | some i => do
      let i ← change i
      return (s.insert name i, .running i)

/-- Read the result of an instance, which is gone afterwards. -/
def finishLogged (s : Session) (name : String) (read : Bytes → Answer) :
    Logged (Session × Answer) :=
  match s.get? name with
  | none => return (s, .unknown)
  | some i => do
      let result ← i.finishLogged
      return (s.erase name, read result)

/-- Carry out one step. What a start reports is also a part of its answer. -/
def stepLogged (s : Session) : Step → Logged (Session × Answer)
  | .start name scheme how => do
      let (i, trace) ← (Instance.startLogged scheme how).listen
      return (s.insert name i, .started i trace)
  | .absorb name data => s.advanceLogged name fun i => i.advanceLogged fun R h => R.absorb h data
  | .absorbAll name parts =>
      s.advanceLogged name fun i => i.advanceLogged fun R h => R.absorbAll h parts
  | .feed name layout shape value =>
      s.advanceLogged name fun i => i.advanceLogged fun R h => R.feed layout shape h value
  | .copy name target =>
      match s.get? name with
      | none => return (s, .unknown)
      | some i => return (s.insert target i, .running i)
  | .finish name => s.finishLogged name .digest
  | .project name width =>
      s.finishLogged name fun r => .value (ValueHashing.project width r).toNat
  | .check name expected => s.finishLogged name fun r => .checked (checkTag r expected)

/-- Carry out steps in order, and collect the answers. -/
def runLogged (s : Session) : List Step → Logged (Session × List Answer)
  | [] => return (s, [])
  | step :: steps => do
      let (s, answer) ← s.stepLogged step
      let (s, answers) ← s.runLogged steps
      return (s, answer :: answers)

end Session

end ValueHashing
