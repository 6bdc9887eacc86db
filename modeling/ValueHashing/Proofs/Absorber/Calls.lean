import ValueHashing.Proofs.Absorber.Invariant

/-!
# Which blocks are compressed

`Compression.recorded C` compresses like `C` and keeps a record of its calls. Absorbers never
look into the words of a chaining state, so running one with `C.recorded` shows the calls that
it makes with `C`: after a message they are those on its whole blocks, each once and in order
(`chain_recorded`).
-/

namespace ValueHashing.Compression

variable {W : Type} (C : Compression W)

/-- A call of a compression: the chaining state and the block that it is given. -/
abbrev Call : Type := Vector W 8 × Vector UInt8 C.blockSize

/-- The calls that compress blocks one after the other. -/
def calls : Vector W 8 → List (Vector UInt8 C.blockSize) → List C.Call
  | _, [] => []
  | state, block :: blocks => (state, block) :: calls (C.compress state block) blocks

@[simp] theorem map_snd_calls (state : Vector W 8) (blocks : List (Vector UInt8 C.blockSize)) :
    (C.calls state blocks).map Prod.snd = blocks := by
  induction blocks generalizing state with
  | nil => rfl
  | cons block blocks ih => rw [calls, List.map_cons, ih]

@[simp] theorem length_calls (state : Vector W 8) (blocks : List (Vector UInt8 C.blockSize)) :
    (C.calls state blocks).length = blocks.length := by
  have hblocks := congrArg List.length (C.map_snd_calls state blocks)
  rwa [List.length_map] at hblocks

/-- A chaining state each of whose words carries a record of calls. -/
def withRecord (state : Vector W 8) (record : List C.Call) : Vector (W × List C.Call) 8 :=
  state.map fun w => (w, record)

/-- The record that the words of a chaining state carry. -/
def recordOf (state : Vector (W × List C.Call) 8) : List C.Call :=
  (state.map Prod.snd).toList.headD []

theorem recordOf_withRecord (state : Vector W 8) (record : List C.Call) :
    C.recordOf (C.withRecord state record) = record := by
  have hsame : (C.withRecord state record).map Prod.snd = Vector.replicate 8 record := by
    simp [withRecord, Vector.map_map, Function.comp_def, Vector.map_const']
  rw [recordOf, hsame]
  rfl

/-- `C` with a record of its calls, oldest first. -/
@[reducible]
def recorded : Compression (W × List C.Call) where
  blockSize := C.blockSize
  lengthSize := C.lengthSize
  compress state block :=
    let plain := state.map Prod.fst
    let record := (state.map Prod.snd).toList.headD []
    C.withRecord (C.compress plain block) (record ++ [(plain, block)])
  lengthSize_pos := C.lengthSize_pos
  lengthSize_le := C.lengthSize_le
  lengthSize_lt := C.lengthSize_lt

theorem recorded_compress (state : Vector W 8) (record : List C.Call)
    (block : Vector UInt8 C.blockSize) :
    C.recorded.compress (C.withRecord state record) block =
      C.withRecord (C.compress state block) (record ++ [(state, block)]) := by
  have hplain : (C.withRecord state record).map Prod.fst = state := by
    simp [withRecord, Vector.map_map, Function.comp_def]
  have hrecord : ((C.withRecord state record).map Prod.snd).toList.headD [] = record :=
    C.recordOf_withRecord state record
  simp only [hplain, hrecord]

/-- The record grows by the calls on the blocks, and the words are those without a record. -/
theorem foldl_recorded_compress (state : Vector W 8) (record : List C.Call)
    (blocks : List (Vector UInt8 C.blockSize)) :
    blocks.foldl C.recorded.compress (C.withRecord state record) =
      C.withRecord (blocks.foldl C.compress state) (record ++ C.calls state blocks) := by
  induction blocks generalizing state record with
  | nil => simp [calls]
  | cons block blocks ih =>
      rw [List.foldl_cons, recorded_compress, ih, calls, List.foldl_cons, List.append_assoc,
        List.singleton_append]

theorem chain_recorded (initial : Vector W 8) (message : Bytes) :
    C.recorded.chain (C.withRecord initial []) message =
      C.withRecord (C.chain initial message)
        (C.calls initial (messageBlocks C.blockSize message)) :=
  C.foldl_recorded_compress initial [] (messageBlocks C.blockSize message)

end ValueHashing.Compression
