import Mathlib.Data.List.Basic
import ValueHashing.Proofs.Absorber.Calls

/-!
# Collisions of messages are collisions of the compression

When two different messages close with the same chaining state, the compression was called on
two different inputs with the same output (`Compression.collide_of_closed_eq`). Two things carry
this. The padding ends with the length of the message, and the length field lies within the last
block, so messages of different lengths end with different blocks. Messages of one length have
equally many blocks, and two equally long runs of the compression that end alike but are not the
same run collide somewhere (`Compression.collide_of_foldl_eq`).

## Implementation notes

The calls are those that the runs make: `closingCalls` reads them off the record that
`Compression.recorded` keeps.
-/

namespace ValueHashing

theorem messageBlocks_append_block {size : Nat} (hs : 0 < size) {front last : Bytes}
    (hfront : size ∣ front.length) (hlast : last.length = size) :
    messageBlocks size (front ++ last) =
      messageBlocks size front ++ [messageBlock size last 0] := by
  rw [messageBlocks_append hs, leftover_eq_nil hfront, List.nil_append,
    messageBlocks_of_length_eq hs hlast]

/-- The blocks of a message and what is left over make up the message. -/
theorem flatMap_messageBlocks_append_leftover {size : Nat} (hs : 0 < size) (message : Bytes) :
    (messageBlocks size message).flatMap Vector.toList ++ leftover size message = message := by
  induction message using block_induction hs with
  | short message hlt => simp [messageBlocks_of_length_lt hlt, leftover_of_length_lt hlt]
  | block message hle ih =>
      rw [leftover_drop hs hle] at ih
      rw [messageBlocks_eq_cons hs hle, List.flatMap_cons, toList_messageBlock_zero hle,
        List.append_assoc, ih, List.take_append_drop]

/-- The last block of a message of whole blocks. -/
theorem getLast?_messageBlocks {size : Nat} (hs : 0 < size) {message : Bytes}
    (hdvd : size ∣ message.length) (hne : message ≠ []) :
    (messageBlocks size message).getLast?.map Vector.toList =
      some (message.drop (message.length - size)) := by
  have hle : size ≤ message.length := Nat.le_of_dvd (List.length_pos_iff.mpr hne) hdvd
  have hfront : size ∣ (message.take (message.length - size)).length := by
    rw [List.length_take, Nat.min_eq_left (Nat.sub_le _ _)]
    exact Nat.dvd_sub hdvd (Nat.dvd_refl size)
  have hlast : (message.drop (message.length - size)).length = size := by
    rw [List.length_drop]
    omega
  have hblocks := messageBlocks_append_block hs hfront hlast
  rw [List.take_append_drop] at hblocks
  rw [hblocks, List.getLast?_concat, Option.map_some,
    toList_messageBlock_zero (Nat.le_of_eq hlast.symm), List.take_of_length_le (Nat.le_of_eq hlast)]

/-- A message with its padding ends with the length field. -/
theorem drop_append_padding (blockSize lengthSize : Nat) (message : Bytes) (n : Nat) :
    let padded := message ++ padding blockSize lengthSize n
    padded.drop (padded.length - lengthSize) = Bytes.bigEndian lengthSize (8 * n) := by
  intro padded
  have hpadded : padded =
      (message ++ 0x80 :: Bytes.zeros (zeroCount blockSize lengthSize n)) ++
        Bytes.bigEndian lengthSize (8 * n) := by
    simp [padded, padding]
  rw [hpadded, List.length_append, Bytes.length_bigEndian, Nat.add_sub_cancel, List.drop_left]

namespace Compression

variable {W : Type} (C : Compression W)

/-- The blocks of a message together with its padding. -/
def paddedBlocks (message : Bytes) : List (Vector UInt8 C.blockSize) :=
  messageBlocks C.blockSize (message ++ padding C.blockSize C.lengthSize message.length)

/-- The length of a message in bits fits into the length field. -/
def LengthFits (message : Bytes) : Prop := 8 * message.length < 2 ^ (8 * C.lengthSize)

variable {C}

theorem dvd_length_padded (message : Bytes) :
    C.blockSize ∣ (message ++ padding C.blockSize C.lengthSize message.length).length := by
  rw [List.length_append]
  exact dvd_add_length_padding _ _ C.blockSize_pos

theorem paddedBlocks_ne_nil (message : Bytes) : C.paddedBlocks message ≠ [] := by
  have hdvd := C.dvd_length_padded message
  rw [← List.length_pos_iff, paddedBlocks, length_messageBlocks]
  refine Nat.div_pos ?_ C.blockSize_pos
  refine Nat.le_of_dvd ?_ hdvd
  rw [List.length_append, length_padding]
  omega

/-- The last block of a padded message ends with the length field. -/
theorem drop_getLast?_paddedBlocks (message : Bytes) :
    (C.paddedBlocks message).getLast?.map
        (fun block => block.toList.drop (C.blockSize - C.lengthSize)) =
      some (Bytes.bigEndian C.lengthSize (8 * message.length)) := by
  have hdvd := C.dvd_length_padded message
  have hfield := drop_append_padding C.blockSize C.lengthSize message message.length
  have hne : message ++ padding C.blockSize C.lengthSize message.length ≠ [] := by
    simp [padding]
  rw [paddedBlocks]
  generalize message ++ padding C.blockSize C.lengthSize message.length = padded at *
  have hle : C.blockSize ≤ padded.length := Nat.le_of_dvd (List.length_pos_iff.mpr hne) hdvd
  have hsize : padded.length - C.blockSize + (C.blockSize - C.lengthSize) =
      padded.length - C.lengthSize := by
    have := C.lengthSize_lt
    omega
  have hlast := congrArg (Option.map (List.drop (C.blockSize - C.lengthSize)))
    (getLast?_messageBlocks C.blockSize_pos hdvd hne)
  rw [Option.map_map, Option.map_some, List.drop_drop, hsize] at hlast
  rw [← hfield, ← hlast]
  rfl

/-- Messages of different lengths differ in the last block of their padding. -/
theorem getLast?_paddedBlocks_ne {m₁ m₂ : Bytes} (h₁ : C.LengthFits m₁) (h₂ : C.LengthFits m₂)
    (hne : m₁.length ≠ m₂.length) :
    (C.paddedBlocks m₁).getLast? ≠ (C.paddedBlocks m₂).getLast? := by
  intro heq
  have hfields := C.drop_getLast?_paddedBlocks m₁
  rw [heq, C.drop_getLast?_paddedBlocks m₂, Option.some.injEq] at hfields
  rw [LengthFits, Nat.pow_mul] at h₁ h₂
  have hlength := (Bytes.bigEndian_inj h₂ h₁).mp hfields
  omega

/-- Different messages differ in their padded blocks. -/
theorem paddedBlocks_ne {m₁ m₂ : Bytes} (h₁ : C.LengthFits m₁) (h₂ : C.LengthFits m₂)
    (hne : m₁ ≠ m₂) : C.paddedBlocks m₁ ≠ C.paddedBlocks m₂ := by
  intro heq
  by_cases hlength : m₁.length = m₂.length
  · have hwhole (m : Bytes) : (C.paddedBlocks m).flatMap Vector.toList =
        m ++ padding C.blockSize C.lengthSize m.length := by
      have h := flatMap_messageBlocks_append_leftover C.blockSize_pos
        (m ++ padding C.blockSize C.lengthSize m.length)
      rwa [leftover_eq_nil (C.dvd_length_padded m), List.append_nil] at h
    have hpadded := hwhole m₁
    rw [heq, hwhole m₂] at hpadded
    exact hne (List.append_inj_left hpadded.symm hlength)
  · exact getLast?_paddedBlocks_ne h₁ h₂ hlength (congrArg List.getLast? heq)

variable (C)

/-- Some call of the first list and some call of the second differ and have one output. -/
def Collide (xs ys : List C.Call) : Prop :=
  ∃ x ∈ xs, ∃ y ∈ ys, x ≠ y ∧ C.compress x.1 x.2 = C.compress y.1 y.2

theorem calls_append (state : Vector W 8) (xs ys : List (Vector UInt8 C.blockSize)) :
    C.calls state (xs ++ ys) = C.calls state xs ++ C.calls (xs.foldl C.compress state) ys := by
  induction xs generalizing state with
  | nil => rfl
  | cons x xs ih => rw [List.cons_append, calls, calls, ih, List.foldl_cons, List.cons_append]

variable {C}

/-- Two runs over equally many blocks that end alike and are not the same collide. -/
theorem collide_of_foldl_eq {s t : Vector W 8} {xs ys : List (Vector UInt8 C.blockSize)}
    (hlength : xs.length = ys.length) (hne : (s, xs) ≠ (t, ys))
    (heq : xs.foldl C.compress s = ys.foldl C.compress t) :
    C.Collide (C.calls s xs) (C.calls t ys) := by
  induction xs generalizing s t ys with
  | nil =>
      obtain rfl := List.length_eq_zero_iff.mp hlength.symm
      exact absurd (congrArg (·, []) heq) hne
  | cons x xs ih =>
      obtain ⟨y, ys, rfl⟩ := List.exists_cons_of_length_eq_add_one hlength.symm
      rw [List.length_cons, List.length_cons, Nat.add_right_cancel_iff] at hlength
      by_cases hrest : (C.compress s x, xs) = (C.compress t y, ys)
      · -- The runs go on alike, so they differ in the calls that they begin with.
        obtain ⟨houtput, rfl⟩ := Prod.mk.inj hrest
        refine ⟨(s, x), List.mem_cons_self, (t, y), List.mem_cons_self, ?_, houtput⟩
        intro hcall
        obtain ⟨rfl, rfl⟩ := Prod.mk.inj hcall
        exact hne rfl
      · obtain ⟨c, hc, d, hd, hcollide⟩ := ih hlength hrest heq
        exact ⟨c, List.mem_cons_of_mem _ hc, d, List.mem_cons_of_mem _ hd, hcollide⟩

/-- Two runs that end alike but with different blocks collide in their last calls. -/
theorem collide_of_getLast?_ne {s t : Vector W 8} {xs ys : List (Vector UInt8 C.blockSize)}
    (hxs : xs ≠ []) (hys : ys ≠ []) (hne : xs.getLast? ≠ ys.getLast?)
    (heq : xs.foldl C.compress s = ys.foldl C.compress t) :
    C.Collide (C.calls s xs) (C.calls t ys) := by
  obtain ⟨front, x, rfl⟩ := (List.eq_nil_or_concat' xs).resolve_left hxs
  obtain ⟨front', y, rfl⟩ := (List.eq_nil_or_concat' ys).resolve_left hys
  rw [List.getLast?_concat, List.getLast?_concat] at hne
  rw [List.foldl_append, List.foldl_append] at heq
  refine ⟨(front.foldl C.compress s, x), ?_, (front'.foldl C.compress t, y), ?_, ?_, heq⟩
  · simp [calls_append, calls]
  · simp [calls_append, calls]
  · intro hcall
    exact hne (congrArg some (congrArg Prod.snd hcall))

/-- Padded messages that differ and lead to one chaining state collide. -/
theorem collide_of_chain_eq {s t : Vector W 8} {m₁ m₂ : Bytes} (h₁ : C.LengthFits m₁)
    (h₂ : C.LengthFits m₂) (hne : m₁ ≠ m₂)
    (heq : (C.paddedBlocks m₁).foldl C.compress s = (C.paddedBlocks m₂).foldl C.compress t) :
    C.Collide (C.calls s (C.paddedBlocks m₁)) (C.calls t (C.paddedBlocks m₂)) := by
  by_cases hlength : m₁.length = m₂.length
  · have hcount : (C.paddedBlocks m₁).length = (C.paddedBlocks m₂).length := by
      simp only [paddedBlocks, length_messageBlocks, List.length_append, hlength]
    apply collide_of_foldl_eq hcount _ heq
    intro hruns
    exact paddedBlocks_ne h₁ h₂ hne (congrArg Prod.snd hruns)
  · exact collide_of_getLast?_ne (paddedBlocks_ne_nil m₁) (paddedBlocks_ne_nil m₂)
      (getLast?_paddedBlocks_ne h₁ h₂ hlength) heq

variable (C)

/-- What an absorber becomes that takes in pieces from the start and is closed. -/
def closed (initial : Vector W 8) (chunks : List Bytes) : Absorber C :=
  (chunks.foldl Absorber.absorb (Absorber.start initial)).close

/-- The calls of the compression that are made on the way to `closed`. -/
def closingCalls (initial : Vector W 8) (chunks : List Bytes) : List C.Call :=
  C.recordOf (C.recorded.closed (C.withRecord initial []) chunks).state

theorem tracks_closed (initial : Vector W 8) (chunks : List Bytes) :
    Absorber.Tracks initial (C.closed initial chunks)
      (chunks.flatten ++ padding C.blockSize C.lengthSize chunks.flatten.length) :=
  ((Absorber.Tracks.start initial).absorbAll chunks).close

/-- However a message is cut into pieces, the calls are those on its padded blocks. -/
theorem closingCalls_eq (initial : Vector W 8) (chunks : List Bytes) :
    C.closingCalls initial chunks = C.calls initial (C.paddedBlocks chunks.flatten) := by
  rw [closingCalls, (C.recorded.tracks_closed (C.withRecord initial []) chunks).state,
    chain_recorded, recordOf_withRecord, paddedBlocks]

theorem state_closed (initial : Vector W 8) (chunks : List Bytes) :
    (C.closed initial chunks).state = (C.paddedBlocks chunks.flatten).foldl C.compress initial :=
  (C.tracks_closed initial chunks).state

variable {C}

/-- Different messages that close with one chaining state collide. -/
theorem collide_of_closed_eq {initial : Vector W 8} {chunks₁ chunks₂ : List Bytes}
    (h₁ : C.LengthFits chunks₁.flatten) (h₂ : C.LengthFits chunks₂.flatten)
    (hne : chunks₁.flatten ≠ chunks₂.flatten)
    (heq : (C.closed initial chunks₁).state = (C.closed initial chunks₂).state) :
    C.Collide (C.closingCalls initial chunks₁) (C.closingCalls initial chunks₂) := by
  rw [state_closed, state_closed] at heq
  rw [closingCalls_eq, closingCalls_eq]
  exact collide_of_chain_eq h₁ h₂ hne heq

end Compression

end ValueHashing
