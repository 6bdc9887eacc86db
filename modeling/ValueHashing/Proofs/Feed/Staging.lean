import ValueHashing.Proofs.Feed.Calls

/-!
# Full staging buffers

A run of integers goes through a buffer of 256 bytes. What is fed are the bytes of the elements, one
after the other, cut into pieces of 256 bytes (`stagedCalls_eq_pieces`): every call but the last is
a full buffer (`length_of_mem_dropLast_pieces`), and the last has what remains
(`length_of_mem_getLast?_pieces`). What an earlier piece left in the buffer does not show
(`feedRun_calls_full`).
-/

namespace ValueHashing

/-! ## Pieces of a list -/

variable {α : Type} {size : Nat} {xs piece : List α}

theorem pieces_concat (size count : Nat) (xs : List α) :
    pieces size (count + 1) xs =
      pieces size count xs ++ [(xs.drop (count * size)).take size] := by
  induction count generalizing xs with
  | zero => simp [pieces]
  | succ count ih =>
      rw [pieces, ih, pieces, List.cons_append, List.drop_drop, Nat.succ_mul, Nat.add_comm size]

/-- As many pieces as the list fills are full. -/
theorem length_of_mem_pieces {count : Nat} (hle : count * size ≤ xs.length)
    (h : piece ∈ pieces size count xs) : piece.length = size := by
  induction count generalizing xs with
  | zero => cases h
  | succ count ih =>
      rw [Nat.succ_mul] at hle
      rw [pieces, List.mem_cons] at h
      rcases h with rfl | h
      · exact List.length_take_of_le (by omega)
      · refine ih ?_ h
        rw [List.length_drop]
        omega

/-- The number of pieces that a list of `n > 0` elements is cut into, one by one. -/
theorem exists_count_eq_succ (hs : 0 < size) {n : Nat} (hn : 0 < n) :
    ∃ count, (n + size - 1) / size = count + 1 ∧ count * size < n ∧ n ≤ (count + 1) * size := by
  refine ⟨(n - 1) / size, ?_, ?_, ?_⟩
  · have hsum : n + size - 1 = n - 1 + size := by omega
    rw [hsum, Nat.add_div_right _ hs]
  · have hle := Nat.div_mul_le_self (n - 1) size
    omega
  · have hlt := Nat.lt_mul_div_succ (n - 1) hs
    rw [Nat.mul_comm] at hlt
    omega

/-- Cut to the end, a list has full pieces only, up to the last. -/
theorem length_of_mem_dropLast_pieces (hs : 0 < size)
    (h : piece ∈ (pieces size ((xs.length + size - 1) / size) xs).dropLast) :
    piece.length = size := by
  rcases Nat.eq_zero_or_pos xs.length with hzero | hpos
  · rw [hzero, Nat.zero_add, Nat.div_eq_of_lt (Nat.sub_lt hs Nat.one_pos)] at h
    cases h
  · obtain ⟨count, hcount, hlt, -⟩ := exists_count_eq_succ hs hpos
    rw [hcount, pieces_concat, List.dropLast_concat] at h
    exact length_of_mem_pieces (Nat.le_of_lt hlt) h

/-- The last piece has what the others leave. -/
theorem length_of_mem_getLast?_pieces (hs : 0 < size)
    (h : piece ∈ (pieces size ((xs.length + size - 1) / size) xs).getLast?) :
    piece.length = xs.length - size * ((xs.length + size - 1) / size - 1) ∧
      1 ≤ piece.length ∧ piece.length ≤ size := by
  rcases Nat.eq_zero_or_pos xs.length with hzero | hpos
  · rw [hzero, Nat.zero_add, Nat.div_eq_of_lt (Nat.sub_lt hs Nat.one_pos)] at h
    cases h
  · obtain ⟨count, hcount, hlt, hle⟩ := exists_count_eq_succ hs hpos
    rw [hcount, pieces_concat, List.getLast?_concat, Option.mem_some_iff] at h
    subst h
    rw [Nat.succ_mul] at hle
    rw [hcount, Nat.add_sub_cancel, Nat.mul_comm size, List.length_take, List.length_drop]
    omega

/-- Among elements of `k` bytes each, a cut between elements is a cut between their bytes. -/
theorem take_drop_flatMap {e : α → Bytes} {k : Nat} (he : ∀ x, (e x).length = k) (size : Nat)
    (xs : List α) :
    (xs.flatMap e).take (size * k) = (xs.take size).flatMap e ∧
      (xs.flatMap e).drop (size * k) = (xs.drop size).flatMap e := by
  have hlength (ys : List α) : (ys.flatMap e).length = ys.length * k := by
    simp [List.length_flatMap, he]
  by_cases hle : size ≤ xs.length
  · have hsplit : xs.flatMap e = (xs.take size).flatMap e ++ (xs.drop size).flatMap e := by
      rw [← List.flatMap_append, List.take_append_drop]
    have hfront : ((xs.take size).flatMap e).length = size * k := by
      rw [hlength, List.length_take_of_le hle]
    rw [hsplit]
    exact ⟨List.take_left' hfront, List.drop_left' hfront⟩
  · have hshort : xs.length ≤ size := Nat.le_of_not_le hle
    have hall : (xs.flatMap e).length ≤ size * k := by
      rw [hlength]
      exact Nat.mul_le_mul_right k hshort
    rw [List.take_of_length_le hall, List.drop_of_length_le hall, List.take_of_length_le hshort,
      List.drop_of_length_le hshort]
    exact ⟨rfl, rfl⟩

theorem map_flatMap_pieces {e : α → Bytes} {k : Nat} (he : ∀ x, (e x).length = k)
    (size count : Nat) (xs : List α) :
    (pieces size count xs).map (·.flatMap e) = pieces (size * k) count (xs.flatMap e) := by
  induction count generalizing xs with
  | zero => rfl
  | succ count ih =>
      obtain ⟨htake, hdrop⟩ := take_drop_flatMap he size xs
      rw [pieces, pieces, List.map_cons, ih, htake, hdrop]

/-! ## Runs of integers -/

variable (L : Layout) (H : StreamingHash)

/-- Integers of every width fill the staging buffer, so that elements and bytes are cut into equally
many pieces. -/
theorem Width.count_pieces (w : Width) (n : Nat) :
    stagingSize / w.size * w.size = stagingSize ∧
      (n + stagingSize / w.size - 1) / (stagingSize / w.size) =
        (n * w.size + stagingSize - 1) / stagingSize := by
  cases w with
  | w8 | w16 | w32 | w64 | w128 =>
      refine ⟨rfl, ?_⟩
      simp only [stagingSize, size, Nat.reduceDiv]
      omega

/-- The calls of a run are the bytes of its elements, cut into full buffers. -/
theorem stagedCalls_eq_pieces (w : Width) (xs : List (BitVec w.bits)) :
    stagedCalls L w xs =
      pieces stagingSize (((xs.flatMap (L.integer w)).length + stagingSize - 1) / stagingSize)
        (xs.flatMap (L.integer w)) := by
  obtain ⟨hfill, hcount⟩ := w.count_pieces xs.length
  rw [stagedCalls, map_flatMap_pieces (fun x => L.length_integer w x), hfill, hcount,
    length_flatMap_integer]

/-- There are as many calls as the bytes fill buffers. -/
theorem length_stagedCalls (w : Width) (xs : List (BitVec w.bits)) :
    (stagedCalls L w xs).length = (xs.length * w.size + stagingSize - 1) / stagingSize := by
  rw [stagedCalls_eq_pieces, length_pieces, length_flatMap_integer]

theorem stagedCalls_eq_nil_iff (w : Width) (xs : List (BitVec w.bits)) :
    stagedCalls L w xs = [] ↔ xs = [] := by
  have hsize := w.size_pos
  rw [← List.length_eq_zero_iff, length_stagedCalls, ← List.length_eq_zero_iff,
    Nat.div_eq_zero_iff_lt (by decide)]
  constructor
  · intro hshort
    have hzero : xs.length * w.size = 0 := by
      rw [stagingSize] at hshort
      omega
    exact (Nat.mul_eq_zero.mp hzero).resolve_right (Nat.ne_of_gt hsize)
  · intro hzero
    rw [hzero, Nat.zero_mul]
    decide

/-- Only unsigned bytes are fed without the staging buffer. -/
theorem feedRun_int {signed : Bool} {w : Width} (hw : (signed, w) ≠ (false, .w8))
    (one : H.State → (Shape.int signed w).Value → H.State) (h : H.State)
    (xs : List (BitVec w.bits)) :
    feedRun H L (.int signed w) one h xs = feedStaged H L w h xs := by
  cases signed with
  | true => rfl
  | false =>
      cases w with
      | w8 => exact absurd rfl hw
      | w16 | w32 | w64 | w128 => rfl

/-- Whatever stands in the staging buffer, the rest of a run is fed alike. -/
theorem foldl_feedPiece_buffer (w : Width) {done rest : List (List (BitVec w.bits))} {count : Nat}
    {xs : List (BitVec w.bits)} (hcut : done ++ rest = pieces (stagingSize / w.size) count xs)
    (h : H.State) {buffer : Bytes} (hbuffer : buffer.length = stagingSize) :
    (rest.foldl (feedPiece H L w)
        ((done.foldl (feedPiece H L w) (h, Bytes.zeros stagingSize)).1, buffer)).1 =
      ((done ++ rest).foldl (feedPiece H L w) (h, Bytes.zeros stagingSize)).1 := by
  have hfits : ∀ piece ∈ done ++ rest, piece.length ≤ stagingSize / w.size := by
    rw [hcut]
    exact fun _ => length_le_of_mem_pieces
  rw [List.forall_mem_append] at hfits
  have hzeros : (Bytes.zeros stagingSize).length = stagingSize := Bytes.length_zeros _
  rw [foldl_feedPiece L H w _ hbuffer hfits.2, foldl_feedPiece L H w h hzeros hfits.1,
    foldl_feedPiece L H w h hzeros (List.forall_mem_append.mpr hfits), List.map_append,
    StreamingHash.absorbAll_append]

/-- A run of `n` integers of any width, unsigned bytes apart, is fed in as many calls as its bytes
fill buffers of 256 bytes, the last of them perhaps in part. All calls but the last are full
buffers, and none is empty. Together they are the bytes that the elements are fed one by one.
Whatever takes the place of the staging buffer between two pieces, the run is fed alike. -/
theorem feedRun_calls_full (L : Layout) {signed : Bool} {w : Width}
    (hw : (signed, w) ≠ (false, .w8)) (xs : List (BitVec w.bits)) :
    ∃ calls : List Bytes,
      calls.length = (xs.length * w.size + 255) / 256 ∧
        (∀ call ∈ calls.dropLast, call.length = 256) ∧
        (∀ call ∈ calls.getLast?,
          call.length = xs.length * w.size - 256 * (calls.length - 1) ∧
            1 ≤ call.length ∧ call.length ≤ 256) ∧
        (calls = [] ↔ xs = []) ∧
        ∀ (H : StreamingHash) (h : H.State),
          let s := Shape.int signed w
          feedRun H L s (feed H L s) h xs = H.absorbAll h calls ∧
            (feedRun (Recording.of H) L s (feed (Recording.of H) L s) (Recording.start h)
              xs).calls.toList = calls ∧
            calls.flatten =
              (xs.foldl (feed (Recording.of H) L s) (Recording.start h)).bytes ∧
            ∀ done rest, done ++ rest = pieces (256 / w.size) calls.length xs →
              ∀ buffer : Bytes, buffer.length = 256 →
                (rest.foldl (feedPiece H L w)
                  ((done.foldl (feedPiece H L w) (h, Bytes.zeros 256)).1, buffer)).1 =
                    feedRun H L s (feed H L s) h xs := by
  have hpos : 0 < stagingSize := by decide
  have hbytes := length_flatMap_integer L w xs
  have hcalls := stagedCalls_eq_pieces L w xs
  have hcount : (stagedCalls L w xs).length = (xs.length * w.size + 255) / 256 :=
    length_stagedCalls L w xs
  refine ⟨stagedCalls L w xs, hcount, ?_, ?_, stagedCalls_eq_nil_iff L w xs, ?_⟩
  · intro call hcall
    rw [hcalls] at hcall
    exact length_of_mem_dropLast_pieces hpos hcall
  · intro call hcall
    have hlast := hcall
    rw [hcalls] at hlast
    have hlength := length_of_mem_getLast?_pieces hpos hlast
    rw [hbytes] at hlength
    rw [hcount]
    exact hlength
  · intro H h s
    have hrun (K : StreamingHash) (k : K.State) :
        feedRun K L s (feed K L s) k xs = K.absorbAll k (stagedCalls L w xs) := by
      rw [feedRun_int L K hw, feedStaged_eq]
    refine ⟨hrun H h, ?_, ?_, ?_⟩
    · have hrecorded := hrun (Recording.of H) (Recording.start h)
      exact (congrArg (fun r => (Recording.calls r).toList) hrecorded).trans
        (Recording.calls_absorbAll H (Recording.start h) _)
    · have hrange : (xs.foldl (feed (Recording.of H) L s) (Recording.start h)).bytes =
          [] ++ (xs.flatMap (encode L s) ++ []) :=
        Recording.bytes_feed L H (s := .collection .range s) rfl (Recording.start h) xs
      have hone : encode L s = L.integer w := funext (encode_int L signed w)
      rw [flatten_stagedCalls, hrange, List.nil_append, List.append_nil, hone]
    · intro done rest hcut buffer hbuffer
      have hpieces : (stagedCalls L w xs).length =
          (xs.length + stagingSize / w.size - 1) / (stagingSize / w.size) := by
        simp [stagedCalls]
      have hrest := foldl_feedPiece_buffer L H w hcut h hbuffer
      rw [hcut, hpieces] at hrest
      rw [feedRun_int L H hw]
      exact hrest

/-- Two-byte integers: 129 of them are fed as a full buffer and the last element, with the staging
buffer as the first piece left it or with other bytes in it. -/
theorem feedRun_calls_full_pairs :
    let L : Layout := .big
    let xs : List (BitVec Width.w16.bits) := List.replicate 129 0x102
    let H := Fnv.algorithm 1
    let h := H.fresh.value
    (true, Width.w16) ≠ (false, .w8) ∧
      ∃ calls : List Bytes, calls.length = 2 ∧
        (∀ call ∈ calls.dropLast, call.length = 256) ∧
        (∀ call ∈ calls.getLast?, call.length = 2) ∧
        (List.replicate 256 (0xff : UInt8)).length = 256 ∧
        feedRun H L (.int true .w16) (feed H L (.int true .w16)) h xs = H.absorbAll h calls ∧
        ([[0x102]].foldl (feedPiece H L .w16)
          (([List.replicate 128 0x102].foldl (feedPiece H L .w16) (h, Bytes.zeros 256)).1,
            List.replicate 256 0xff)).1 = H.absorbAll h calls := by
  intro L xs H h
  have hw : (true, Width.w16) ≠ (false, .w8) := by decide
  have hbuffer : (List.replicate 256 (0xff : UInt8)).length = 256 := List.length_replicate
  obtain ⟨calls, hcount, hfull, hlast, -, hrun⟩ := feedRun_calls_full L hw xs
  obtain ⟨hcalls, -, -, hstale⟩ := hrun H h
  have hlength : xs.length = 129 := List.length_replicate
  rw [hlength] at hcount hlast
  have htwo : calls.length = 2 := hcount
  have hcut : [List.replicate 128 0x102] ++ [[0x102]] = pieces (256 / 2) calls.length xs := by
    rw [htwo]
    decide
  refine ⟨hw, calls, htwo, hfull, ?_, hbuffer, hcalls, ?_⟩
  · intro call hcall
    obtain ⟨hrest, -⟩ := hlast call hcall
    rw [htwo] at hrest
    exact hrest
  · exact (hstale _ _ hcut _ hbuffer).trans hcalls

end ValueHashing
