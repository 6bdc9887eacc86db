import ValueHashing.Feed
import ValueHashing.Fnv
import ValueHashing.Recording
import ValueHashing.Proofs.Encoding.Leaves

/-!
# Feeding a value is absorbing its encoding

The calls by which a value of an ordered shape is fed are a list that depends on nothing but the
value and the layout (`feedCalls`): any algorithm in any state absorbs them in order
(`feed_eq_absorbAll_feedCalls`), and put together they are the encoding of the value
(`flatten_feedCalls`). How the bytes are cut into calls is a matter of the shape. Contiguous
integers go through the staging buffer in full pieces, and everything else goes one leaf at a time.

## Implementation notes

Whether elements are fed in pieces is decided by their shape alone, so the calls of a run take the
calls of one element as an argument, as `feedRun` does.
-/

namespace ValueHashing

variable (L : Layout)

/-- The calls of a run of integers that goes through the staging buffer. -/
def stagedCalls (w : Width) (xs : List (BitVec w.bits)) : List Bytes :=
  let perPiece := stagingSize / w.size
  let count := (xs.length + perPiece - 1) / perPiece
  (pieces perPiece count xs).map (·.flatMap (L.integer w))

/-- The calls of contiguous elements, where `one` gives those of a single element. -/
def runCalls : (s : Shape) → (one : s.Value → List Bytes) → List s.Value → List Bytes
  | .int false .w8, _, xs => [xs.map UInt8.ofBitVec]
  | .int _ w, _, xs => stagedCalls L w xs
  | _, one, xs => xs.flatMap one

/-- The call that follows the elements of a collection, if it feeds their number. -/
def countCalls (counted : Bool) (n : Nat) : List Bytes :=
  if counted then [L.length n] else []

/-- The calls of a value of an ordered shape. An unordered collection, whose calls depend on
the state at hand, counts as making none. -/
def feedCalls : (s : Shape) → s.Value → List Bytes
  | .int _ w, x => [L.integer w x]
  | .machineInt _, x => [L.integer .machine x]
  | .bool, b => [[b.toUInt8]]
  | .char, c => [L.integer .w32 (BitVec.ofNat 32 c.toNat)]
  | .float format, x => [L.integer format.width (format.normalize x)]
  | .unit, _ => []
  | .text, s => [Bytes.utf8 s, L.length (Bytes.utf8 s).length]
  | .length, n => [L.length n.toNat]
  | .pair first second, x => feedCalls first x.1 ++ feedCalls second x.2
  | .hidden _, _ => []
  | .record fields, x => feedCalls fields x
  | .option _, none => [[0]]
  | .option present, some x => [1] :: feedCalls present x
  | .indirect _ target, x => feedCalls target x
  | .array _ element, x => runCalls L element (feedCalls element) x.toList
  | .collection kind element, xs =>
      match kind.discipline with
      | .contiguous counted =>
          runCalls L element (feedCalls element) xs ++ countCalls L counted xs.length
      | .successive counted => xs.flatMap (feedCalls element) ++ countCalls L counted xs.length
      | .unordered => []

/-! ## The staging buffer -/

theorem length_le_of_mem_pieces {α : Type} {size count : Nat} {xs piece : List α}
    (h : piece ∈ pieces size count xs) : piece.length ≤ size := by
  induction count generalizing xs with
  | zero => cases h
  | succ count ih =>
      rw [pieces, List.mem_cons] at h
      rcases h with rfl | h
      · exact List.length_take_le _ _
      · exact ih h

/-- Enough pieces are cut to reach the end of the list. -/
theorem flatten_pieces_all {α : Type} {size : Nat} (hs : 0 < size) (xs : List α) :
    (pieces size ((xs.length + size - 1) / size) xs).flatten = xs := by
  rw [flatten_pieces]
  apply List.take_of_length_le
  have hlt := Nat.lt_mul_div_succ (xs.length + size - 1) hs
  rw [Nat.mul_succ, Nat.mul_comm] at hlt
  omega

theorem Width.size_le_stagingSize (w : Width) : w.size ≤ stagingSize := by
  cases w <;> decide

theorem length_flatMap_integer (w : Width) (xs : List (BitVec w.bits)) :
    (xs.flatMap (L.integer w)).length = xs.length * w.size := by
  induction xs with
  | nil => simp
  | cons x xs ih => rw [List.flatMap_cons, List.length_append, ih, L.length_integer,
      List.length_cons, Nat.succ_mul, Nat.add_comm]

variable (H : StreamingHash)

/-- What is fed of the buffer is the piece that was just staged, whatever stood there before. -/
theorem feedPiece_eq (w : Width) (h : H.State) {buffer : Bytes}
    (hbuffer : buffer.length = stagingSize)
    {piece : List (BitVec w.bits)} (hpiece : piece.length ≤ stagingSize / w.size) :
    let staged := feedPiece H L w (h, buffer) piece
    staged.1 = H.absorb h (piece.flatMap (L.integer w)) ∧ staged.2.length = stagingSize := by
  intro staged
  have hfits : piece.length * w.size ≤ stagingSize :=
    Nat.le_trans (Nat.mul_le_mul_right _ hpiece) (Nat.div_mul_le_self _ _)
  have hlength := length_flatMap_integer L w piece
  constructor
  · have hwhole : (piece.flatMap (L.integer w)).take stagingSize = piece.flatMap (L.integer w) :=
      List.take_of_length_le (by omega)
    have htake : (Bytes.overwrite (piece.flatMap (L.integer w)) buffer).take
        (piece.length * w.size) = piece.flatMap (L.integer w) := by
      rw [Bytes.overwrite_eq, hbuffer, hwhole, List.take_left' hlength]
    simp only [staged, feedPiece, htake]
  · simp only [staged, feedPiece, Bytes.length_overwrite, hbuffer]

theorem foldl_feedPiece (w : Width) (h : H.State) {buffer : Bytes}
    (hbuffer : buffer.length = stagingSize) {cut : List (List (BitVec w.bits))}
    (hcut : ∀ piece ∈ cut, piece.length ≤ stagingSize / w.size) :
    (cut.foldl (feedPiece H L w) (h, buffer)).1 =
      H.absorbAll h (cut.map (·.flatMap (L.integer w))) := by
  induction cut generalizing h buffer with
  | nil => rfl
  | cons piece cut ih =>
      obtain ⟨hstate, hlength⟩ := feedPiece_eq L H w h hbuffer (hcut piece List.mem_cons_self)
      rw [List.foldl_cons, List.map_cons, StreamingHash.absorbAll_cons, ← hstate]
      exact ih _ hlength fun piece hpiece => hcut piece (List.mem_cons_of_mem _ hpiece)

theorem feedStaged_eq (w : Width) (h : H.State) (xs : List (BitVec w.bits)) :
    feedStaged H L w h xs = H.absorbAll h (stagedCalls L w xs) :=
  foldl_feedPiece L H w h (Bytes.length_zeros _) fun _ => length_le_of_mem_pieces

/-- What groups of elements are fed is what the elements are fed. -/
theorem flatMap_flatten {α β : Type} (f : α → List β) (groups : List (List α)) :
    groups.flatten.flatMap f = groups.flatMap (·.flatMap f) := by
  rw [List.flatMap_def, List.map_flatten, List.flatten_flatten, List.map_map, List.flatMap_def]
  rfl

theorem flatten_stagedCalls (w : Width) (xs : List (BitVec w.bits)) :
    (stagedCalls L w xs).flatten = xs.flatMap (L.integer w) := by
  have hpieces := flatten_pieces_all (Nat.div_pos w.size_le_stagingSize w.size_pos) xs
  rw [stagedCalls, ← List.flatMap_def, ← flatMap_flatten, hpieces]

/-! ## Runs of elements -/

theorem foldl_eq_absorbAll {α : Type} {one : H.State → α → H.State} {calls : α → List Bytes}
    (hone : ∀ h x, one h x = H.absorbAll h (calls x)) (h : H.State) (xs : List α) :
    xs.foldl one h = H.absorbAll h (xs.flatMap calls) := by
  induction xs generalizing h with
  | nil => rfl
  | cons x xs ih =>
      rw [List.foldl_cons, ih, hone, List.flatMap_cons, StreamingHash.absorbAll_append]

theorem feedRun_eq (s : Shape) {one : H.State → s.Value → H.State} {calls : s.Value → List Bytes}
    (hone : ∀ h x, one h x = H.absorbAll h (calls x)) (h : H.State) (xs : List s.Value) :
    feedRun H L s one h xs = H.absorbAll h (runCalls L s calls xs) := by
  cases s with
  | int signed w =>
      cases signed with
      | true => exact feedStaged_eq L H w h xs
      | false =>
          cases w with
          | w8 => rfl
          | w16 | w32 | w64 | w128 => exact feedStaged_eq L H _ h xs
  | _ => exact foldl_eq_absorbAll H hone h xs

theorem Layout.integer_w8 (x : BitVec 8) : L.integer .w8 x = [UInt8.ofBitVec x] := by
  have hbyte : UInt8.ofNat x.toNat = UInt8.ofBitVec x := by
    apply UInt8.eq_of_toBitVec_eq
    simp
  unfold integer ByteOrder.encode
  split <;> exact congrArg (fun b => [b]) hbyte

/-- Unsigned bytes that are fed in one call are fed one after the other. -/
theorem Layout.map_ofBitVec (xs : List (BitVec 8)) :
    [xs.map UInt8.ofBitVec].flatten = xs.flatMap (L.integer .w8) := by
  rw [List.flatten_singleton, List.map_eq_flatMap, funext L.integer_w8]
  rfl

theorem flatten_flatMap {α : Type} {calls : α → List Bytes} {e : α → Bytes}
    (hcalls : ∀ x, (calls x).flatten = e x) (xs : List α) :
    (xs.flatMap calls).flatten = xs.flatMap e := by
  induction xs with
  | nil => rfl
  | cons x xs ih => rw [List.flatMap_cons, List.flatten_append, hcalls, ih, List.flatMap_cons]

/-- Cut into pieces or not, a run of elements is fed the encodings of its elements. -/
theorem flatten_runCalls (s : Shape) {calls : s.Value → List Bytes}
    (hcalls : ∀ x, (calls x).flatten = encode L s x) (xs : List s.Value) :
    (runCalls L s calls xs).flatten = xs.flatMap (encode L s) := by
  cases s with
  | int signed w =>
      rw [funext (encode_int L signed w)]
      cases signed with
      | true => exact flatten_stagedCalls L w xs
      | false =>
          cases w with
          | w8 => exact L.map_ofBitVec xs
          | w16 | w32 | w64 | w128 => exact flatten_stagedCalls L _ xs
  | _ => exact flatten_flatMap hcalls xs

theorem flatten_countCalls (counted : Bool) (n : Nat) :
    (countCalls L counted n).flatten = if counted then L.count n else [] := by
  cases counted <;> simp [countCalls, L.count_eq_length]

/-! ## Sums of contributions -/

theorem foldl_add_eq_sum {α : Type} (f : α → BitVec 64) (xs : List α) :
    xs.foldl (fun sum x => sum + f x) 0 = (xs.map f).sum := by
  rw [List.sum_eq_foldl, List.foldl_map]

theorem sum_map_ofNat {α : Type} (f : α → Nat) (xs : List α) :
    (xs.map fun x => BitVec.ofNat 64 (f x)).sum = BitVec.ofNat 64 (xs.map f).sum := by
  induction xs with
  | nil => rfl
  | cons x xs ih =>
      rw [List.map_cons, List.sum_cons, ih, List.map_cons, List.sum_cons, BitVec.ofNat_add]

/-- The sum that is fed is that of the contributions as numbers, cut to 64 bits. -/
theorem feedUnordered_eq {α : Type} (one : H.State → α → H.State) (h : H.State) (xs : List α) :
    feedUnordered H L one h xs =
      feedLength H L (H.absorb h (L.integer .w64 (BitVec.ofNat 64
        (xs.map fun x => (contribution H (one h x)).toNat).sum))) xs.length := by
  have hshare (x : α) :
      BitVec.ofNat 64 (contribution H (one h x)).toNat = contribution H (one h x) := by
    rw [BitVec.ofNat_toNat, BitVec.setWidth_eq]
  rw [← sum_map_ofNat]
  simp only [feedUnordered, foldl_add_eq_sum, hshare]

/-! ## Values -/

/-- Any algorithm in any state absorbs the calls of a value. -/
theorem feed_eq_absorbAll_feedCalls {s : Shape} (hs : s.ordered = true) (h : H.State)
    (v : s.Value) : feed H L s h v = H.absorbAll h (feedCalls L s v) := by
  induction s generalizing h with
  | int | machineInt | bool | char | float | unit | text | length | hidden => rfl
  | pair first second ihFirst ihSecond =>
      rw [Shape.ordered, Bool.and_eq_true] at hs
      rw [feed, ihFirst hs.1, ihSecond hs.2, feedCalls, StreamingHash.absorbAll_append]
  | record fields ih => exact ih hs h v
  | option present ih =>
      cases v with
      | none => rfl
      | some x => exact ih hs (feedFlag H h true) x
  | indirect kind target ih => exact ih hs h v
  | array count element ih => exact feedRun_eq L H element (fun h x => ih hs h x) h v.toList
  | collection kind element ih =>
      rw [Shape.ordered, Bool.and_eq_true] at hs
      have hone (h : H.State) (x : element.Value) := ih hs.2 h x
      rw [feed, feedCalls]
      cases hkind : kind.discipline with
      | contiguous counted =>
          simp only [feedRun_eq L H element hone, StreamingHash.absorbAll_append]
          cases counted <;> rfl
      | successive counted =>
          simp only [foldl_eq_absorbAll H hone, StreamingHash.absorbAll_append]
          cases counted <;> rfl
      | unordered => simp [hkind] at hs

/-- The calls of a value make up its encoding. -/
theorem flatten_feedCalls (s : Shape) (v : s.Value) :
    (feedCalls L s v).flatten = encode L s v := by
  induction s with
  | int signed w => exact List.flatten_singleton.trans (encode_int L signed w v).symm
  | machineInt signed => exact List.flatten_singleton.trans (encode_machineInt L signed v).symm
  | bool => exact List.flatten_singleton
  | char => exact List.flatten_singleton.trans (encode_char L v).symm
  | float format => exact List.flatten_singleton.trans (encode_float L format v).symm
  | unit | hidden => rfl
  | text => simp [feedCalls, encode_text]
  | length => exact List.flatten_singleton.trans (encode_length L v).symm
  | pair first second ihFirst ihSecond =>
      rw [feedCalls, List.flatten_append, ihFirst, ihSecond, encode]
  | record fields ih => exact ih v
  | option present ih =>
      cases v with
      | none => rfl
      | some x => rw [feedCalls, List.flatten_cons, ih, encode, List.singleton_append]
  | indirect kind target ih => exact ih v
  | array count element ih => exact flatten_runCalls L element ih v.toList
  | collection kind element ih =>
      rw [feedCalls, encode]
      cases kind.discipline with
      | contiguous counted =>
          simp only [List.flatten_append, flatten_runCalls L element ih, flatten_countCalls]
          cases counted <;> rfl
      | successive counted =>
          simp only [List.flatten_append, flatten_flatMap ih, flatten_countCalls]
          cases counted <;> rfl
      | unordered => rfl

/-- What is recorded of several calls is these calls, behind the earlier ones. -/
theorem Recording.calls_absorbAll (r : (Recording.of H).State) (parts : List Bytes) :
    ((Recording.of H).absorbAll r parts).calls.toList = r.calls.toList ++ parts := by
  induction parts generalizing r with
  | nil => exact (List.append_nil _).symm
  | cons part parts ih =>
      have hpush : ((Recording.of H).absorb r part).calls.toList = r.calls.toList ++ [part] :=
        Array.toList_push
      rw [StreamingHash.absorbAll_cons, ih, hpush, List.append_assoc, List.singleton_append]

/-- A recording of a value grows by the calls of the value. -/
theorem Recording.calls_feed {s : Shape} (hs : s.ordered = true) (r : (Recording.of H).State)
    (v : s.Value) :
    (feed (Recording.of H) L s r v).calls.toList = r.calls.toList ++ feedCalls L s v := by
  rw [feed_eq_absorbAll_feedCalls L (Recording.of H) hs r v]
  exact Recording.calls_absorbAll H r (feedCalls L s v)

/-- The bytes of a recording of a value grow by the encoding of the value. -/
theorem Recording.bytes_feed {s : Shape} (hs : s.ordered = true) (r : (Recording.of H).State)
    (v : s.Value) : (feed (Recording.of H) L s r v).bytes = r.bytes ++ encode L s v := by
  have hcalls := congrArg List.flatten (Recording.calls_feed L H hs r v)
  rwa [List.flatten_append, flatten_feedCalls] at hcalls

/-- To feed a value of an ordered shape is to absorb, call by call, a list of byte strings whose
concatenation is the encoding of the value. It is the same list for every algorithm and for every
state, and it is what a recording of the algorithm shows. -/
theorem feed_absorbs_encoding (s : Shape) (hs : s.ordered = true) (v : s.Value) :
    ∃ calls : List Bytes, calls.flatten = encode L s v ∧
      ∀ (H : StreamingHash) (h : H.State),
        feed H L s h v = H.absorbAll h calls ∧
          (feed (Recording.of H) L s (Recording.start h) v).calls.toList = calls := by
  refine ⟨feedCalls L s v, flatten_feedCalls L s v, ?_⟩
  intro H h
  constructor
  · exact feed_eq_absorbAll_feedCalls L H hs h v
  · have hcalls := Recording.calls_absorbAll H (Recording.start h) (feedCalls L s v)
    rwa [← feed_eq_absorbAll_feedCalls L (Recording.of H) hs (Recording.start h) v] at hcalls

/-- A text, a vector of two-byte integers, an absent and a present value, and a map, fed to FNV-1a
with the high bytes first and lengths of two bytes. With the low bytes first and lengths of one
byte: integers of every width, the negative zeros and another floating-point number, a length and a
count that do not fit, every kind of ordered collection, and an aggregate with a part that is not
hashed. -/
theorem feed_absorbs_encoding_nested :
    let H := Fnv.algorithm 1
    let big : Layout := ⟨.big, .w16⟩
    let s := Shape.tuple [.text, .collection .vector (.int false .w16), .option .bool,
      .option (.indirect .owned .char), .collection .sortedMap (.entry .bool .unit)]
    let v : s.Value := ("ab", [1, 0x203], none, some 'c', [(true, (), ())], ())
    let little : Layout := ⟨.little, .w8⟩
    let t := Shape.tuple [.tuple [.int false .w8, .int true .w16, .int false .w32, .int true .w64,
        .int false .w128, .machineInt true, .char],
      .tuple [.float .single, .float .double, .float .single, .length, .collection .slice .unit],
      .tuple [.collection .vector (.int true .w16), .collection .deque .bool,
        .collection .sortedSet (.int false .w8),
        .collection .sortedMap (.entry (.int false .w8) .bool),
        .collection .sizedRange .char, .collection .run (.int false .w16),
        .collection .range (.int false .w8)],
      .record (.tuple [.hidden .text, .array 2 .bool])]
    let w : t.Value := ((0x12, 0x1234, 0x12345678, 0x123456789abcdef0, 1, -2, 'd', ()),
      (0x80000000, 0x8000000000000000, 0x3fc00000, 300, List.replicate 257 (), ()),
      ([0x102], [true, false], [3, 4], [(5, true, ())], ['e'], [6], [7, 8], ()),
      ("ab", #v[false, true], ()), ())
    (s.ordered = true ∧
        ∃ calls : List Bytes,
          calls.flatten =
            [0x61, 0x62, 0, 2, 0, 1, 2, 3, 0, 2, 0, 1, 0, 0, 0, 0x63, 1, 0, 1] ∧
            feed H big s H.fresh.value v = H.absorbAll H.fresh.value calls) ∧
      t.ordered = true ∧
        ∃ calls : List Bytes,
          calls.flatten =
            [0x12, 0x34, 0x12, 0x78, 0x56, 0x34, 0x12,
              0xf0, 0xde, 0xbc, 0x9a, 0x78, 0x56, 0x34, 0x12,
              1, 0, 0, 0, 0, 0, 0, 0, 0, 0, 0, 0, 0, 0, 0, 0,
              0xfe, 0xff, 0xff, 0xff, 0xff, 0xff, 0xff, 0xff, 0x64, 0, 0, 0,
              0, 0, 0, 0, 0, 0, 0, 0, 0, 0, 0, 0, 0, 0, 0xc0, 0x3f, 44, 1,
              2, 1, 1, 1, 0, 2, 3, 4, 2, 5, 1, 1, 0x65, 0, 0, 0, 1, 6, 0, 7, 8, 0, 1] ∧
            feed H little t H.fresh.value w = H.absorbAll H.fresh.value calls := by
  intro H big s v little t w
  have hs : s.ordered = true := by decide
  have ht : t.ordered = true := by decide
  obtain ⟨calls, hflatten, hfeed⟩ := feed_absorbs_encoding big s hs v
  obtain ⟨others, hothers, hfeedOthers⟩ := feed_absorbs_encoding little t ht w
  refine ⟨⟨hs, calls, hflatten.trans ?_, (hfeed H H.fresh.value).1⟩, ht, others,
    hothers.trans ?_, (hfeedOthers H H.fresh.value).1⟩
  · decide
  · set_option maxRecDepth 2000 in decide

end ValueHashing
