import Mathlib.Data.List.Palindrome
import ValueHashing.Proofs.Feed.Calls

/-!
# Where the byte order shows

The encoding of a value is a row of leaves (`leaves`): numbers, which a layout writes in its byte
order, and bytes that no layout changes. In every byte order the calls of a value are the same
leaves in the same groups (`cutFrom_feedCalls`), although one call of the staging buffer holds many
leaves. So two byte orders differ inside of leaves only, and a leaf of several bytes is reversed by
going from one to the other (`Leaf.bytes_big`).
-/

namespace ValueHashing

/-- A part of an encoding that is written as a whole. -/
inductive Leaf where
  /-- An integer, a code point, the bits of a floating-point number or a length. -/
  | number (width : Width) (value : BitVec width.bits)
  /-- Bytes that are not a number: those of a text, a truth value or the flag of an option. -/
  | plain (data : Bytes)

namespace Leaf

/-- The bytes of a leaf. -/
def bytes (order : ByteOrder) : Leaf → Bytes
  | number w x => order.encode w.size x.toNat
  | plain data => data

/-- Whether a leaf is a number of several bytes. -/
def multiByte : Leaf → Bool
  | number w _ => 1 < w.size
  | plain _ => false

theorem length_bytes (order other : ByteOrder) (leaf : Leaf) :
    (leaf.bytes order).length = (leaf.bytes other).length := by
  cases leaf with
  | number w x => rw [bytes, bytes, ByteOrder.length_encode, ByteOrder.length_encode]
  | plain => rfl

/-- The machine has the least significant byte first. -/
theorem bytes_native : bytes .native = bytes .little := by
  funext leaf
  cases leaf <;> rfl

/-- The most significant byte comes first where the other order has it last. -/
theorem bytes_big (leaf : Leaf) :
    leaf.bytes .big =
      if leaf.multiByte then (leaf.bytes .little).reverse else leaf.bytes .little := by
  cases leaf with
  | number w x =>
      have hreverse : (number w x).bytes .big = ((number w x).bytes .little).reverse :=
        Bytes.bigEndian_eq_reverse w.size x.toNat
      cases w with
      | w8 => rfl
      | w16 | w32 | w64 | w128 => exact hreverse
  | plain => rfl

theorem bytes_big_eq_little_iff (leaf : Leaf) :
    leaf.bytes .big = leaf.bytes .little ↔
      (leaf.multiByte = true → (leaf.bytes .little).Palindrome) := by
  rw [bytes_big, List.Palindrome.iff_reverse_eq]
  cases leaf.multiByte with
  | true => simp
  | false => simp

end Leaf

section Leaves

variable (lengthWidth : Width)

/-- The leaf after the elements of a collection. -/
def countLeaves : Discipline → Nat → List Leaf
  | .contiguous false, _ | .successive false, _ => []
  | .contiguous true, n | .successive true, n | .unordered, n =>
      [.number lengthWidth (lengthWord lengthWidth n)]

/-- The leaves of a value of an ordered shape, where lengths have the given width. An unordered
collection has no leaves of its own and counts as empty here. -/
def leaves : (s : Shape) → s.Value → List Leaf
  | .int _ w, x => [.number w x]
  | .machineInt _, x => [.number .machine x]
  | .bool, b => [.plain [b.toUInt8]]
  | .char, c => [.number .w32 (BitVec.ofNat 32 c.toNat)]
  | .float format, x => [.number format.width (format.normalize x)]
  | .unit, _ => []
  | .text, s =>
      [.plain (Bytes.utf8 s), .number lengthWidth (lengthWord lengthWidth (Bytes.utf8 s).length)]
  | .length, n => [.number lengthWidth (lengthWord lengthWidth n.toNat)]
  | .pair first second, x => leaves first x.1 ++ leaves second x.2
  | .hidden _, _ => []
  | .record fields, x => leaves fields x
  | .option _, none => [.plain [0]]
  | .option present, some x => .plain [1] :: leaves present x
  | .indirect _ target, x => leaves target x
  | .array _ element, x => x.toList.flatMap (leaves element)
  | .collection kind element, xs =>
      match kind.discipline with
      | .unordered => []
      | discipline => xs.flatMap (leaves element) ++ countLeaves lengthWidth discipline xs.length

end Leaves

/-! ## Calls as groups of leaves -/

/-- In every byte order the calls are made of the leaves `parts`, in the same groups. -/
def CutFrom (calls : ByteOrder → List Bytes) (parts : List Leaf) : Prop :=
  ∃ groups : List (List Leaf), groups.flatten = parts ∧
    ∀ order, calls order = groups.map (·.flatMap (Leaf.bytes order))

namespace CutFrom

variable {calls others : ByteOrder → List Bytes} {parts rest : List Leaf}

theorem nil : CutFrom (fun _ => []) [] := ⟨[], rfl, fun _ => rfl⟩

/-- One call of several leaves. -/
theorem call (parts : List Leaf) :
    CutFrom (fun order => [parts.flatMap (Leaf.bytes order)]) parts :=
  ⟨[parts], List.flatten_singleton, fun _ => rfl⟩

/-- One call of one leaf. -/
theorem leaf (part : Leaf) : CutFrom (fun order => [part.bytes order]) [part] := by
  simpa using call [part]

theorem append (h : CutFrom calls parts) (hrest : CutFrom others rest) :
    CutFrom (fun order => calls order ++ others order) (parts ++ rest) := by
  obtain ⟨groups, rfl, hcalls⟩ := h
  obtain ⟨more, rfl, hothers⟩ := hrest
  refine ⟨groups ++ more, List.flatten_append, fun order => ?_⟩
  rw [List.map_append, ← hcalls, ← hothers]

theorem flatMap {α : Type} {calls : ByteOrder → α → List Bytes} {parts : α → List Leaf}
    (h : ∀ x, CutFrom (calls · x) (parts x)) (xs : List α) :
    CutFrom (fun order => xs.flatMap (calls order)) (xs.flatMap parts) := by
  induction xs with
  | nil => exact nil
  | cons x xs ih => exact (h x).append ih

/-- All calls together are all leaves together. -/
theorem flatten_eq (h : CutFrom calls parts) (order : ByteOrder) :
    (calls order).flatten = parts.flatMap (Leaf.bytes order) := by
  obtain ⟨groups, rfl, hcalls⟩ := h
  rw [hcalls, flatMap_flatten, List.flatMap_def]

/-- The sizes of the calls do not show the byte order. -/
theorem map_length_eq (h : CutFrom calls parts) (order other : ByteOrder) :
    (calls order).map List.length = (calls other).map List.length := by
  obtain ⟨groups, -, hcalls⟩ := h
  have hgroup (group : List Leaf) : (group.flatMap (Leaf.bytes order)).length =
      (group.flatMap (Leaf.bytes other)).length := by
    simp only [List.length_flatMap, Leaf.length_bytes order other]
  simp only [hcalls, List.map_map, Function.comp_def, hgroup]

theorem native_eq (h : CutFrom calls parts) : calls .native = calls .little := by
  obtain ⟨groups, -, hcalls⟩ := h
  rw [hcalls, hcalls, Leaf.bytes_native]

end CutFrom

variable (lengthWidth : Width)

/-- Numbers go through the staging buffer in whole leaves. -/
theorem cutFrom_stagedCalls (w : Width) (xs : List (BitVec w.bits)) :
    CutFrom (fun order => stagedCalls ⟨order, lengthWidth⟩ w xs) (xs.map (Leaf.number w)) := by
  let perPiece := stagingSize / w.size
  let count := (xs.length + perPiece - 1) / perPiece
  have hpieces : (pieces perPiece count xs).flatten = xs :=
    flatten_pieces_all (Nat.div_pos w.size_le_stagingSize w.size_pos) xs
  refine ⟨(pieces perPiece count xs).map (·.map (Leaf.number w)), ?_, fun order => ?_⟩
  · rw [← List.map_flatten, hpieces]
  · rw [List.map_map]
    refine List.map_congr_left fun piece _ => ?_
    rw [Function.comp_apply, List.flatMap_map]
    rfl

/-- Unsigned bytes of one call are its leaves. -/
theorem cutFrom_map_ofBitVec (xs : List (BitVec Width.w8.bits)) :
    CutFrom (fun _ => [xs.map UInt8.ofBitVec]) (xs.map (Leaf.number .w8)) := by
  have hcall (order : ByteOrder) :
      (xs.map (Leaf.number .w8)).flatMap (Leaf.bytes order) = xs.map UInt8.ofBitVec := by
    have hbytes := Layout.map_ofBitVec ⟨order, .w8⟩ xs
    rw [List.flatten_singleton] at hbytes
    rw [List.flatMap_map, hbytes]
    rfl
  refine ⟨[xs.map (Leaf.number .w8)], List.flatten_singleton, fun order => ?_⟩
  rw [List.map_singleton, hcall order]

theorem cutFrom_runCalls (s : Shape)
    (hone : ∀ x : s.Value,
      CutFrom (fun order => feedCalls ⟨order, lengthWidth⟩ s x) (leaves lengthWidth s x))
    (xs : List s.Value) :
    CutFrom (fun order =>
        runCalls ⟨order, lengthWidth⟩ s (feedCalls ⟨order, lengthWidth⟩ s) xs)
      (xs.flatMap (leaves lengthWidth s)) := by
  cases s with
  | int signed w =>
      have hleaves : xs.flatMap (leaves lengthWidth (.int signed w)) = xs.map (Leaf.number w) :=
        List.map_eq_flatMap.symm
      rw [hleaves]
      cases signed with
      | true => exact cutFrom_stagedCalls lengthWidth w xs
      | false =>
          cases w with
          | w8 => exact cutFrom_map_ofBitVec xs
          | w16 | w32 | w64 | w128 => exact cutFrom_stagedCalls lengthWidth _ xs
  | _ => exact CutFrom.flatMap hone xs

/-- The number that follows the elements of a collection is one leaf in one call. -/
theorem cutFrom_countCalls (counted : Bool) (n : Nat) :
    CutFrom (fun order => countCalls ⟨order, lengthWidth⟩ counted n)
      (if counted then [.number lengthWidth (lengthWord lengthWidth n)] else []) := by
  cases counted with
  | true => exact CutFrom.leaf _
  | false => exact CutFrom.nil

/-- The calls of a value are its leaves, in groups that do not depend on the byte order. -/
theorem cutFrom_feedCalls (s : Shape) (v : s.Value) :
    CutFrom (fun order => feedCalls ⟨order, lengthWidth⟩ s v) (leaves lengthWidth s v) := by
  induction s with
  | int | machineInt | bool | char | float | length => exact CutFrom.leaf _
  | unit | hidden => exact CutFrom.nil
  | text => exact (CutFrom.leaf _).append (CutFrom.leaf _)
  | pair first second ihFirst ihSecond => exact (ihFirst v.1).append (ihSecond v.2)
  | record fields ih => exact ih v
  | option present ih =>
      cases v with
      | none => exact CutFrom.leaf _
      | some x => exact (CutFrom.leaf _).append (ih x)
  | indirect kind target ih => exact ih v
  | array count element ih => exact cutFrom_runCalls lengthWidth element ih v.toList
  | collection kind element ih =>
      simp only [feedCalls, leaves]
      cases kind.discipline with
      | contiguous counted =>
          have hrun := (cutFrom_runCalls lengthWidth element ih v).append
            (cutFrom_countCalls lengthWidth counted v.length)
          cases counted <;> exact hrun
      | successive counted =>
          have hrun := (CutFrom.flatMap ih v).append
            (cutFrom_countCalls lengthWidth counted v.length)
          cases counted <;> exact hrun
      | unordered => exact CutFrom.nil

/-! ## Encodings in two byte orders -/

/-- Where the parts of two rows have the same sizes one by one, the rows are equal if the parts
are. -/
theorem flatMap_eq_flatMap_iff {α : Type} {e f : α → Bytes}
    (hlength : ∀ x, (e x).length = (f x).length) (xs : List α) :
    xs.flatMap e = xs.flatMap f ↔ ∀ x ∈ xs, e x = f x := by
  induction xs with
  | nil => simp
  | cons x xs ih =>
      rw [List.flatMap_cons, List.flatMap_cons, List.forall_mem_cons, ← ih]
      constructor
      · intro heq
        exact List.append_inj heq (hlength x)
      · rintro ⟨hfirst, hrest⟩
        rw [hfirst, hrest]

/-- An encoding is the bytes of the leaves of the value. -/
theorem encode_eq_flatMap_leaves (order : ByteOrder) (s : Shape) (v : s.Value) :
    encode ⟨order, lengthWidth⟩ s v =
      (leaves lengthWidth s v).flatMap (Leaf.bytes order) := by
  rw [← flatten_feedCalls]
  exact (cutFrom_feedCalls lengthWidth s v).flatten_eq order

/-- What the byte order shows in. In every order a value of an ordered shape is fed to an algorithm
by calls that are made of its leaves, in the same groups; so there are as many calls of the same
sizes. The big-endian encoding is the little-endian one with the bytes of each leaf reversed that is
a number of several bytes, where texts, truth values, flags and numbers of one byte stay as they
are. So the two are equal if each of these leaves, the lengths among them, reads the same from both
ends. The native order makes the calls of the little-endian one. -/
theorem encode_big_eq_reversed {s : Shape} (hs : s.ordered = true) (v : s.Value) :
    let parts := leaves lengthWidth s v
    let calls (H : StreamingHash) (h : H.State) (order : ByteOrder) : List Bytes :=
      (feed (Recording.of H) ⟨order, lengthWidth⟩ s (Recording.start h) v).calls.toList
    (∀ H h, (calls H h .big).map List.length = (calls H h .little).map List.length) ∧
      (∃ groups : List (List Leaf), groups.flatten = parts ∧ ∀ H h order,
        calls H h order = groups.map (·.flatMap (Leaf.bytes order))) ∧
      encode ⟨.little, lengthWidth⟩ s v = parts.flatMap (Leaf.bytes .little) ∧
      encode ⟨.big, lengthWidth⟩ s v = parts.flatMap (fun leaf =>
        if leaf.multiByte then (leaf.bytes .little).reverse else leaf.bytes .little) ∧
      (encode ⟨.big, lengthWidth⟩ s v = encode ⟨.little, lengthWidth⟩ s v ↔
        ∀ leaf ∈ parts, leaf.multiByte = true → (leaf.bytes .little).Palindrome) ∧
      ∀ H h, calls H h .native = calls H h .little ∧
        feed H ⟨.native, lengthWidth⟩ s h v = feed H ⟨.little, lengthWidth⟩ s h v := by
  intro parts calls
  have hcut := cutFrom_feedCalls lengthWidth s v
  have hcalls (H : StreamingHash) (h : H.State) (order : ByteOrder) :
      calls H h order = feedCalls ⟨order, lengthWidth⟩ s v :=
    Recording.calls_feed ⟨order, lengthWidth⟩ H hs (Recording.start h) v
  refine ⟨?_, ?_, ?_, ?_, ?_, ?_⟩
  · intro H h
    rw [hcalls, hcalls]
    exact hcut.map_length_eq .big .little
  · obtain ⟨groups, hgroups, horder⟩ := hcut
    exact ⟨groups, hgroups, fun H h order => (hcalls H h order).trans (horder order)⟩
  · exact encode_eq_flatMap_leaves lengthWidth .little s v
  · rw [encode_eq_flatMap_leaves, funext Leaf.bytes_big]
  · rw [encode_eq_flatMap_leaves, encode_eq_flatMap_leaves,
      flatMap_eq_flatMap_iff (Leaf.length_bytes .big .little)]
    simp only [Leaf.bytes_big_eq_little_iff]
    rfl
  · intro H h
    rw [hcalls, hcalls, feed_eq_absorbAll_feedCalls _ H hs, feed_eq_absorbAll_feedCalls _ H hs,
      hcut.native_eq]
    exact ⟨rfl, rfl⟩

/-- A text, two numbers that read the same from both ends, and a present truth value. With lengths
of one byte the byte order does not show; with lengths of two bytes it shows in the length of the
text, and nowhere else. -/
theorem encode_big_eq_reversed_lengths :
    let s := Shape.tuple
      [.text, .array 2 (.int false .w16), .option .bool, .float .single]
    let v : s.Value := ("ab", ⟨#[0x1212, 0], rfl⟩, some true, 0x80000000, ())
    s.ordered = true ∧ encode ⟨.big, .w8⟩ s v = encode ⟨.little, .w8⟩ s v ∧
      encode ⟨.big, .w16⟩ s v = [0x61, 0x62, 0, 2, 0x12, 0x12, 0, 0, 1, 1, 0, 0, 0, 0] ∧
      encode ⟨.big, .w16⟩ s v ≠ encode ⟨.little, .w16⟩ s v := by
  intro s v
  have hs : s.ordered = true := rfl
  obtain ⟨-, -, -, -, hbyte, -⟩ := encode_big_eq_reversed .w8 hs v
  obtain ⟨-, -, -, hreversed, hpair, -⟩ := encode_big_eq_reversed .w16 hs v
  exact ⟨hs, hbyte.mpr (by decide), hreversed.trans (by decide),
    fun heq => absurd (hpair.mp heq) (by decide)⟩

end ValueHashing
