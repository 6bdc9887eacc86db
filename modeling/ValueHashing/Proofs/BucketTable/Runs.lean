import ValueHashing.Proofs.BucketTable.History

/-!
# A table of buckets is a finite map

Whatever is put into a table and looked up in it, the answers are those of the history of insertions
alone (`run_eq_history`): neither the algorithm nor the number of buckets shows in them. The
algorithm only decides in which bucket an entry stands. What carries this is that every bucket holds
exactly the entries of the history that belong to it (`Holds`).
-/

namespace ValueHashing

variable {H : StreamingHash} {V : Type}

namespace BucketTable

/-- What is asked of a table. -/
inductive Access (V : Type) where
  | insert (key : String) (value : V)
  | get (key : String)

namespace Access

/-- The history of insertions after one more access. -/
def extend (history : List (String × V)) : Access V → List (String × V)
  | insert key value => history ++ [(key, value)]
  | get _ => history

/-- The value that an access answers with: the one that was put under its key last before. -/
def answer (history : List (String × V)) : Access V → Option V
  | insert key _ | get key => latest history key

/-- The answers to several accesses, in order. -/
def answers (history : List (String × V)) : List (Access V) → List (Option V)
  | [] => []
  | access :: rest => access.answer history :: answers (access.extend history) rest

/-- The history of insertions after several accesses. -/
def history (accesses : List (Access V)) : List (String × V) := accesses.foldl extend []

end Access

/-- Carry out one access. -/
def access (t : BucketTable H V) : Access V → Option V × BucketTable H V
  | .insert key value => t.insert key value
  | .get key => (t.get? key, t)

/-- Carry out accesses in order, and collect the answers. -/
def run (t : BucketTable H V) : List (Access V) → List (Option V) × BucketTable H V
  | [] => ([], t)
  | a :: rest =>
      let (answer, t) := t.access a
      let (answers, t) := t.run rest
      (answer :: answers, t)

/-- The entries of a history that belong to bucket `i` of `size` ones. -/
def share (H : StreamingHash) (size : Nat) (history : List (String × V)) (i : Nat) :
    List (String × V) :=
  (entriesOf history).filter fun e => textHash H e.1 % size = i

/-- A table of `size` buckets that holds the entries of a history, each in its bucket. -/
structure Holds (t : BucketTable H V) (size : Nat) (history : List (String × V)) : Prop where
  size_pos : 0 < size
  toList : t.buckets.toList = (List.range size).map (share H size history)

variable {t : BucketTable H V} {size : Nat} {history : List (String × V)}

theorem Holds.size_eq (h : t.Holds size history) : t.buckets.size = size := by
  rw [← Array.length_toList, h.toList, List.length_map, List.length_range]

theorem Holds.index_eq (h : t.Holds size history) (key : String) :
    t.index key = textHash H key % size := by
  rw [index, h.size_eq]

theorem Holds.index_lt (h : t.Holds size history) (key : String) : t.index key < size := by
  rw [h.index_eq]
  exact Nat.mod_lt _ h.size_pos

/-- The look-up of a bucket never fails. -/
theorem Holds.bucket (h : t.Holds size history) (key : String) :
    t.buckets[t.index key]? = some (share H size history (t.index key)) := by
  rw [← Array.getElem?_toList, h.toList, List.getElem?_map,
    List.getElem?_range (h.index_lt key), Option.map_some]

/-- The bucket of a key knows its latest value. -/
theorem Holds.lookup_share (h : t.Holds size history) (key : String) :
    (share H size history (t.index key)).lookup key = latest history key := by
  have hkey : textHash H key % size = t.index key := (h.index_eq key).symm
  rw [share, lookup_filter (fun k => textHash H k % size = t.index key) hkey, lookup_entriesOf]

/-- No bucket holds anything at the start. -/
theorem holds_ofCount (n : Nat) : (ofCount n : BucketTable H V).Holds (max n 1) [] := by
  refine ⟨by omega, ?_⟩
  have hempty : share H (max n 1) ([] : List (String × V)) = fun _ => [] := rfl
  simp [ofCount, hempty]

/-- An insertion changes one bucket, in the way in which it changes the entries of the history. -/
theorem Holds.insert (h : t.Holds size history) (key : String) (value : V) :
    (t.insert key value).1 = latest history key ∧
      (t.insert key value).2.Holds size (history ++ [(key, value)]) := by
  have hshare (i : Nat) : share H size (history ++ [(key, value)]) i =
      if t.index key = i then (insertEntry key value (share H size history i)).2
      else share H size history i := by
    rw [share, ← insertEntry_entriesOf,
      filter_insertEntry (fun k => textHash H k % size = i) key value, h.index_eq]
    rfl
  unfold BucketTable.insert
  simp only [h.bucket key]
  refine ⟨?_, h.size_pos, ?_⟩
  · rw [insertEntry_fst, h.lookup_share]
  · apply List.ext_getElem
    · simp [h.size_eq]
    · intro i hi hi'
      simp only [Array.toList_setIfInBounds, h.toList, List.getElem_set, List.getElem_map,
        List.getElem_range, hshare]
      split
      · next heq => rw [heq]
      · rfl

/-- Every access is answered from the history and keeps it. -/
theorem Holds.access (h : t.Holds size history) (a : Access V) :
    (t.access a).1 = a.answer history ∧ (t.access a).2.Holds size (a.extend history) := by
  cases a with
  | insert key value => exact h.insert key value
  | get key =>
      refine ⟨?_, h⟩
      simp only [BucketTable.access, get?, h.bucket key]
      exact h.lookup_share key

theorem Holds.run (h : t.Holds size history) (accesses : List (Access V)) :
    (t.run accesses).1 = Access.answers history accesses ∧
      (t.run accesses).2.Holds size (accesses.foldl Access.extend history) := by
  induction accesses generalizing t history with
  | nil => exact ⟨rfl, h⟩
  | cons a rest ih =>
      obtain ⟨hanswer, hafter⟩ := h.access a
      obtain ⟨hanswers, hrest⟩ := ih hafter
      constructor
      · rw [BucketTable.run, Access.answers, ← hanswer, ← hanswers]
      · exact hrest

/-- What was put under a key is found there afterwards. -/
theorem Holds.get?_insert (h : t.Holds size history) (key : String) (value : V) :
    (t.insert key value).2.get? key = some value := by
  obtain ⟨hget, -⟩ := (h.insert key value).2.access (.get key)
  rw [Access.answer, latest_concat, if_pos rfl] at hget
  exact hget

theorem map_fst_share (H : StreamingHash) (size : Nat) (history : List (String × V)) (i : Nat) :
    (share H size history i).map Prod.fst =
      (history.map Prod.fst).eraseDups.filter fun key => textHash H key % size = i := by
  rw [share, ← map_fst_entriesOf, List.filter_map]
  rfl

/-- No key stands twice in the table. -/
theorem Holds.nodup_keys (h : t.Holds size history) :
    (t.buckets.toList.flatten.map Prod.fst).Nodup := by
  rw [h.toList, List.map_flatten, List.map_map, List.nodup_flatten]
  constructor
  · intro keys hkeys
    obtain ⟨i, -, rfl⟩ := List.mem_map.mp hkeys
    rw [Function.comp_apply, map_fst_share]
    exact (nodup_eraseDups _).filter _
  · rw [List.pairwise_map]
    refine List.nodup_range.imp ?_
    intro i j hij key hi hj
    rw [Function.comp_apply, map_fst_share, List.mem_filter, decide_eq_true_eq] at hi hj
    exact hij (hi.2.symm.trans hj.2)

/-- The keys of the table are those that something was put under. -/
theorem Holds.mem_keys_iff (h : t.Holds size history) (key : String) :
    key ∈ t.buckets.toList.flatten.map Prod.fst ↔ key ∈ history.map Prod.fst := by
  rw [h.toList, List.map_flatten, List.map_map, List.mem_flatten]
  constructor
  · rintro ⟨keys, hkeys, hkey⟩
    obtain ⟨i, -, rfl⟩ := List.mem_map.mp hkeys
    rw [Function.comp_apply, map_fst_share, List.mem_filter] at hkey
    exact List.mem_eraseDups.mp hkey.1
  · intro hkey
    refine ⟨_, List.mem_map_of_mem (List.mem_range.mpr (h.index_lt key)), ?_⟩
    rw [Function.comp_apply, map_fst_share, List.mem_filter, h.index_eq]
    exact ⟨List.mem_eraseDups.mpr hkey, decide_eq_true rfl⟩

/-- A table of `n` buckets, or of one for `n = 0`, answers every access with the value that was last
put under its key, whatever the algorithm and the number of buckets. At every point each bucket
holds the keys of the history whose hash is its index modulo the number of buckets, in the order of
their first insertion and with their latest values, and no key stands twice in the table. The bucket
of a key is always there, and what is put under a key is found. -/
theorem run_eq_history (H : StreamingHash) (V : Type) (n : Nat) (accesses : List (Access V)) :
    let answers := ((ofCount n : BucketTable H V).run accesses).1
    let t := ((ofCount n : BucketTable H V).run accesses).2
    let history := Access.history accesses
    answers = Access.answers [] accesses ∧
      t.buckets.size = max n 1 ∧
      t.buckets.toList = (List.range (max n 1)).map (fun i =>
        (entriesOf history).filter fun e => textHash H e.1 % max n 1 = i) ∧
      (t.buckets.toList.flatten.map Prod.fst).Nodup ∧
      ∀ key,
        (key ∈ t.buckets.toList.flatten.map Prod.fst ↔ key ∈ history.map Prod.fst) ∧
          t.index key < t.buckets.size ∧
          t.buckets[t.index key]?.isSome = true ∧
          ∀ value, (t.insert key value).2.get? key = some value := by
  intro answers t history
  obtain ⟨hanswers, h⟩ := (holds_ofCount (H := H) (V := V) n).run accesses
  refine ⟨hanswers, h.size_eq, h.toList, h.nodup_keys, ?_⟩
  intro key
  refine ⟨h.mem_keys_iff key, ?_, ?_, h.get?_insert key⟩
  · rw [h.size_eq]
    exact h.index_lt key
  · rw [h.bucket key]
    rfl

end BucketTable

end ValueHashing
