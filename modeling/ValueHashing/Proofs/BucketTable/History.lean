import Mathlib.Data.List.Induction
import Mathlib.Data.List.Nodup
import ValueHashing.BucketTable

/-!
# What a history of insertions leaves behind

A finite map is determined by the insertions into it, oldest first: under every key stands the value
that was last put there (`latest`), and the keys come in the order in which they were first put
(`entriesOf`). One more insertion into the entries of a history is `insertEntry`
(`insertEntry_entriesOf`).

A part of the entries that is selected by their keys is kept up to date by itself: an insertion
under a selected key goes to the part, and any other leaves it alone (`filter_insertEntry`).
-/

namespace ValueHashing

variable {V : Type}

/-- The value that was last put under a key. -/
def latest (history : List (String × V)) (key : String) : Option V := history.reverse.lookup key

/-- Keys with their values, without the keys that have none. -/
def entriesWith (value : String → Option V) (keys : List String) : List (String × V) :=
  keys.filterMap fun key => (value key).map fun v => (key, v)

/-- The keys of a history in the order of their first insertion, each with its latest value. -/
def entriesOf (history : List (String × V)) : List (String × V) :=
  entriesWith (latest history) (history.map Prod.fst).eraseDups

/-! ## One more insertion -/

theorem latest_concat (history : List (String × V)) (k key : String) (v : V) :
    latest (history ++ [(k, v)]) key = if key = k then some v else latest history key := by
  rw [latest, List.reverse_concat, List.lookup_cons]
  by_cases h : key = k
  · simp [h]
  · have hbeq : (key == k) = false := beq_eq_false_iff_ne.mpr h
    simp only [hbeq, if_neg h, latest]

theorem latest_isSome_iff {history : List (String × V)} {key : String} :
    (latest history key).isSome = true ↔ key ∈ history.map Prod.fst := by
  rw [latest, List.lookup_isSome_iff]
  constructor
  · rintro ⟨e, he, hkey⟩
    rw [beq_iff_eq.mp hkey]
    exact List.mem_map_of_mem (List.mem_reverse.mp he)
  · intro hkey
    obtain ⟨e, he, rfl⟩ := List.mem_map.mp hkey
    exact ⟨e, List.mem_reverse.mpr he, beq_self_eq_true _⟩

theorem eraseDups_concat (keys : List String) (key : String) :
    (keys ++ [key]).eraseDups =
      if key ∈ keys.eraseDups then keys.eraseDups else keys.eraseDups ++ [key] := by
  rw [List.eraseDups_append]
  by_cases h : key ∈ keys
  · simp [h, List.removeAll]
  · simp [h, List.removeAll, List.eraseDups_cons]

theorem nodup_eraseDups (keys : List String) : keys.eraseDups.Nodup := by
  induction keys using List.reverseRecOn with
  | nil => exact List.nodup_nil
  | append_singleton keys key ih =>
      rw [eraseDups_concat]
      split
      · exact ih
      · next hnew =>
          rw [← List.concat_eq_append]
          exact ih.concat hnew

theorem entriesWith_congr {f g : String → Option V} {keys : List String}
    (h : ∀ key ∈ keys, f key = g key) : entriesWith f keys = entriesWith g keys :=
  List.filterMap_congr fun key hkey => by rw [h key hkey]

theorem map_fst_entriesWith {f : String → Option V} {keys : List String}
    (hf : ∀ key ∈ keys, (f key).isSome = true) : (entriesWith f keys).map Prod.fst = keys := by
  induction keys with
  | nil => rfl
  | cons a keys ih =>
      obtain ⟨b, hb⟩ := Option.isSome_iff_exists.mp (hf a List.mem_cons_self)
      have hrest := ih fun key hkey => hf key (List.mem_cons_of_mem a hkey)
      simp only [entriesWith] at hrest ⊢
      simp only [List.filterMap_cons, hb, Option.map_some, List.map_cons, hrest]

/-- Under a key of the list the value is replaced, and a new key comes last. -/
theorem insertEntry_entriesWith {f : String → Option V} {keys : List String}
    (hnodup : keys.Nodup) (hf : ∀ key ∈ keys, (f key).isSome = true) (k : String) (v : V) :
    (insertEntry k v (entriesWith f keys)).2 =
      entriesWith (fun key => if key = k then some v else f key)
        (if k ∈ keys then keys else keys ++ [k]) := by
  induction keys with
  | nil => simp [entriesWith, insertEntry]
  | cons a keys ih =>
      obtain ⟨hfresh, hnodup⟩ := List.nodup_cons.mp hnodup
      obtain ⟨b, hb⟩ := Option.isSome_iff_exists.mp (hf a List.mem_cons_self)
      have hhead : entriesWith f (a :: keys) = (a, b) :: entriesWith f keys := by
        simp [entriesWith, hb]
      rw [hhead, insertEntry]
      by_cases hak : a = k
      · subst hak
        have hrest : entriesWith f keys =
            entriesWith (fun key => if key = a then some v else f key) keys := by
          apply entriesWith_congr
          intro key hkey
          rw [if_neg (ne_of_mem_of_not_mem hkey hfresh)]
        rw [if_pos rfl, if_pos List.mem_cons_self, hrest]
        simp [entriesWith]
      · have hrest := ih hnodup fun key hkey => hf key (List.mem_cons_of_mem a hkey)
        have hmem : k ∈ a :: keys ↔ k ∈ keys := by simp [Ne.symm hak]
        rw [if_neg hak]
        simp only [hrest, hmem]
        split <;> simp [entriesWith, hak, hb]

/-- The entries of a history are kept up to date by inserting into them. -/
theorem insertEntry_entriesOf (history : List (String × V)) (k : String) (v : V) :
    (insertEntry k v (entriesOf history)).2 = entriesOf (history ++ [(k, v)]) := by
  have hsome (key : String) (hkey : key ∈ (history.map Prod.fst).eraseDups) :
      (latest history key).isSome = true :=
    latest_isSome_iff.mpr (List.mem_eraseDups.mp hkey)
  have hlatest : latest (history ++ [(k, v)]) =
      fun key => if key = k then some v else latest history key :=
    funext fun key => latest_concat history k key v
  rw [entriesOf, insertEntry_entriesWith (nodup_eraseDups _) hsome, entriesOf, hlatest,
    List.map_append, List.map_singleton, eraseDups_concat]

theorem map_fst_entriesOf (history : List (String × V)) :
    (entriesOf history).map Prod.fst = (history.map Prod.fst).eraseDups :=
  map_fst_entriesWith fun _ hkey => latest_isSome_iff.mpr (List.mem_eraseDups.mp hkey)

theorem lookup_entriesWith (f : String → Option V) (keys : List String) (key : String) :
    (entriesWith f keys).lookup key = if key ∈ keys then f key else none := by
  induction keys with
  | nil => rfl
  | cons a keys ih =>
      rw [entriesWith] at ih ⊢
      rw [List.filterMap_cons]
      by_cases hak : key = a
      · subst hak
        cases hvalue : f key <;> simp [ih, hvalue]
      · have hbeq : (key == a) = false := beq_eq_false_iff_ne.mpr hak
        cases hvalue : f a <;> simp [ih, hak, List.lookup_cons, hbeq]

/-- The value that stands under a key among the entries of a history is the latest. -/
theorem lookup_entriesOf (history : List (String × V)) (key : String) :
    (entriesOf history).lookup key = latest history key := by
  rw [entriesOf, lookup_entriesWith]
  split
  · rfl
  · next hkey =>
      rw [List.mem_eraseDups, ← latest_isSome_iff, Bool.not_eq_true, Option.isSome_eq_false_iff,
        Option.isNone_iff_eq_none] at hkey
      exact hkey.symm

/-! ## Parts selected by key -/

/-- Inserting answers with the value that stands under the key. -/
theorem insertEntry_fst (k : String) (v : V) (l : List (String × V)) :
    (insertEntry k v l).1 = l.lookup k := by
  induction l with
  | nil => rfl
  | cons e l ih =>
      obtain ⟨a, b⟩ := e
      rw [insertEntry, List.lookup_cons]
      by_cases hak : a = k
      · simp [hak]
      · have hbeq : (k == a) = false := beq_eq_false_iff_ne.mpr (Ne.symm hak)
        simp only [if_neg hak, hbeq, ih]

variable (p : String → Prop) [DecidablePred p]

/-- The entries of a key are looked up in any part that selects the key. -/
theorem lookup_filter {k : String} (hk : p k) (l : List (String × V)) :
    (l.filter fun e => p e.1).lookup k = l.lookup k := by
  induction l with
  | nil => rfl
  | cons e l ih =>
      obtain ⟨a, b⟩ := e
      by_cases hak : k = a
      · subst hak
        simp [hk]
      · have hbeq : (k == a) = false := beq_eq_false_iff_ne.mpr hak
        by_cases ha : p a <;> simp [ha, List.lookup_cons, hbeq, ih]

/-- An insertion under a selected key goes to the part, and any other leaves it alone. -/
theorem filter_insertEntry (k : String) (v : V) (l : List (String × V)) :
    ((insertEntry k v l).2.filter fun e => p e.1) =
      if p k then (insertEntry k v (l.filter fun e => p e.1)).2
      else l.filter fun e => p e.1 := by
  induction l with
  | nil => by_cases hk : p k <;> simp [insertEntry, hk]
  | cons e l ih =>
      obtain ⟨a, b⟩ := e
      rw [insertEntry]
      by_cases hak : a = k
      · subst hak
        by_cases hk : p a <;> simp [insertEntry, hk]
      · rw [if_neg hak]
        by_cases ha : p a <;> by_cases hk : p k <;> simp [insertEntry, hak, ha, hk, ih]

end ValueHashing
