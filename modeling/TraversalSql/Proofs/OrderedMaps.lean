import Mathlib
import TraversalSql.OrderedMap

/-!
Ordered maps and the lists of entries they are made from.  A map finds exactly what it lists, and
it is the map of its entries.  In the map of a list the keys stand in the order in which they were
first given, each with the value that was given last.
-/

namespace TraversalSql

/-- Where no key has two entries, each entry is found under its key. -/
theorem lookup_eq_some_of_mem {κ α : Type} [BEq κ] [LawfulBEq κ] {entries : List (κ × α)}
    (hdistinct : (entries.map Prod.fst).Nodup) {entry : κ × α} (h : entry ∈ entries) :
    entries.lookup entry.1 = some entry.2 := by
  induction entries with
  | nil => exact absurd h List.not_mem_nil
  | cons first entries ih =>
      rw [List.map_cons, List.nodup_cons] at hdistinct
      rcases List.mem_cons.1 h with rfl | h
      · exact List.lookup_cons_self
      · have hne : (entry.1 == first.1) = false := by
          rw [beq_eq_false_iff_ne]
          intro hsame
          exact hdistinct.1 (hsame ▸ List.mem_map_of_mem h)
        rw [List.lookup_cons, hne]
        exact ih hdistinct.2 h

theorem nodup_eraseDups {α : Type} [BEq α] [LawfulBEq α] (values : List α) :
    values.eraseDups.Nodup := by
  match values with
  | [] => simp
  | value :: rest =>
      rw [List.eraseDups_cons, List.nodup_cons]
      refine ⟨?_, nodup_eraseDups (rest.filter fun other => !other == value)⟩
      simp [List.mem_eraseDups]
termination_by values.length
decreasing_by exact Nat.lt_succ_of_le (List.length_filter_le _ _)

namespace OrderedMap

variable {κ α β : Type} [DecidableEq κ] {m : OrderedMap κ α} {key : κ} {value : α}

theorem mem_entries_of_find? (h : m.find? key = some value) : (key, value) ∈ m.entries := by
  obtain ⟨before, after, hsplit, -⟩ := List.lookup_eq_some_iff.1 h
  rw [hsplit]
  exact List.mem_append_right _ List.mem_cons_self

/-- What is found is what is listed. -/
theorem find?_eq_some_iff : m.find? key = some value ↔ (key, value) ∈ m.entries :=
  ⟨mem_entries_of_find?, fun h => lookup_eq_some_of_mem m.nodup h⟩

theorem mem_values_of_find? (h : m.find? key = some value) : value ∈ m.values :=
  List.mem_map_of_mem (f := Prod.snd) (mem_entries_of_find? h)

theorem find?_eq_none_iff : m.find? key = none ↔ key ∉ m.keys := by
  rw [find?, List.lookup_eq_none_iff, keys, List.mem_map]
  constructor
  · rintro h ⟨entry, hentry, rfl⟩
    simpa using h entry hentry
  · intro h entry hentry
    rw [bne_iff_ne]
    exact fun hsame => h ⟨entry, hentry, hsame.symm⟩

/-- In a map with other values, what is found is the other value of what was found before. -/
theorem find?_mapValues (f : α → β) (m : OrderedMap κ α) (key : κ) :
    (m.mapValues f).find? key = (m.find? key).map f := by
  change (m.entries.map fun entry => (entry.1, f entry.2)).lookup key =
    (m.entries.lookup key).map f
  induction m.entries with
  | nil => rfl
  | cons entry entries ih =>
      rw [List.map_cons, List.lookup_cons, List.lookup_cons]
      split
      · rfl
      · exact ih

theorem store_of_not_mem {entries : List (κ × α)} (h : key ∉ entries.map Prod.fst) (value : α) :
    store key value entries = entries ++ [(key, value)] := by
  induction entries with
  | nil => rfl
  | cons entry entries ih =>
      rw [List.map_cons, List.mem_cons, not_or] at h
      rw [store, if_neg (Ne.symm h.1), ih h.2, List.cons_append]

/-- A new key goes to the end. -/
theorem entries_insert_of_find?_eq_none (h : m.find? key = none) (value : α) :
    (m.insert key value).entries = m.entries ++ [(key, value)] :=
  store_of_not_mem (find?_eq_none_iff.1 h) value

/-- A value for a key that has an entry goes where this entry is. -/
theorem entries_insert_of_getElem? {position : Nat} {old : α}
    (hentry : m.entries[position]? = some (key, old)) (value : α) :
    (m.insert key value).entries = m.entries.set position (key, value) := by
  obtain ⟨entries, h⟩ := m
  change store key value entries = entries.set position (key, value)
  induction entries generalizing position with
  | nil => simp at hentry
  | cons entry entries ih =>
      rw [List.map_cons, List.nodup_cons] at h
      cases position with
      | zero =>
          obtain rfl : entry = (key, old) := by simpa using hentry
          simp [store]
      | succ position =>
          have hrest : entries[position]? = some (key, old) := by simpa using hentry
          have hne : entry.1 ≠ key := fun hkey =>
            h.1 (hkey ▸ List.mem_map_of_mem (List.mem_of_getElem? hrest))
          simp [store, hne, ih h.2 hrest]

/-- Entries of new keys that differ are stored one after the other. -/
theorem entries_foldl_insert {entries : List (κ × α)}
    (h : (m.keys ++ entries.map Prod.fst).Nodup) :
    (entries.foldl (fun m entry => m.insert entry.1 entry.2) m).entries = m.entries ++ entries := by
  induction entries generalizing m with
  | nil => simp
  | cons entry entries ih =>
      have hnew : m.find? entry.1 = none := by
        rw [find?_eq_none_iff]
        exact fun hmem => (List.nodup_append'.1 h).2.2 hmem List.mem_cons_self
      have hentries := entries_insert_of_find?_eq_none hnew entry.2
      rw [List.foldl_cons, ih, hentries, List.append_assoc]
      · rfl
      · simpa [keys, hentries] using h

/-- A map is the map of its entries. -/
@[simp]
theorem ofList_entries (m : OrderedMap κ α) : ofList m.entries = m :=
  OrderedMap.ext (entries_foldl_insert (m := empty) m.nodup)

theorem ofList_concat (entries : List (κ × α)) (entry : κ × α) :
    ofList (entries ++ [entry]) = (ofList entries).insert entry.1 entry.2 := by
  simp [ofList]

/-- The keys stand in the order in which they were first given. -/
theorem keys_ofList (entries : List (κ × α)) :
    (ofList entries).keys = (entries.map Prod.fst).eraseDups := by
  induction entries using List.reverseRecOn with
  | nil => rfl
  | append_singleton entries entry ih =>
      rw [ofList_concat, keys_insert, ih, List.map_append, List.eraseDups_append]
      by_cases hmem : entry.1 ∈ entries.map Prod.fst
      · simp [List.mem_eraseDups, List.removeAll, hmem]
      · simp [List.mem_eraseDups, List.removeAll, List.eraseDups_cons, hmem]

/-- A key has the value that was given for it last. -/
theorem find?_ofList (entries : List (κ × α)) (key : κ) :
    (ofList entries).find? key = entries.reverse.lookup key := by
  induction entries using List.reverseRecOn with
  | nil => rfl
  | append_singleton entries entry ih =>
      rw [ofList_concat, List.reverse_concat, List.lookup_cons]
      by_cases hkey : key = entry.1
      · simp [hkey]
      · rw [find?_insert_of_ne _ hkey, ih, beq_false_of_ne hkey]

/-- There are as many keys as were given, each counted once. -/
theorem size_ofList (entries : List (κ × α)) :
    (ofList entries).size = (entries.map Prod.fst).toFinset.card := by
  have hsame : (entries.map Prod.fst).toFinset = (ofList entries).keys.toFinset := by
    ext key
    rw [List.mem_toFinset, List.mem_toFinset, keys_ofList, List.mem_eraseDups]
  rw [hsame, keys, List.toFinset_card_of_nodup (ofList entries).nodup, List.length_map, size]

/-- Add the entries of a list whose keys are new, one after the other. -/
def adjoin (m : OrderedMap κ α) (entries : List (κ × α)) : OrderedMap κ α :=
  entries.foldl (fun m entry => if m.contains entry.1 then m else m.insert entry.1 entry.2) m

@[simp]
theorem adjoin_nil (m : OrderedMap κ α) : m.adjoin [] = m := rfl

@[simp]
theorem adjoin_adjoin (m : OrderedMap κ α) (first second : List (κ × α)) :
    (m.adjoin first).adjoin second = m.adjoin (first ++ second) :=
  List.foldl_append.symm

theorem insert_eq_adjoin (h : m.find? key = none) (value : α) :
    m.insert key value = m.adjoin [(key, value)] := by
  simp [adjoin, contains, h]

/-- What was there stays, and among what is added the first value of a key counts. -/
theorem find?_adjoin (m : OrderedMap κ α) (entries : List (κ × α)) (key : κ) :
    (m.adjoin entries).find? key = (m.find? key).or (entries.lookup key) := by
  induction entries generalizing m with
  | nil => simp
  | cons entry entries ih =>
      rw [← List.singleton_append, ← adjoin_adjoin, ih, List.lookup_append, ← Option.or_assoc]
      congr 1
      obtain ⟨other, value⟩ := entry
      cases hfound : m.find? other with
      | some old =>
          by_cases hkey : key = other
          · simp [adjoin, contains, hfound, hkey]
          · simp [adjoin, contains, hfound, List.lookup_cons, beq_false_of_ne hkey]
      | none =>
          rw [← insert_eq_adjoin hfound value]
          by_cases hkey : key = other
          · simp [hkey, hfound]
          · simp [find?_insert_of_ne _ hkey, List.lookup_cons, beq_false_of_ne hkey]

end OrderedMap

end TraversalSql
