/-!
Finite maps that remember the order in which their keys were first given.  A later value for a
present key takes the place of the earlier one, so every key has at most one entry.
-/

namespace TraversalSql

universe u v w

variable {κ : Type u} {α : Type v} {β : Type w}

/-- A finite map kept as a list of entries in the order of first insertion, one for each key. -/
@[ext]
structure OrderedMap (κ : Type u) (α : Type v) where
  entries : List (κ × α)
  nodup : (entries.map Prod.fst).Nodup
deriving DecidableEq, Repr

namespace OrderedMap

def empty : OrderedMap κ α := ⟨[], .nil⟩

instance : Inhabited (OrderedMap κ α) := ⟨empty⟩

def keys (m : OrderedMap κ α) : List κ := m.entries.map Prod.fst

def values (m : OrderedMap κ α) : List α := m.entries.map Prod.snd

def size (m : OrderedMap κ α) : Nat := m.entries.length

def isEmpty (m : OrderedMap κ α) : Bool := m.entries.isEmpty

/-- The map with other values under the same keys. -/
def mapValues (f : α → β) (m : OrderedMap κ α) : OrderedMap κ β where
  entries := m.entries.map fun entry => (entry.1, f entry.2)
  nodup := by
    rw [List.map_map]
    exact m.nodup

variable [DecidableEq κ]

/-- Store `value` under `key`: in place if the key is present, at the end otherwise. -/
def store (key : κ) (value : α) : List (κ × α) → List (κ × α)
  | [] => [(key, value)]
  | (k, old) :: rest =>
      if k = key then (key, value) :: rest else (k, old) :: store key value rest

private theorem keys_store (key : κ) (value : α) (entries : List (κ × α)) :
    (store key value entries).map Prod.fst =
      if key ∈ entries.map Prod.fst then entries.map Prod.fst
      else entries.map Prod.fst ++ [key] := by
  induction entries with
  | nil => simp [store]
  | cons entry rest ih =>
      by_cases h : entry.1 = key
      · subst h
        simp [store]
      · rw [store, if_neg h, List.map_cons, ih]
        have hkey : key ≠ entry.1 := fun e => h e.symm
        by_cases hmem : key ∈ rest.map Prod.fst
        · simp only [hmem, List.map_cons, List.mem_cons, or_true, if_true]
        · simp only [hmem, List.map_cons, List.mem_cons, hkey, or_self, if_false,
            List.cons_append]

theorem nodup_store {entries : List (κ × α)} (h : (entries.map Prod.fst).Nodup) (key : κ)
    (value : α) : ((store key value entries).map Prod.fst).Nodup := by
  rw [keys_store]
  split
  · exact h
  · next hnew =>
    rw [List.nodup_append]
    refine ⟨h, by simp, fun other hother last hlast hsame => hnew ?_⟩
    rw [← List.mem_singleton.1 hlast, ← hsame]
    exact hother

def find? (m : OrderedMap κ α) (key : κ) : Option α := m.entries.lookup key

def contains (m : OrderedMap κ α) (key : κ) : Bool := (m.find? key).isSome

def insert (m : OrderedMap κ α) (key : κ) (value : α) : OrderedMap κ α :=
  ⟨store key value m.entries, nodup_store m.nodup key value⟩

/-- The map of a list of entries, in which the last value of a repeated key wins. -/
def ofList (entries : List (κ × α)) : OrderedMap κ α :=
  entries.foldl (fun m entry => m.insert entry.1 entry.2) empty

@[simp]
theorem find?_empty (key : κ) : (empty : OrderedMap κ α).find? key = none := rfl

private theorem lookup_store_self (key : κ) (value : α) (entries : List (κ × α)) :
    (store key value entries).lookup key = some value := by
  induction entries with
  | nil => simp [store]
  | cons entry rest ih =>
      obtain ⟨k, old⟩ := entry
      by_cases h : k = key
      · simp [store, h]
      · simp [store, h, List.lookup_cons, beq_false_of_ne (Ne.symm h), ih]

private theorem lookup_store_of_ne {key other : κ} (hne : other ≠ key) (value : α)
    (entries : List (κ × α)) :
    (store key value entries).lookup other = entries.lookup other := by
  induction entries with
  | nil => simp [store, List.lookup_cons, beq_false_of_ne hne]
  | cons entry rest ih =>
      obtain ⟨k, old⟩ := entry
      by_cases h : k = key
      · simp [store, List.lookup_cons, h, beq_false_of_ne hne]
      · simp [store, List.lookup_cons, h, ih]

/-- A stored value is found under its key. -/
@[simp]
theorem find?_insert_self (m : OrderedMap κ α) (key : κ) (value : α) :
    (m.insert key value).find? key = some value :=
  lookup_store_self key value m.entries

/-- Storing under one key leaves every other key alone. -/
theorem find?_insert_of_ne (m : OrderedMap κ α) {key other : κ} (hne : other ≠ key)
    (value : α) :
    (m.insert key value).find? other = m.find? other :=
  lookup_store_of_ne hne value m.entries

/-- A present key keeps its place and a new key goes to the end. -/
theorem keys_insert (m : OrderedMap κ α) (key : κ) (value : α) :
    (m.insert key value).keys = if key ∈ m.keys then m.keys else m.keys ++ [key] :=
  keys_store key value m.entries

end OrderedMap

end TraversalSql
