import TraversalSql.Proofs.QueryDocuments

/-!
Type tables that are kept as a vector of rows, with a hashed index that says where the row of each
location is.  Rows get in by two ways, a list that is loaded and locations that are registered, and
either way changes the vector and the index one after the other.  Whatever is loaded and registered,
the two stay in step: the index leads to the one row of each location and nowhere else, and the rows
are the entries of the type table.  So a table has one entry for each location that was given, in
the order in which they were first given, each with what was given last.
-/

namespace TraversalSql

namespace TypeTable

/-- What is declared by registering a type at a location. -/
def registration (entry : Location × String) : Location × Declared :=
  (entry.1, ⟨entry.2, entry.1.parent?⟩)

def registerAll (table : TypeTable) (registered : List (Location × String)) : TypeTable :=
  registered.foldl (fun table entry => table.register entry.1 entry.2) table

/-- To register types is to go on with the list of what they declare. -/
theorem registerAll_ofList (loaded : List (Location × Declared))
    (registered : List (Location × String)) :
    (ofList loaded).registerAll registered = ofList (loaded ++ registered.map registration) := by
  induction registered using List.reverseRecOn with
  | nil => simp [registerAll]
  | append_singleton registered entry ih =>
      have hrest : (ofList loaded).registerAll (registered ++ [entry]) =
          ((ofList loaded).registerAll registered).register entry.1 entry.2 := by
        simp [registerAll]
      rw [hrest, ih, List.map_append, ← List.append_assoc, List.map_singleton, ofList, ofList,
        OrderedMap.ofList_concat]
      rfl

end TypeTable

deriving instance Hashable for Location

/-- The position of a row that is not there. -/
structure StalePosition where
  position : Nat
  size : Nat
deriving DecidableEq, Repr

/-- A type table as a vector of rows and an index of their positions. -/
structure IndexedTable where
  rows : Array (Location × Declared)
  index : Std.ExtHashMap Location Nat

namespace IndexedTable

open Outcome

def empty : IndexedTable := ⟨#[], ∅⟩

/-- Put a row in the place of the one at a position. -/
def replace (table : IndexedTable) (position : Nat) (row : Location × Declared) :
    Except StalePosition IndexedTable :=
  if h : position < table.rows.size then
    .ok { table with rows := table.rows.set position row h }
  else
    .error ⟨position, table.rows.size⟩

/-- Load a row.  The position of its location is written into the index in any case. -/
def load (table : IndexedTable) (row : Location × Declared) :
    Except StalePosition IndexedTable := do
  let (stored, position) ← match table.index[row.1]? with
    | some position => (·, position) <$> table.replace position row
    | none =>
        let pushed := { table with rows := table.rows.push row }
        .ok (pushed, pushed.rows.size - 1)
  return { stored with index := stored.index.insert row.1 position }

/-- Declare the type at a location, which is reached from the location one step back.  The index
is written only if the location is new. -/
def register (table : IndexedTable) (location : Location) (typeName : String) :
    Except StalePosition IndexedTable :=
  let row := (location, ⟨typeName, location.parent?⟩)
  match table.index[location]? with
  | some position => table.replace position row
  | none => .ok {
      index := table.index.insert location table.rows.size
      rows := table.rows.push row }

/-- The row of a location, at the position where the index has it. -/
def get (table : IndexedTable) (location : Location) :
    Except StalePosition (Option (Location × Declared)) :=
  match table.index[location]? with
  | some position =>
      match table.rows[position]? with
      | some row => .ok (some row)
      | none => .error ⟨position, table.rows.size⟩
  | none => .ok none

def ofList (rows : List (Location × Declared)) : Except StalePosition IndexedTable :=
  rows.foldlM load empty

def registerAll (table : IndexedTable) (registered : List (Location × String)) :
    Except StalePosition IndexedTable :=
  registered.foldlM (fun table entry => table.register entry.1 entry.2) table

/-- The index gives for each location the position of its one row, and nothing else. -/
def InStep (table : IndexedTable) : Prop :=
  ∀ (location : Location) (position : Nat), table.index[location]? = some position ↔
    ∃ declared, table.rows[position]? = some (location, declared)

variable {table : IndexedTable} {position : Nat}

/-- A row of a location that has one takes its place; the index is what it was. -/
theorem load_of_some (row : Location × Declared) (h : table.index[row.1]? = some position) :
    table.load row = table.replace position row := by
  -- The position that is written is the one that was read.
  have hindex : table.index.insert row.1 position = table.index := by
    refine Std.ExtHashMap.ext_getElem? fun location => ?_
    rw [Std.ExtHashMap.getElem?_insert]
    split
    · next hsame => rw [← eq_of_beq hsame, h]
    · rfl
  unfold load replace
  rw [h]
  by_cases hlt : position < table.rows.size
  · simp [hlt, hindex, ok_bind, pure, Except.pure, Functor.map, Except.map]
  · simp [hlt, Functor.map, Except.map, bind, Except.bind]

/-- A row of another location goes to the end. -/
theorem load_of_none (row : Location × Declared) (h : table.index[row.1]? = none) :
    table.load row = .ok ⟨table.rows.push row, table.index.insert row.1 table.rows.size⟩ := by
  unfold load
  rw [h]
  simp [ok_bind, pure, Except.pure]

/-- The two ways into a table are one: to register a type is to load what it declares. -/
theorem register_eq_load (table : IndexedTable) (entry : Location × String) :
    table.register entry.1 entry.2 = table.load (TypeTable.registration entry) := by
  unfold register
  cases h : table.index[entry.1]? with
  | some position => exact (load_of_some (TypeTable.registration entry) h).symm
  | none => exact (load_of_none (TypeTable.registration entry) h).symm

/-- To load rows and then register types is to load all that is declared. -/
theorem registerAll_ofList (loaded : List (Location × Declared))
    (registered : List (Location × String)) :
    (ofList loaded >>= fun table => table.registerAll registered) =
      ofList (loaded ++ registered.map TypeTable.registration) := by
  simp only [ofList, registerAll, register_eq_load, List.foldlM_append, List.foldlM_map]

namespace InStep

theorem empty : IndexedTable.empty.InStep := by
  intro location position
  simp [IndexedTable.empty]

theorem getElem?_map_fst_iff (h : table.InStep) {location : Location} :
    (table.rows.toList.map Prod.fst)[position]? = some location ↔
      table.index[location]? = some position := by
  simp [h location position]

/-- No location has two rows. -/
theorem nodup (h : table.InStep) : (table.rows.toList.map Prod.fst).Nodup := by
  rw [List.nodup_iff_getElem?_ne_getElem?]
  intro first second hlt hsecond hsame
  -- Two rows of one location would both be at the position that the index gives for it.
  have hrow := List.getElem?_eq_getElem hsecond
  have hfirst := h.getElem?_map_fst_iff.1 (hsame.trans hrow)
  rw [h.getElem?_map_fst_iff.1 hrow, Option.some.injEq] at hfirst
  omega

/-- The rows of a table in step are an ordered map. -/
def entries (h : table.InStep) : OrderedMap Location Declared := ⟨table.rows.toList, h.nodup⟩

theorem find?_eq_none (h : table.InStep) {location : Location}
    (hnone : table.index[location]? = none) : h.entries.find? location = none := by
  rw [OrderedMap.find?_eq_none_iff]
  intro hmem
  obtain ⟨position, hposition⟩ := List.mem_iff_getElem?.1 hmem
  rw [OrderedMap.keys, entries, h.getElem?_map_fst_iff, hnone] at hposition
  exact absurd hposition (by simp)

/-- What is read through the index is what the rows have for the location. -/
theorem get_eq (h : table.InStep) (location : Location) :
    table.get location = .ok ((h.entries.find? location).map (location, ·)) := by
  unfold get
  cases hindex : table.index[location]? with
  | none => simp [h.find?_eq_none hindex]
  | some position =>
      obtain ⟨declared, hrow⟩ := (h location position).1 hindex
      have hfind : h.entries.find? location = some declared := by
        rw [OrderedMap.find?_eq_some_iff]
        exact List.mem_of_getElem? (i := position) (by simpa [entries] using hrow)
      simp [hrow, hfind]

/-- A vector of rows has one index. -/
theorem unique {other : IndexedTable} (h : table.InStep) (hother : other.InStep)
    (hrows : table.rows = other.rows) : table = other := by
  obtain ⟨rows, index⟩ := table
  obtain ⟨_, other⟩ := other
  obtain rfl : rows = _ := hrows
  have hindex : index = other := by
    refine Std.ExtHashMap.ext_getElem? fun location => Option.ext fun position => ?_
    exact (h location position).trans (hother location position).symm
  rw [hindex]

/-- A row may take the place of one of the same location. -/
theorem set (h : table.InStep) {row : Location × Declared} (hlt : position < table.rows.size)
    (hindex : table.index[row.1]? = some position) :
    InStep { table with rows := table.rows.set position row hlt } := by
  intro location other
  obtain ⟨old, hold⟩ := (h row.1 position).1 hindex
  rw [h location other, Array.getElem?_set]
  by_cases hother : position = other
  · subst hother
    simp [hold, Prod.ext_iff]
  · simp [hother]

/-- A row of a new location may go to the end. -/
theorem push (h : table.InStep) {row : Location × Declared} (hnone : table.index[row.1]? = none) :
    InStep ⟨table.rows.push row, table.index.insert row.1 table.rows.size⟩ := by
  intro location position
  have hold := h location position
  rw [Std.ExtHashMap.getElem?_insert, Array.getElem?_push]
  by_cases hlocation : row.1 = location
  · subst hlocation
    have hnew : ∀ declared, table.rows[position]? ≠ some (row.1, declared) := by
      intro declared hrow
      have hsome := hold.2 ⟨declared, hrow⟩
      simp [hnone] at hsome
    by_cases hposition : position = table.rows.size
    · simp [hposition, Prod.ext_iff]
    · simp [hposition, hnew, Ne.symm hposition]
  · by_cases hposition : position = table.rows.size
    · subst hposition
      simpa [hlocation, Prod.ext_iff] using hold
    · simpa [hlocation, hposition] using hold

/-- One row keeps a table in step, and does to its rows what it does to an ordered map. -/
theorem load (h : table.InStep) (row : Location × Declared) :
    ∃ after, table.load row = .ok after ∧ ∃ hafter : after.InStep,
      hafter.entries = h.entries.insert row.1 row.2 := by
  cases hindex : table.index[row.1]? with
  | some position =>
      obtain ⟨old, hold⟩ := (h row.1 position).1 hindex
      obtain ⟨hlt, -⟩ := Array.getElem?_eq_some_iff.1 hold
      refine ⟨{ table with rows := table.rows.set position row hlt }, ?_, h.set hlt hindex, ?_⟩
      · rw [load_of_some row hindex, replace, dif_pos hlt]
      · have hentry : h.entries.entries[position]? = some (row.1, old) := by
          simpa [entries] using hold
        apply OrderedMap.ext
        rw [OrderedMap.entries_insert_of_getElem? hentry]
        simp [entries]
  | none =>
      refine ⟨_, load_of_none row hindex, h.push hindex, ?_⟩
      apply OrderedMap.ext
      rw [OrderedMap.entries_insert_of_find?_eq_none (h.find?_eq_none hindex)]
      simp [entries]

end InStep

/-- Rows can always be loaded, whichever come and how often: the table stays in step and has the
entries of the ordered map. -/
theorem exists_ofList (rows : List (Location × Declared)) :
    ∃ table, ofList rows = .ok table ∧ ∃ h : table.InStep, h.entries = .ofList rows := by
  induction rows using List.reverseRecOn with
  | nil => exact ⟨empty, rfl, .empty, rfl⟩
  | append_singleton rows row ih =>
      obtain ⟨table, htable, hstep, hentries⟩ := ih
      obtain ⟨after, hafter, hstep, hafterEntries⟩ := hstep.load row
      refine ⟨after, ?_, hstep, ?_⟩
      · have hload : ofList (rows ++ [row]) = ofList rows >>= fun table => table.load row := by
          simp [ofList, List.foldlM_append]
        rw [hload, htable, ok_bind, hafter]
      · rw [hafterEntries, hentries, OrderedMap.ofList_concat]

/-- A table in step is loaded again from the list of its rows. -/
theorem InStep.ofList_rows (h : table.InStep) : ofList table.rows.toList = .ok table := by
  obtain ⟨again, hload, hagain, hentries⟩ := exists_ofList table.rows.toList
  have hsame : hagain.entries = h.entries :=
    hentries.trans (OrderedMap.ofList_entries h.entries)
  have hrows : again.rows = table.rows :=
    Array.toList_inj.1 (congrArg OrderedMap.entries hsame)
  rw [hload, hagain.unique h hrows]

/-- What a type table and its indexed form record of the declarations that were given one after the
other. -/
structure Records (indexed : IndexedTable) (given : List (Location × Declared))
    (table : TypeTable) : Prop where
  /-- The rows are the entries of the table. -/
  rows : indexed.rows.toList = table.toList
  /-- The index gives for each location the position of its one row, and nothing else. -/
  index : indexed.InStep
  /-- There is one entry for each location that was given. -/
  size : indexed.rows.size = (given.map Prod.fst).toFinset.card ∧
    table.size = (given.map Prod.fst).toFinset.card
  /-- The locations are listed in the order in which they were first given. -/
  order : table.toList.map Prod.fst = (given.map Prod.fst).eraseDups
  /-- What is found for a location was given last for it. -/
  last : ∀ location, table.find? location = given.reverse.lookup location ∧
    indexed.get location = .ok ((given.reverse.lookup location).map (location, ·))
  /-- The list of its entries is loaded as the same table. -/
  again : ofList indexed.rows.toList = .ok indexed ∧ TypeTable.ofList table.toList = table

/-- A type table is a map that remembers the order in which its locations were first given.
Whatever is loaded and then registered, no position in the index is ever stale, the index and the
rows stay in step, and the rows are the entries of the type table. -/
theorem records_given (loaded : List (Location × Declared))
    (registered : List (Location × String)) :
    ∃ indexed, (ofList loaded >>= fun table => table.registerAll registered) = .ok indexed ∧
      indexed.Records (loaded ++ registered.map TypeTable.registration)
        ((TypeTable.ofList loaded).registerAll registered) := by
  rw [registerAll_ofList, TypeTable.registerAll_ofList]
  generalize loaded ++ registered.map TypeTable.registration = given
  obtain ⟨indexed, hindexed, hstep, hentries⟩ := exists_ofList given
  refine ⟨indexed, hindexed, ?_⟩
  constructor
  case rows => exact congrArg OrderedMap.entries hentries
  case index => exact hstep
  case size =>
    have hsize := OrderedMap.size_ofList given
    refine ⟨?_, hsize⟩
    rw [← hsize, ← hentries]
    simp [InStep.entries, OrderedMap.size]
  case order => exact OrderedMap.keys_ofList given
  case last =>
    intro location
    have hfind := OrderedMap.find?_ofList given location
    exact ⟨hfind, by rw [hstep.get_eq, hentries, hfind]⟩
  case again =>
    refine ⟨hstep.ofList_rows, ?_⟩
    exact congrArg TypeTable.mk (OrderedMap.ofList_entries (.ofList given))

-- A location that is registered again keeps its place, but not the parent with which it was loaded.
example :
    ((TypeTable.ofList [
      (⟨["Animal", "out_child"]⟩, ⟨"Plant", some ⟨["Plant"]⟩⟩),
      (⟨["Animal"]⟩, ⟨"Animal", none⟩)]).register ⟨["Animal", "out_child"]⟩ "Animal").toList = [
        (⟨["Animal", "out_child"]⟩, ⟨"Animal", some ⟨["Animal"]⟩⟩),
        (⟨["Animal"]⟩, ⟨"Animal", none⟩)] := by
  decide

end IndexedTable

end TraversalSql
