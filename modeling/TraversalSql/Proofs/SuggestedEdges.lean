import TraversalSql.Proofs.EdgeCrossings

/-!
Edges that foreign keys suggest.  Where no edge is configured, a crossing uses the foreign key over
one column between the two tables, on whichever of them it is kept.  There has to be exactly one, and
then the crossing compares its column with the column to which it refers.  Between different tables
the direction of the crossing makes no difference.
-/

namespace TraversalSql

open Outcome

namespace ForeignKey

/-- A key over one column that refers to a table. -/
def RefersTo (key : ForeignKey) (table : String) : Prop :=
  ∃ column referenced, key = .single column table referenced

theorem columnPair?_eq_some_iff {key : ForeignKey} {column referenced : String} :
    key.columnPair? = some (column, referenced) ↔
      key = .single column key.referencedTable referenced := by
  obtain ⟨columns, table, referencedColumns⟩ := key
  unfold columnPair? single
  constructor
  · intro h
    split at h
    · next found referred hcolumns hreferenced =>
      obtain ⟨rfl, rfl⟩ := Prod.mk.inj (Option.some.inj h)
      rw [mk.injEq]
      exact ⟨hcolumns, rfl, hreferenced⟩
    · exact absurd h (by simp)
  · intro h
    obtain ⟨rfl, -, rfl⟩ := (mk.injEq ..).mp h
    rfl

theorem refersTo_iff {key : ForeignKey} {table : String} :
    key.RefersTo table ↔ key.referencedTable = table ∧ key.columnPair?.isSome := by
  constructor
  · rintro ⟨column, referenced, rfl⟩
    exact ⟨rfl, rfl⟩
  · rintro ⟨rfl, h⟩
    obtain ⟨⟨column, referenced⟩, hpair⟩ := Option.isSome_iff_exists.1 h
    exact ⟨column, referenced, columnPair?_eq_some_iff.1 hpair⟩

instance (key : ForeignKey) (table : String) : Decidable (key.RefersTo table) :=
  decidable_of_iff _ refersTo_iff.symm

end ForeignKey

namespace Table

theorem mem_keysTo_iff {table : Table} {other column referenced : String} :
    (column, referenced) ∈ table.keysTo other ↔
      ForeignKey.single column other referenced ∈ table.foreignKeys := by
  unfold keysTo
  constructor
  · intro h
    obtain ⟨key, hkey, hpair⟩ := List.mem_filterMap.1 h
    obtain ⟨hkey, hother⟩ := List.mem_filter.1 hkey
    obtain rfl := of_decide_eq_true hother
    rwa [← ForeignKey.columnPair?_eq_some_iff.1 hpair]
  · intro h
    exact List.mem_filterMap.2 ⟨_, List.mem_filter.2 ⟨h, decide_eq_true rfl⟩, rfl⟩

theorem length_keysTo (table : Table) (other : String) :
    (table.keysTo other).length = table.foreignKeys.countP (·.RefersTo other) := by
  unfold keysTo
  rw [List.length_filterMap_eq_countP, List.countP_filter]
  refine List.countP_congr fun key _ => ?_
  simp [ForeignKey.refersTo_iff, and_comm]

/-- The number of foreign keys over one column between two tables, on either of them.  The keys of a
table that refer to the table itself count once. -/
def keyCount (source sink : Table) : Nat :=
  source.foreignKeys.countP (·.RefersTo sink.name) +
    if source.name = sink.name then 0 else sink.foreignKeys.countP (·.RefersTo source.name)

/-- A foreign key over one column makes a column of the source equal to a column of the
destination. -/
inductive KeyJoins (source sink : Table) : String → String → Prop
  /-- The source has the key. -/
  | forward {column referenced : String}
      (hkey : .single column sink.name referenced ∈ source.foreignKeys) :
      KeyJoins source sink column referenced
  /-- The destination has the key, and is another table. -/
  | backward {column referenced : String} (hne : source.name ≠ sink.name)
      (hkey : .single column source.name referenced ∈ sink.foreignKeys) :
      KeyJoins source sink referenced column

section

variable {source sink : Table} (hne : source.name ≠ sink.name)
include hne

/-- Between different tables it does not matter which is the source. -/
theorem keyCount_comm : source.keyCount sink = sink.keyCount source := by
  rw [keyCount, keyCount, if_neg hne, if_neg hne.symm, Nat.add_comm]

theorem KeyJoins.symm {left right : String} (h : KeyJoins source sink left right) :
    KeyJoins sink source right left := by
  cases h with
  | forward hkey => exact .backward hne.symm hkey
  | backward _ hkey => exact .forward hkey

theorem keyJoins_comm {left right : String} :
    KeyJoins source sink left right ↔ KeyJoins sink source right left :=
  ⟨KeyJoins.symm hne, KeyJoins.symm hne.symm⟩

end

end Table

namespace Edge

/-- The links that the foreign keys between two tables suggest. -/
def suggestions (source sink : Table) : List ColumnLink :=
  (source.keysTo sink.name).map (fun key => ⟨key.1, key.2, none⟩) ++
    if source.name = sink.name then []
    else (sink.keysTo source.name).map fun key => ⟨key.2, key.1, none⟩

theorem length_suggestions (source sink : Table) :
    (suggestions source sink).length = source.keyCount sink := by
  unfold suggestions Table.keyCount
  rw [List.length_append, List.length_map, Table.length_keysTo]
  split
  · rw [List.length_nil]
  · rw [List.length_map, Table.length_keysTo]

theorem mem_suggestions_iff {source sink : Table} {link : ColumnLink} :
    link ∈ suggestions source sink ↔
      source.KeyJoins sink link.sourceColumn link.sinkColumn ∧ link.tableName = none := by
  obtain ⟨left, right, tableName⟩ := link
  unfold suggestions
  rw [List.mem_append]
  constructor
  · rintro (h | h)
    · obtain ⟨⟨column, referenced⟩, hkey, hlink⟩ := List.mem_map.1 h
      obtain ⟨rfl, rfl, rfl⟩ := (ColumnLink.mk.injEq ..).mp hlink
      exact ⟨.forward (Table.mem_keysTo_iff.1 hkey), rfl⟩
    · split at h
      · exact absurd h List.not_mem_nil
      · next hne =>
        obtain ⟨⟨column, referenced⟩, hkey, hlink⟩ := List.mem_map.1 h
        obtain ⟨rfl, rfl, rfl⟩ := (ColumnLink.mk.injEq ..).mp hlink
        exact ⟨.backward hne (Table.mem_keysTo_iff.1 hkey), rfl⟩
  · rintro ⟨hjoins, rfl⟩
    cases hjoins with
    | forward hkey => exact .inl (List.mem_map.2 ⟨_, Table.mem_keysTo_iff.2 hkey, rfl⟩)
    | backward hne hkey =>
        rw [if_neg hne]
        exact .inr (List.mem_map.2 ⟨_, Table.mem_keysTo_iff.2 hkey, rfl⟩)

variable {edgeName : String} {source sink : Table}

/-- What is inferred depends on the number of suggestions. -/
theorem infer_cases (edgeName : String) (source sink : Table) :
    (source.keyCount sink = 1 ∧ ∃ link, suggestions source sink = [link] ∧
        infer edgeName source sink = .ok (.direct link)) ∨
      (source.keyCount sink = 0 ∧
        infer edgeName source sink = .error (.noForeignKey edgeName source.name sink.name)) ∨
      (1 < source.keyCount sink ∧ infer edgeName source sink =
        .error (.ambiguousForeignKey edgeName source.name sink.name (source.keyCount sink))) := by
  rw [← length_suggestions]
  unfold infer suggestions
  dsimp only
  -- What is inferred and what is counted depend on one list.
  rcases _ ++ _ with _ | ⟨link, _ | ⟨second, links⟩⟩
  · exact .inr (.inl ⟨rfl, rfl⟩)
  · exact .inl ⟨rfl, link, rfl, rfl⟩
  · exact .inr (.inr ⟨by simp, rfl⟩)

/-- An edge is inferred exactly if there is one key, and it joins the two sides of that key. -/
theorem infer_eq_ok_iff {edge : Edge} :
    infer edgeName source sink = .ok edge ↔
      source.keyCount sink = 1 ∧
        ∃ left right, source.KeyJoins sink left right ∧ edge = .direct ⟨left, right, none⟩ := by
  rcases infer_cases edgeName source sink with
    ⟨hcount, link, hlinks, h⟩ | ⟨hcount, h⟩ | ⟨hcount, h⟩
  · have hmem : ∀ other, other ∈ suggestions source sink ↔ other = link := by
      intro other
      rw [hlinks, List.mem_singleton]
    obtain ⟨hjoins, htable⟩ := mem_suggestions_iff.1 ((hmem link).2 rfl)
    rw [h, Except.ok.injEq]
    constructor
    · rintro rfl
      refine ⟨hcount, _, _, hjoins, ?_⟩
      rw [← htable]
    · rintro ⟨-, left, right, hjoins, rfl⟩
      rw [(hmem ⟨left, right, none⟩).1 (mem_suggestions_iff.2 ⟨hjoins, rfl⟩)]
  · simp [h, hcount]
  · simp [h, hcount.ne']

theorem exists_infer_eq_ok_iff :
    (∃ edge, infer edgeName source sink = .ok edge) ↔ source.keyCount sink = 1 := by
  constructor
  · rintro ⟨edge, h⟩
    exact (infer_eq_ok_iff.1 h).1
  · intro hcount
    rcases infer_cases edgeName source sink with ⟨-, link, -, h⟩ | ⟨hnone, -⟩ | ⟨hmany, -⟩
    · exact ⟨_, h⟩
    · exact absurd hcount (by omega)
    · exact absurd hcount (by omega)

theorem infer_eq_noForeignKey_iff :
    infer edgeName source sink = .error (.noForeignKey edgeName source.name sink.name) ↔
      source.keyCount sink = 0 := by
  rcases infer_cases edgeName source sink with ⟨hcount, _, -, h⟩ | ⟨hcount, h⟩ | ⟨hcount, h⟩
  · simp [h, hcount]
  · simp [h, hcount]
  · simp [h, Nat.ne_of_gt (Nat.lt_of_succ_lt hcount)]

theorem infer_eq_ambiguousForeignKey_iff {candidates : Nat} :
    infer edgeName source sink =
        .error (.ambiguousForeignKey edgeName source.name sink.name candidates) ↔
      1 < candidates ∧ source.keyCount sink = candidates := by
  rcases infer_cases edgeName source sink with ⟨hcount, _, -, h⟩ | ⟨hcount, h⟩ | ⟨hcount, h⟩
  · simp only [h, hcount, reduceCtorEq, false_iff]
    omega
  · simp only [h, hcount, Except.error.injEq, reduceCtorEq, false_iff]
    omega
  · simp only [h, Except.error.injEq, SchemaError.ambiguousForeignKey.injEq, true_and]
    omega

end Edge

/-- The source and the destination of what is crossed in a direction, from the side that is left and
the side that is reached. -/
def Direction.ends {α : Type} (direction : Direction) (outer inner : α) : α × α :=
  match direction with
  | .outward => (outer, inner)
  | .inward => (inner, outer)

namespace Schema

theorem orient_eq_ends (direction : Direction) (outer inner : String) :
    orient direction outer inner = direction.ends outer inner := by
  cases direction <;> rfl

/-- A crossing from a type to a type, over an edge from a table to a table, uses the foreign key over
one column that there is between the tables. -/
structure CrossesByKey (schema : Schema) (outer : String) (traversal : Traversal) (inner : String)
    (innerTable source sink : Table) : Prop where
  /-- An edge is found exactly if there is one key. -/
  found_iff : (∃ edge, schema.edgeBetween outer traversal inner = .ok edge) ↔
    source.keyCount sink = 1
  /-- It is an error of its own if there is none. -/
  missing_iff : schema.edgeBetween outer traversal inner =
      .error (.noForeignKey traversal.edgeName source.name sink.name) ↔
    source.keyCount sink = 0
  /-- It is another error, which says how many there are, if there are several. -/
  ambiguous_iff : ∀ candidates, schema.edgeBetween outer traversal inner =
      .error (.ambiguousForeignKey traversal.edgeName source.name sink.name candidates) ↔
    1 < candidates ∧ source.keyCount sink = candidates
  /-- The joins are a single one, which compares the two sides of the key. -/
  joins_iff : ∀ outerAlias innerAlias supply hops later,
    schema.joinPath ⟨outer, outerAlias⟩ traversal ⟨inner, innerAlias⟩ supply = (.ok hops, later) ↔
      source.keyCount sink = 1 ∧ later = supply ∧ ∃ outerColumn innerColumn,
        source.KeyJoins sink (traversal.direction.ends outerColumn innerColumn).1
          (traversal.direction.ends outerColumn innerColumn).2 ∧
        hops = [⟨innerTable.reference innerAlias, outerAlias, outerColumn, innerAlias, innerColumn⟩]

variable {schema : Schema} {outer inner edgeName : String} {outerTable innerTable : Table}
  (houter : schema.tableOf outer = .ok outerTable) (hinner : schema.tableOf inner = .ok innerTable)
  (houterEdge : schema.configuredEdge? outer edgeName = none)
  (hinnerEdge : schema.configuredEdge? inner edgeName = none)
include houter hinner houterEdge hinnerEdge

/-- An edge that is not configured is inferred. -/
theorem edgeBetween_eq_infer {direction : Direction} {source sink : Table}
    (hends : direction.ends outerTable innerTable = (source, sink)) :
    schema.edgeBetween outer ⟨edgeName, direction⟩ inner = Edge.infer edgeName source sink := by
  unfold edgeBetween
  cases direction with
  | outward =>
      obtain ⟨rfl, rfl⟩ := Prod.mk.inj hends
      simp only [orient_eq_ends, Direction.ends, houterEdge, houter, hinner, ok_bind]
  | inward =>
      obtain ⟨rfl, rfl⟩ := Prod.mk.inj hends
      simp only [orient_eq_ends, Direction.ends, hinnerEdge, houter, hinner, ok_bind]

/-- The hops over an inferred edge compare the two sides of its key. -/
theorem hopsBetween_eq_ok_iff_keyJoins {direction : Direction} {source sink : Table}
    (hends : direction.ends outerTable innerTable = (source, sink)) (hops : List Hop) :
    schema.hopsBetween outer ⟨edgeName, direction⟩ inner = .ok hops ↔
      source.keyCount sink = 1 ∧ ∃ outerColumn innerColumn,
        source.KeyJoins sink (direction.ends outerColumn innerColumn).1
          (direction.ends outerColumn innerColumn).2 ∧
        hops = [⟨outerColumn, .vertex, innerColumn⟩] := by
  unfold hopsBetween
  rw [edgeBetween_eq_infer houter hinner houterEdge hinnerEdge hends, bind_eq_ok_iff]
  simp only [Edge.infer_eq_ok_iff]
  constructor
  · rintro ⟨_, ⟨hcount, left, right, hjoins, rfl⟩, hhops⟩
    refine ⟨hcount, ?_⟩
    cases direction with
    | outward => exact ⟨left, right, hjoins, (Except.ok.inj hhops).symm⟩
    | inward => exact ⟨right, left, hjoins, (Except.ok.inj hhops).symm⟩
  · rintro ⟨hcount, outerColumn, innerColumn, hjoins, rfl⟩
    refine ⟨_, ⟨hcount, _, _, hjoins, rfl⟩, ?_⟩
    cases direction <;> rfl

theorem crossesByKey {direction : Direction} {source sink : Table}
    (hends : direction.ends outerTable innerTable = (source, sink)) :
    schema.CrossesByKey outer ⟨edgeName, direction⟩ inner innerTable source sink := by
  have hedge := edgeBetween_eq_infer houter hinner houterEdge hinnerEdge hends
  refine ⟨?_, ?_, fun candidates => ?_, fun outerAlias innerAlias supply hops later => ?_⟩
  · rw [hedge, Edge.exists_infer_eq_ok_iff]
  · rw [hedge, Edge.infer_eq_noForeignKey_iff]
  · rw [hedge, Edge.infer_eq_ambiguousForeignKey_iff]
  · have hhops := hopsBetween_eq_ok_iff_keyJoins houter hinner houterEdge hinnerEdge hends
    rw [joinPath_eq_iff]
    constructor
    · intro h
      cases h with
      | direct hfound htable =>
          obtain ⟨hcount, outerColumn, innerColumn, hjoins, hsame⟩ := (hhops _).1 hfound
          obtain rfl := Except.ok.inj (hinner.symm.trans htable)
          obtain ⟨rfl, -, rfl⟩ := (Hop.mk.injEq ..).mp (List.singleton_inj.1 hsame)
          exact ⟨hcount, rfl, _, _, hjoins, rfl⟩
      | junction hfound =>
          obtain ⟨-, _, _, -, hsame⟩ := (hhops _).1 hfound
          exact absurd (congrArg List.length hsame) (by simp)
    · rintro ⟨hcount, rfl, outerColumn, innerColumn, hjoins, rfl⟩
      exact .direct ((hhops _).2 ⟨hcount, _, _, hjoins, rfl⟩) hinner

/-- Between different tables the hops are the same in both directions. -/
theorem hopsBetween_outward_iff_inward (hne : outerTable.name ≠ innerTable.name)
    {hops : List Hop} :
    schema.hopsBetween outer ⟨edgeName, .outward⟩ inner = .ok hops ↔
      schema.hopsBetween outer ⟨edgeName, .inward⟩ inner = .ok hops := by
  rw [hopsBetween_eq_ok_iff_keyJoins houter hinner houterEdge hinnerEdge rfl,
    hopsBetween_eq_ok_iff_keyJoins houter hinner houterEdge hinnerEdge rfl,
    Table.keyCount_comm hne]
  simp only [Direction.ends, Table.keyJoins_comm hne]

variable (schema outer inner edgeName) in
/-- Keys are used where they leave no choice.  Between two types without a configured edge of some
name, a crossing finds an edge exactly if there is one foreign key over a single column between
their tables, and joins them by that key; and if the tables differ, it finds the same joins in both
directions. -/
theorem crossings_by_foreign_key :
    (∀ direction source sink, direction.ends outerTable innerTable = (source, sink) →
      schema.CrossesByKey outer ⟨edgeName, direction⟩ inner innerTable source sink) ∧
    (outerTable.name ≠ innerTable.name → ∀ hops,
      schema.hopsBetween outer ⟨edgeName, .outward⟩ inner = .ok hops ↔
        schema.hopsBetween outer ⟨edgeName, .inward⟩ inner = .ok hops) :=
  ⟨fun _ _ _ hends => crossesByKey houter hinner houterEdge hinnerEdge hends,
    fun hne _ => hopsBetween_outward_iff_inward houter hinner houterEdge hinnerEdge hne⟩

end Schema

/-- Animals with their parents and their owners, by keys over one column, and a key over two columns
that does not count. -/
def Schema.kennel : Schema :=
  let animal : Table := ⟨"animal", none, ["id", "name", "parent_id", "owner_id", "town", "street"],
    ["id"], [.single "parent_id" "animal" "id", .single "owner_id" "person" "id",
      ⟨["town", "street"], "person", ["town", "street"]⟩]⟩
  let person : Table := ⟨"person", none, ["id", "town", "street"], ["id"], []⟩
  ⟨.ofList [("animal", animal), ("person", person)], .ofList [
    ("Animal", ⟨some "animal", .empty, .empty⟩), ("Person", ⟨some "person", .empty, .empty⟩)]⟩

/-- Owners reach their animals by the key of the animals, in either direction, and animals reach each
other by a key that refers to its own table. -/
theorem Schema.crossings_by_foreign_key_kennel :
    ∃ person animal, kennel.tableOf "Person" = .ok person ∧ kennel.tableOf "Animal" = .ok animal ∧
      (∀ typeName ∈ ["Person", "Animal"], kennel.configuredEdge? typeName "keeps" = none) ∧
      person.name ≠ animal.name ∧ person.keyCount animal = 1 ∧ animal.keyCount animal = 1 ∧
      (∃ edge, kennel.edgeBetween "Animal" ⟨"keeps", .inward⟩ "Animal" = .ok edge) ∧
      kennel.hopsBetween "Person" ⟨"keeps", .outward⟩ "Animal" =
        .ok [⟨"id", .vertex, "owner_id"⟩] ∧
      kennel.hopsBetween "Person" ⟨"keeps", .inward⟩ "Animal" =
        .ok [⟨"id", .vertex, "owner_id"⟩] := by
  have hown := crossings_by_foreign_key kennel "Animal" "Animal" "keeps" rfl rfl rfl rfl
  have hkept := crossings_by_foreign_key kennel "Person" "Animal" "keeps" rfl rfl rfl rfl
  refine ⟨_, _, rfl, rfl, by decide, by decide, by decide, by decide, ?_, rfl, ?_⟩
  · exact (hown.1 .inward _ _ rfl).found_iff.2 (by decide)
  · exact (hkept.2 (by decide) _).1 rfl

end TraversalSql

