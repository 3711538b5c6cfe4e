import TraversalSql.Proofs.OrderedMaps
import TraversalSql.Proofs.Outcome
import TraversalSql.Schema.Definition

/-!
What the checks of a declaration guarantee about the schema that is made from it: tables are kept
under their own names, keys and configured edges use columns that are declared.  Foreign keys are
only counted, so the joins that they suggest are the one place where a column may be used that no
table declares.
-/

namespace TraversalSql

open Outcome

namespace Table

/-- The primary key of a table that passes its check is made of columns of the table. -/
theorem mem_columns_of_check {table : Table} (h : table.check = .ok ()) {column : String}
    (hcolumn : column ∈ table.primaryKey) : column ∈ table.columns := by
  unfold check at h
  obtain ⟨_, hkeys, -⟩ := bind_eq_ok_iff.1 h
  have hchecked := forM_eq_ok_iff.1 hkeys column hcolumn
  by_contra hnot
  simp [hasColumn, hnot] at hchecked

theorem mem_primaryKey_of_keyColumn {table : Table} {column : String}
    (h : table.keyColumn = .ok column) : column ∈ table.primaryKey := by
  unfold keyColumn at h
  split at h
  · next hkey => rw [hkey, Except.ok.inj h]; exact List.mem_singleton.2 rfl
  · exact absurd h (by simp)
  · exact absurd h (by simp)

end Table

namespace Schema

/-- A column on one side of a foreign key over one column: the column of its own table, or the
column to which it refers. -/
inductive KeySide (schema : Schema) : Table → String → Prop
  | own {table : Table} {key : ForeignKey} {column referenced : String}
      (hkey : key ∈ table.foreignKeys) (hpair : key.columnPair? = some (column, referenced)) :
      KeySide schema table column
  | referenced {table other : Table} {key : ForeignKey} {column referenced : String}
      (hother : schema.table? other.name = some other) (hkey : key ∈ other.foreignKeys)
      (htable : key.referencedTable = table.name)
      (hpair : key.columnPair? = some (column, referenced)) : KeySide schema table referenced

/-- A schema has a table, and a column that the table declares or a foreign key names. -/
structure Knows (schema : Schema) (table : Table) (column : String) : Prop where
  held : schema.table? table.name = some table
  named : column ∈ table.columns ∨ schema.KeySide table column

/-- What the checks of a schema establish. -/
structure Checked (schema : Schema) : Prop where
  /-- A table is kept under its own name. -/
  named : ∀ {name table}, schema.table? name = some table → table.name = name
  /-- A primary key is made of columns of its table. -/
  keys : ∀ {name table}, schema.table? name = some table →
    ∀ column ∈ table.primaryKey, column ∈ table.columns
  /-- An edge that is configured joins columns of its tables. -/
  edges : ∀ {typeName edgeName configured},
    schema.configuredEdge? typeName edgeName = some configured →
      schema.checkEdge typeName configured = .ok ()

variable {schema : Schema}

theorem table?_of_tableOf {typeName : String} {table : Table}
    (h : schema.tableOf typeName = .ok table) :
    schema.table? (schema.tableName typeName) = some table := by
  unfold tableOf at h
  split at h
  · next found hfound => rw [hfound, Except.ok.inj h]
  · exact absurd h (by simp)

theorem tableOf_of_table? {typeName : String} {table : Table}
    (h : schema.table? (schema.tableName typeName) = some table) :
    schema.tableOf typeName = .ok table := by
  rw [tableOf, h]

theorem exists_of_checkColumn {name column : String} (h : schema.checkColumn name column = .ok ()) :
    ∃ table, schema.table? name = some table ∧ column ∈ table.columns := by
  unfold checkColumn at h
  split at h
  · exact absurd h (by simp)
  · next table htable =>
    refine ⟨table, htable, ?_⟩
    by_contra hnot
    simp [Table.hasColumn, hnot] at h

/-- The tables declare the columns that an edge joins, from a table to a table, and a junction has
its table. -/
def Fits (schema : Schema) (source sink : Table) : Edge → Prop
  | .direct link => link.sourceColumn ∈ source.columns ∧ link.sinkColumn ∈ sink.columns
  | .junction first second =>
      first.sourceColumn ∈ source.columns ∧ second.sinkColumn ∈ sink.columns ∧
        ∃ name junction, first.tableName = some name ∧ schema.table? name = some junction ∧
          first.sinkColumn ∈ junction.columns ∧ second.sourceColumn ∈ junction.columns

/-- An edge that passes its check fits between the tables of its types. -/
theorem exists_fits_of_checkEdge {typeName : String} {configured : ConfiguredEdge}
    (h : schema.checkEdge typeName configured = .ok ()) :
    ∃ source sink, schema.tableOf typeName = .ok source ∧
      schema.tableOf configured.toVertex = .ok sink ∧
      schema.Fits source sink configured.edge := by
  unfold checkEdge at h
  simp only [throw_bind] at h
  split at h
  · exact absurd h (by simp [throw_eq_ok_iff])
  · split at h
    · next link hlink =>
      obtain ⟨_, hfirst, hlast⟩ := bind_eq_ok_iff.1 h
      obtain ⟨source, hsource, houter⟩ := exists_of_checkColumn hfirst
      obtain ⟨sink, hsink, hinner⟩ := exists_of_checkColumn hlast
      rw [hlink]
      exact ⟨source, sink, tableOf_of_table? hsource, tableOf_of_table? hsink, houter, hinner⟩
    · next first second hedge =>
      obtain ⟨_, hfirst, h⟩ := bind_eq_ok_iff.1 h
      obtain ⟨_, hlast, h⟩ := bind_eq_ok_iff.1 h
      obtain ⟨source, hsource, houter⟩ := exists_of_checkColumn hfirst
      obtain ⟨sink, hsink, hinner⟩ := exists_of_checkColumn hlast
      rw [hedge]
      refine ⟨source, sink, tableOf_of_table? hsource, tableOf_of_table? hsink, houter, hinner, ?_⟩
      split at h
      · exact absurd h (by simp [throw_eq_ok_iff])
      · next name hname =>
        obtain ⟨_, hentry, hexit⟩ := bind_eq_ok_iff.1 h
        obtain ⟨junction, hjunction, hentry⟩ := exists_of_checkColumn hentry
        obtain ⟨found, hfound, hexit⟩ := exists_of_checkColumn hexit
        obtain rfl := Option.some.inj (hjunction.symm.trans hfound)
        exact ⟨name, junction, hname, hjunction, hentry, hexit⟩

/-- The two sides of a foreign key over one column are known. -/
theorem knows_of_keysTo {table other : Table} {column referenced : String}
    (htable : schema.table? table.name = some table)
    (hother : schema.table? other.name = some other)
    (h : (column, referenced) ∈ table.keysTo other.name) :
    schema.Knows table column ∧ schema.Knows other referenced := by
  obtain ⟨key, hkey, hpair⟩ := List.mem_filterMap.1 h
  obtain ⟨hkey, hreferred⟩ := List.mem_filter.1 hkey
  exact ⟨⟨htable, .inr (.own hkey hpair)⟩,
    ⟨hother, .inr (.referenced htable hkey (by simpa using hreferred) hpair)⟩⟩

/-- The columns that an edge joins, from a table to a table, are known. -/
def EdgeKnown (schema : Schema) (source sink : Table) : Edge → Prop
  | .direct link => schema.Knows source link.sourceColumn ∧ schema.Knows sink link.sinkColumn
  | .junction first second =>
      schema.Knows source first.sourceColumn ∧ schema.Knows sink second.sinkColumn ∧
        ∀ name ∈ first.tableName, ∀ junction, schema.table? name = some junction →
          schema.Knows junction first.sinkColumn ∧ schema.Knows junction second.sourceColumn

/-- The columns that hops compare, on the way from a table to a table, are known. -/
def HopsKnown (schema : Schema) (inner : Table) : Table → List Hop → Prop
  | _, [] => True
  | outer, ⟨outerColumn, .vertex, innerColumn⟩ :: hops =>
      schema.Knows outer outerColumn ∧ schema.Knows inner innerColumn ∧
        schema.HopsKnown inner inner hops
  | outer, ⟨outerColumn, .junction name, innerColumn⟩ :: hops =>
      schema.Knows outer outerColumn ∧ ∀ junction, schema.table? name = some junction →
        schema.Knows junction innerColumn ∧ schema.HopsKnown inner junction hops

/-- Hops along an edge compare the columns that the edge joins. -/
theorem hopsKnown_outward {edge : Edge} {hops : List Hop} (h : edge.hops .outward = .ok hops)
    {outer inner : Table} (hknown : schema.EdgeKnown outer inner edge) :
    schema.HopsKnown inner outer hops := by
  cases edge with
  | direct link =>
      obtain rfl := Except.ok.inj h
      exact ⟨hknown.1, hknown.2, trivial⟩
  | junction first second =>
      obtain ⟨source, sink, tableName⟩ := first
      obtain ⟨hsource, hsink, hjunction⟩ := hknown
      cases tableName with
      | none => exact absurd h (by simp [Edge.hops])
      | some name =>
          obtain rfl := Except.ok.inj h
          refine ⟨hsource, fun junction hfound => ?_⟩
          obtain ⟨hentry, hexit⟩ := hjunction name rfl junction hfound
          exact ⟨hentry, hexit, hsink, trivial⟩

/-- Hops against an edge compare the same columns the other way round. -/
theorem hopsKnown_inward {edge : Edge} {hops : List Hop} (h : edge.hops .inward = .ok hops)
    {outer inner : Table} (hknown : schema.EdgeKnown inner outer edge) :
    schema.HopsKnown inner outer hops := by
  cases edge with
  | direct link =>
      obtain rfl := Except.ok.inj h
      exact ⟨hknown.2, hknown.1, trivial⟩
  | junction first second =>
      obtain ⟨source, sink, tableName⟩ := first
      obtain ⟨hsource, hsink, hjunction⟩ := hknown
      cases tableName with
      | none => exact absurd h (by simp [Edge.hops])
      | some name =>
          obtain rfl := Except.ok.inj h
          refine ⟨hsink, fun junction hfound => ?_⟩
          obtain ⟨hentry, hexit⟩ := hjunction name rfl junction hfound
          exact ⟨hexit, hentry, hsource, trivial⟩

end Schema

/-- An edge that foreign keys suggest joins the two sides of one of them. -/
theorem Edge.exists_key_of_infer {edgeName : String} {source sink : Table} {edge : Edge}
    (h : Edge.infer edgeName source sink = .ok edge) :
    ∃ link, edge = .direct link ∧
      ((link.sourceColumn, link.sinkColumn) ∈ source.keysTo sink.name ∨
        (link.sinkColumn, link.sourceColumn) ∈ sink.keysTo source.name) := by
  unfold Edge.infer at h
  simp only at h
  split at h
  · next link hlinks =>
    refine ⟨link, (Except.ok.inj h).symm, ?_⟩
    have hmem : link ∈ _ := hlinks ▸ List.mem_singleton.2 rfl
    rcases List.mem_append.1 hmem with hmem | hmem
    · obtain ⟨key, hkey, rfl⟩ := List.mem_map.1 hmem
      exact .inl hkey
    · split at hmem
      · exact absurd hmem List.not_mem_nil
      · obtain ⟨key, hkey, rfl⟩ := List.mem_map.1 hmem
        exact .inr hkey
  · exact absurd h (by simp)
  · exact absurd h (by simp)

namespace Schema.Checked

variable {schema : Schema} (hschema : schema.Checked)
include hschema

theorem table?_name {name : String} {table : Table} (h : schema.table? name = some table) :
    schema.table? table.name = some table := by
  rw [hschema.named h, h]

/-- The column of a field is known. -/
theorem knows_of_columnOf {typeName field column : String} {table : Table}
    (htable : schema.tableOf typeName = .ok table)
    (h : schema.columnOf typeName field = .ok column) : schema.Knows table column := by
  unfold columnOf at h
  obtain ⟨found, hfound, h⟩ := bind_eq_ok_iff.1 h
  obtain rfl := Except.ok.inj (htable.symm.trans hfound)
  simp only at h
  split at h
  · next hcolumn =>
    obtain rfl := Except.ok.inj h
    exact ⟨hschema.table?_name (table?_of_tableOf htable),
      .inl (by simpa [Table.hasColumn] using hcolumn)⟩
  · exact absurd h (by simp)

/-- The key column of a table is known. -/
theorem knows_of_keyColumn {typeName column : String} {table : Table}
    (htable : schema.tableOf typeName = .ok table) (h : table.keyColumn = .ok column) :
    schema.Knows table column :=
  have hfound := table?_of_tableOf htable
  ⟨hschema.table?_name hfound,
    .inl (hschema.keys hfound column (Table.mem_primaryKey_of_keyColumn h))⟩

/-- An edge that is configured joins known columns. -/
theorem edgeKnown_of_configuredEdge? {typeName edgeName : String} {configured : ConfiguredEdge}
    (h : schema.configuredEdge? typeName edgeName = some configured) {source sink : Table}
    (hsource : schema.tableOf typeName = .ok source)
    (hsink : schema.tableOf configured.toVertex = .ok sink) :
    schema.EdgeKnown source sink configured.edge := by
  obtain ⟨found, reached, hfound, hreached, hfits⟩ := exists_fits_of_checkEdge (hschema.edges h)
  obtain rfl := Except.ok.inj (hsource.symm.trans hfound)
  obtain rfl := Except.ok.inj (hsink.symm.trans hreached)
  have hsource := hschema.table?_name (table?_of_tableOf hsource)
  have hsink := hschema.table?_name (table?_of_tableOf hsink)
  cases hedge : configured.edge with
  | direct link =>
      rw [hedge] at hfits
      exact ⟨⟨hsource, .inl hfits.1⟩, ⟨hsink, .inl hfits.2⟩⟩
  | junction first second =>
      rw [hedge] at hfits
      obtain ⟨houter, hinner, name, junction, hname, hjunction, hentry, hexit⟩ := hfits
      refine ⟨⟨hsource, .inl houter⟩, ⟨hsink, .inl hinner⟩, fun other hother table htable => ?_⟩
      obtain rfl := Option.some.inj (hname.symm.trans hother)
      obtain rfl := Option.some.inj (hjunction.symm.trans htable)
      have hjunction := hschema.table?_name hjunction
      exact ⟨⟨hjunction, .inl hentry⟩, ⟨hjunction, .inl hexit⟩⟩

/-- The edge that a crossing uses joins known columns, whether it is configured or suggested by
foreign keys. -/
theorem edgeKnown_of_edgeBetween {outer inner : String} {traversal : Traversal} {edge : Edge}
    (h : schema.edgeBetween outer traversal inner = .ok edge) {source sink : Table}
    (hsource : schema.tableOf (orient traversal.direction outer inner).1 = .ok source)
    (hsink : schema.tableOf (orient traversal.direction outer inner).2 = .ok sink) :
    schema.EdgeKnown source sink edge := by
  unfold edgeBetween at h
  simp only at h
  split at h
  · next configured hconfigured =>
    split at h
    · next hvertex =>
      obtain rfl := Except.ok.inj h
      exact hschema.edgeKnown_of_configuredEdge? hconfigured hsource (hvertex ▸ hsink)
    · exact absurd h (by simp)
  · simp only [hsource, hsink, ok_bind] at h
    have hsource := hschema.table?_name (table?_of_tableOf hsource)
    have hsink := hschema.table?_name (table?_of_tableOf hsink)
    obtain ⟨link, rfl, hkey | hkey⟩ := Edge.exists_key_of_infer h
    · exact knows_of_keysTo hsource hsink hkey
    · exact (knows_of_keysTo hsink hsource hkey).symm

/-- The joins by which a crossing leads from one type to another compare known columns. -/
theorem hopsKnown_of_hopsBetween {outer inner : String} {traversal : Traversal} {hops : List Hop}
    (h : schema.hopsBetween outer traversal inner = .ok hops) {outerTable innerTable : Table}
    (houter : schema.tableOf outer = .ok outerTable)
    (hinner : schema.tableOf inner = .ok innerTable) :
    schema.HopsKnown innerTable outerTable hops := by
  unfold hopsBetween at h
  obtain ⟨edge, hedge, hhops⟩ := bind_eq_ok_iff.1 h
  cases hdirection : traversal.direction with
  | outward =>
      rw [hdirection] at hhops
      refine hopsKnown_outward hhops (hschema.edgeKnown_of_edgeBetween hedge ?_ ?_)
      · rwa [hdirection]
      · rwa [hdirection]
  | inward =>
      rw [hdirection] at hhops
      refine hopsKnown_inward hhops (hschema.edgeKnown_of_edgeBetween hedge ?_ ?_)
      · rwa [hdirection]
      · rwa [hdirection]

end Schema.Checked

namespace SchemaDefinition

/-- Each table of a schema to which tables are added is one of these, under its own name, or was
there before. -/
theorem mem_addTables (tables : List TableDefinition) {schema : Schema} {name : String}
    {table : Table}
    (h : (tables.foldl (fun schema table => schema.addTable table.toTable) schema).table? name =
      some table) :
    schema.table? name = some table ∨ ∃ t ∈ tables, t.name = name ∧ table = t.toTable := by
  induction tables generalizing schema with
  | nil => exact .inl h
  | cons first rest ih =>
      rcases ih h with hfound | ⟨t, ht, hname, hsame⟩
      · by_cases hname : name = first.toTable.name
        · subst hname
          have hsame := (OrderedMap.find?_insert_self _ _ _).symm.trans hfound
          exact .inr ⟨first, List.mem_cons_self, rfl, (Option.some.inj hsame).symm⟩
        · exact .inl ((OrderedMap.find?_insert_of_ne _ hname _).symm.trans hfound)
      · exact .inr ⟨t, List.mem_cons_of_mem _ ht, hname, hsame⟩

theorem tables_addVertexTypes (vertexTypes : List (String × VertexTypeDefinition))
    (schema : Schema) :
    (vertexTypes.foldl
      (fun schema (name, vertexType) => schema.addVertexType name vertexType.toVertexType)
        schema).tables = schema.tables := by
  induction vertexTypes generalizing schema with
  | nil => rfl
  | cons first rest ih => rw [List.foldl_cons, ih]; rfl

/-- The tables of the schema of a declaration are those that are declared, under their own names. -/
theorem exists_of_table?_assemble (definition : SchemaDefinition) {name : String} {table : Table}
    (h : definition.assemble.table? name = some table) :
    ∃ t ∈ definition.tables, t.name = name ∧ table = t.toTable := by
  unfold assemble Schema.table? at h
  rw [tables_addVertexTypes] at h
  refine (mem_addTables definition.tables h).resolve_left fun hnone => ?_
  exact absurd hnone (by simp [Schema.empty, Schema.table?])

theorem eq_assemble_of_toSchema {definition : SchemaDefinition} {schema : Schema}
    (h : definition.toSchema = .ok schema) :
    schema = definition.assemble ∧ definition.assemble.check = .ok () := by
  unfold toSchema at h
  obtain ⟨_, -, h⟩ := bind_eq_ok_iff.1 h
  obtain ⟨⟨⟩, hchecked, h⟩ := bind_eq_ok_iff.1 h
  exact ⟨(pure_eq_ok_iff.1 h).symm, hchecked⟩

/-- The schema of a declaration without fault has passed its checks. -/
theorem checked_of_toSchema {definition : SchemaDefinition} {schema : Schema}
    (h : definition.toSchema = .ok schema) : schema.Checked := by
  obtain ⟨rfl, hchecked⟩ := eq_assemble_of_toSchema h
  unfold Schema.check at hchecked
  obtain ⟨_, htables, hedges⟩ := bind_eq_ok_iff.1 hchecked
  refine ⟨fun {name table} htable => ?_, fun {name table} htable column hcolumn => ?_,
    fun {typeName edgeName configured} hconfigured => ?_⟩
  · obtain ⟨t, -, rfl, rfl⟩ := exists_of_table?_assemble definition htable
    rfl
  · have htable := OrderedMap.mem_values_of_find? htable
    exact Table.mem_columns_of_check (forM_eq_ok_iff.1 htables table htable) hcolumn
  · obtain ⟨vertexType, htype, hedge⟩ := Option.bind_eq_some_iff.1 hconfigured
    have hchecked := forM_eq_ok_iff.1 hedges _ (OrderedMap.mem_entries_of_find? htype)
    exact mapError_eq_ok_iff.1
      (forM_eq_ok_iff.1 hchecked _ (OrderedMap.mem_entries_of_find? hedge))

/-- A foreign key of a declaration names a column of a table: its own column, or the column to which
it refers. -/
def KeyNames (definition : SchemaDefinition) (table column : String) : Prop :=
  ∃ t ∈ definition.tables, ∃ key ∈ t.foreignKeys,
    (t.name = table ∧ key.column = column) ∨
      (key.referencesTable = table ∧ key.referencesColumn = column)

theorem exists_of_columnPair? {t : TableDefinition} {key : ForeignKey}
    (hkey : key ∈ t.toTable.foreignKeys) {column referenced : String}
    (hpair : key.columnPair? = some (column, referenced)) :
    ∃ declared ∈ t.foreignKeys, declared.column = column ∧
      declared.referencesTable = key.referencedTable ∧ declared.referencesColumn = referenced := by
  obtain ⟨declared, hdeclared, rfl⟩ := List.mem_map.1 hkey
  obtain ⟨rfl, rfl⟩ := Prod.mk.inj (Option.some.inj hpair)
  exact ⟨declared, hdeclared, rfl, rfl, rfl⟩

/-- What a schema knows is declared, or named by a foreign key that is declared. -/
theorem exists_of_knows {definition : SchemaDefinition} {table : Table} {column : String}
    (h : definition.assemble.Knows table column) :
    ∃ t ∈ definition.tables, table = t.toTable ∧
      (column ∈ t.columns ∨ definition.KeyNames t.name column) := by
  obtain ⟨t, ht, -, rfl⟩ := exists_of_table?_assemble definition h.held
  refine ⟨t, ht, rfl, h.named.imp id fun hside => ?_⟩
  generalize htable : t.toTable = table at hside
  cases hside with
  | own hkey hpair =>
      obtain ⟨declared, hdeclared, hcolumn, -, -⟩ := exists_of_columnPair? (htable ▸ hkey) hpair
      exact ⟨t, ht, declared, hdeclared, .inl ⟨rfl, hcolumn⟩⟩
  | referenced hother hkey hreferred hpair =>
      obtain ⟨other, hmem, -, rfl⟩ := exists_of_table?_assemble definition hother
      obtain ⟨declared, hdeclared, -, hsame, hcolumn⟩ := exists_of_columnPair? hkey hpair
      refine ⟨other, hmem, declared, hdeclared, .inr ⟨?_, hcolumn⟩⟩
      rw [hsame, hreferred, ← htable]
      rfl

end SchemaDefinition

end TraversalSql
