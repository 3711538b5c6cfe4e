import TraversalSql.Proofs.Binding
import TraversalSql.Proofs.QueryDocuments

/-!
Edges are crossed both ways.  An edge is kept from its source to its destination, and crossing it
inward takes its links in reverse order and swaps their sides, so the joins of the one way are the
mirror image of the joins of the other.  An edge that is configured joins in both directions as soon
as the schema has passed its checks, although these look at the edge in one direction only.
-/

namespace TraversalSql

open Outcome

def Direction.opposite : Direction → Direction
  | .outward => .inward
  | .inward => .outward

def Traversal.back (traversal : Traversal) : Traversal :=
  ⟨traversal.edgeName, traversal.direction.opposite⟩

/-- The hops that lead back over an edge: a junction is entered by the column by which it was left,
and left by the column by which it was entered. -/
def Hop.back : List Hop → List Hop
  | [⟨outer, .vertex, inner⟩] => [⟨inner, .vertex, outer⟩]
  | [⟨outer, .junction name, entry⟩, ⟨exit, .vertex, inner⟩] =>
      [⟨inner, .junction name, exit⟩, ⟨entry, .vertex, outer⟩]
  | hops => hops

/-- Crossing an edge in the other direction takes its hops backwards. -/
theorem Edge.hops_opposite (edge : Edge) (direction : Direction) :
    edge.hops direction.opposite = (edge.hops direction).map Hop.back := by
  cases edge with
  | direct link => cases direction <;> rfl
  | junction first second =>
      obtain ⟨source, sink, tableName⟩ := first
      cases tableName <;> cases direction <;> rfl

namespace Schema

/-- Both ways use the same edge. -/
theorem edgeBetween_back (schema : Schema) (outer inner : String) (traversal : Traversal) :
    schema.edgeBetween inner traversal.back outer = schema.edgeBetween outer traversal inner := by
  obtain ⟨edgeName, direction⟩ := traversal
  cases direction <;> rfl

theorem hopsBetween_back (schema : Schema) (outer inner : String) (traversal : Traversal) :
    schema.hopsBetween inner traversal.back outer =
      (schema.hopsBetween outer traversal inner).map Hop.back := by
  unfold hopsBetween
  rw [edgeBetween_back]
  cases schema.edgeBetween outer traversal inner with
  | error e => rfl
  | ok edge => exact edge.hops_opposite traversal.direction

/-- What a search for joins finds. -/
theorem joinPath_eq_iff {schema : Schema} {outer inner : BoundVertex} {traversal : Traversal}
    {hops : List JoinHop} {supply later : Sql.AliasSupply} :
    schema.joinPath outer traversal inner supply = (.ok hops, later) ↔
      JoinPath schema outer inner traversal supply hops later := by
  rw [← joinPath_eq_ok_iff]
  unfold Emit.joinPath
  rcases schema.joinPath outer traversal inner supply with ⟨_ | _, _⟩ <;> simp

end Schema

/-- Joins that are the mirror image of others: they compare the same columns in reverse order and
with the sides swapped, and they pass through the same junctions. -/
structure JoinHop.Mirrors (hops back : List JoinHop) : Prop where
  sides : back.map (fun hop => (hop.outer, hop.inner)) =
    (hops.map fun hop => (hop.inner, hop.outer)).reverse
  junctions : back.dropLast.map (fun hop => (hop.table, hop.innerAlias)) =
    hops.dropLast.map fun hop => (hop.table, hop.innerAlias)

/-- Where joins lead from a vertex to another one, their mirror image leads back. -/
theorem JoinPath.exists_back {schema : Schema} {outer inner : BoundVertex} {traversal : Traversal}
    {hops : List JoinHop} {supply later : Sql.AliasSupply}
    (h : JoinPath schema outer inner traversal supply hops later) {table : Table}
    (houter : schema.tableOf outer.typeName = .ok table) :
    ∃ back, JoinPath schema inner outer traversal.back supply back later ∧
      JoinHop.Mirrors hops back := by
  have hback := schema.hopsBetween_back outer.typeName inner.typeName traversal
  cases h with
  | direct hhops htable =>
      rw [hhops] at hback
      exact ⟨_, .direct hback houter, ⟨rfl, rfl⟩⟩
  | junction hhops hjunction htable =>
      rw [hhops] at hback
      exact ⟨_, .junction hback hjunction houter, ⟨rfl, rfl⟩⟩

/-- Animals with their parents and, by way of a junction, the places where they live. -/
def SchemaDefinition.habitat : SchemaDefinition where
  tables := [⟨"animal", none, ["id", "name", "parent_id"], ["id"], []⟩,
    ⟨"location", some "geo", ["id", "name"], ["id"], []⟩,
    ⟨"animal_location", none, ["animal_id", "location_id"], [], []⟩]
  vertexTypes := .ofList [
    ("Animal", ⟨some "animal", .empty, .ofList [
      ("parent", ⟨"Animal", "parent_id", "id", none⟩),
      ("lives_in", ⟨"location", "id", "id",
        some ⟨"animal_location", "animal_id", "location_id"⟩⟩)]⟩),
    ("location", ⟨none, .empty, .empty⟩)]

namespace Schema

/-- The joins of a crossing and those of the crossing that leads back are found together, and they
are mirror images. -/
theorem joinPath_mirrored (schema : Schema) (left right : BoundVertex)
    {leftTable rightTable : Table} (hleft : schema.tableOf left.typeName = .ok leftTable)
    (hright : schema.tableOf right.typeName = .ok rightTable) (edgeName : String)
    (supply : Sql.AliasSupply) :
    ((∃ hops later, schema.joinPath left ⟨edgeName, .outward⟩ right supply = (.ok hops, later)) ↔
      ∃ back later, schema.joinPath right ⟨edgeName, .inward⟩ left supply = (.ok back, later)) ∧
    ∀ {hops back later last},
      schema.joinPath left ⟨edgeName, .outward⟩ right supply = (.ok hops, later) →
        schema.joinPath right ⟨edgeName, .inward⟩ left supply = (.ok back, last) →
          JoinHop.Mirrors hops back ∧ later = last := by
  simp only [joinPath_eq_iff]
  refine ⟨⟨fun ⟨hops, later, h⟩ => ?_, fun ⟨back, later, h⟩ => ?_⟩, fun h hback => ?_⟩
  · obtain ⟨back, hback, -⟩ := h.exists_back hleft
    exact ⟨back, later, hback⟩
  · obtain ⟨hops, hhops, -⟩ := h.exists_back hright
    exact ⟨hops, later, hhops⟩
  · obtain ⟨found, hfound, hmirrors⟩ := h.exists_back hleft
    have hsame := (joinPath_eq_iff.2 hfound).symm.trans (joinPath_eq_iff.2 hback)
    obtain ⟨hhops, rfl⟩ := Prod.mk.inj hsame
    obtain rfl := Except.ok.inj hhops
    exact ⟨hmirrors, rfl⟩

theorem joinPath_mirrored_habitat :
    ∃ hops back later,
      SchemaDefinition.habitat.assemble.joinPath ⟨"Animal", "animal_1"⟩ ⟨"lives_in", .outward⟩
        ⟨"location", "location_1"⟩ .fresh = (.ok hops, later) ∧
      SchemaDefinition.habitat.assemble.joinPath ⟨"location", "location_1"⟩ ⟨"lives_in", .inward⟩
        ⟨"Animal", "animal_1"⟩ .fresh = (.ok back, later) ∧
      hops.length = 2 ∧ JoinHop.Mirrors hops back := by
  have hmirrored := joinPath_mirrored SchemaDefinition.habitat.assemble ⟨"Animal", "animal_1"⟩
    ⟨"location", "location_1"⟩ rfl rfl "lives_in" .fresh
  have hthere : ∃ hops later, SchemaDefinition.habitat.assemble.joinPath ⟨"Animal", "animal_1"⟩
      ⟨"lives_in", .outward⟩ ⟨"location", "location_1"⟩ .fresh = (.ok hops, later) ∧
      hops.length = 2 := ⟨_, _, rfl, rfl⟩
  obtain ⟨hops, later, hhops, hlength⟩ := hthere
  obtain ⟨back, last, hback⟩ := hmirrored.1.1 ⟨hops, later, hhops⟩
  obtain ⟨hmirrors, rfl⟩ := hmirrored.2 hhops hback
  exact ⟨hops, back, later, hhops, hback, hlength, hmirrors⟩

end Schema

/-- Joins that lead from a table under an alias to a table under an alias.  Each join starts where
the one before it ended, brings in a table of the schema, and compares columns that the tables under
its two aliases declare. -/
inductive Leads (schema : Schema) : Table → String → List JoinHop → Table → String → Prop
  | nil {table : Table} {aliasName : String} : Leads schema table aliasName [] table aliasName
  | cons {outer inner last : Table} {outerAlias innerAlias lastAlias : String}
      {outerColumn innerColumn : String} {hops : List JoinHop}
      (hheld : schema.table? inner.name = some inner) (houter : outerColumn ∈ outer.columns)
      (hinner : innerColumn ∈ inner.columns)
      (hrest : Leads schema inner innerAlias hops last lastAlias) :
      Leads schema outer outerAlias
        (⟨inner.reference innerAlias, outerAlias, outerColumn, innerAlias, innerColumn⟩ :: hops)
        last lastAlias

namespace Schema

/-- Joins that make one hop, or two by way of a junction. -/
def PassesThrough (schema : Schema) : Option String → List JoinHop → Prop
  | none, hops => hops.length = 1
  | some name, hops => ∃ junction first last, schema.table? name = some junction ∧
      hops = [first, last] ∧ first.table = junction.reference first.innerAlias

/-- From one vertex, which stands for a table, joins are found that lead to another one. -/
def Joinable (schema : Schema) (outer : BoundVertex) (outerTable : Table) (traversal : Traversal)
    (inner : BoundVertex) (innerTable : Table) (junction : Option String)
    (supply : Sql.AliasSupply) : Prop :=
  ∃ hops later, schema.joinPath outer traversal inner supply = (.ok hops, later) ∧
    Leads schema outerTable outer.aliasName hops innerTable inner.aliasName ∧
    schema.PassesThrough junction hops

variable {schema : Schema} (hschema : schema.Checked)
include hschema

section Joinable

variable {outer inner : BoundVertex} {outerTable innerTable : Table} {traversal : Traversal}
  {outerColumn innerColumn : String}

theorem joinable_of_direct
    (hhops : schema.hopsBetween outer.typeName traversal inner.typeName =
      .ok [⟨outerColumn, .vertex, innerColumn⟩])
    (hinner : schema.tableOf inner.typeName = .ok innerTable)
    (hleft : outerColumn ∈ outerTable.columns) (hreached : innerColumn ∈ innerTable.columns)
    (supply : Sql.AliasSupply) :
    schema.Joinable outer outerTable traversal inner innerTable none supply := by
  have hheld := hschema.table?_name (table?_of_tableOf hinner)
  exact ⟨_, _, joinPath_eq_iff.2 (.direct hhops hinner), .cons hheld hleft hreached .nil, rfl⟩

theorem joinable_of_junction {name entryColumn exitColumn : String} {junction : Table}
    (hhops : schema.hopsBetween outer.typeName traversal inner.typeName =
      .ok [⟨outerColumn, .junction name, entryColumn⟩, ⟨exitColumn, .vertex, innerColumn⟩])
    (hinner : schema.tableOf inner.typeName = .ok innerTable)
    (hjunction : schema.table? name = some junction) (hleft : outerColumn ∈ outerTable.columns)
    (hentry : entryColumn ∈ junction.columns) (hexit : exitColumn ∈ junction.columns)
    (hreached : innerColumn ∈ innerTable.columns) (supply : Sql.AliasSupply) :
    schema.Joinable outer outerTable traversal inner innerTable (some name) supply := by
  have hheld := hschema.table?_name (table?_of_tableOf hinner)
  have hpassed := hschema.table?_name hjunction
  refine ⟨_, _, joinPath_eq_iff.2 (.junction hhops hjunction hinner), ?_, ?_⟩
  · exact .cons hpassed hleft hentry (.cons hheld hexit hreached .nil)
  · exact ⟨junction, _, _, hjunction, rfl, rfl⟩

end Joinable

/-- An edge that is configured can be crossed both ways. -/
theorem exists_joinable {typeName edgeName : String} {configured : ConfiguredEdge}
    (h : schema.configuredEdge? typeName edgeName = some configured) :
    ∃ source sink, schema.tableOf typeName = .ok source ∧
      schema.tableOf configured.toVertex = .ok sink ∧
      ∀ (first second : String) (supply : Sql.AliasSupply),
        schema.Joinable ⟨typeName, first⟩ source ⟨edgeName, .outward⟩
            ⟨configured.toVertex, second⟩ sink configured.edge.junctionTable? supply ∧
          schema.Joinable ⟨configured.toVertex, second⟩ sink ⟨edgeName, .inward⟩
            ⟨typeName, first⟩ source configured.edge.junctionTable? supply := by
  have hhops : schema.hopsBetween typeName ⟨edgeName, .outward⟩ configured.toVertex =
      configured.edge.hops .outward := by
    simp [hopsBetween, edgeBetween, orient, h, ok_bind]
  have hback := schema.hopsBetween_back typeName configured.toVertex ⟨edgeName, .outward⟩
  rw [hhops] at hback
  obtain ⟨source, sink, hsource, hsink, hfits⟩ := exists_fits_of_checkEdge (hschema.edges h)
  refine ⟨source, sink, hsource, hsink, fun first second supply => ?_⟩
  obtain ⟨toVertex, edge⟩ := configured
  cases edge with
  | direct link =>
      obtain ⟨hleft, hreached⟩ := hfits
      exact ⟨joinable_of_direct hschema hhops hsink hleft hreached supply,
        joinable_of_direct hschema hback hsource hreached hleft supply⟩
  | junction entry exit =>
      obtain ⟨entryColumn, exitColumn, tableName⟩ := entry
      obtain ⟨hleft, hreached, name, junction, rfl, hjunction, hentry, hexit⟩ := hfits
      exact ⟨joinable_of_junction hschema hhops hsink hjunction hleft hentry hexit hreached supply,
        joinable_of_junction hschema hback hsource hjunction hreached hexit hentry hleft supply⟩

end Schema

namespace SchemaDefinition

theorem vertexTypes_addTables (tables : List TableDefinition) (schema : Schema) :
    (tables.foldl (fun schema table => schema.addTable table.toTable) schema).vertexTypes =
      schema.vertexTypes := by
  induction tables generalizing schema with
  | nil => rfl
  | cons first rest ih => rw [List.foldl_cons, ih]; rfl

theorem vertexTypes_addVertexTypes (entries : List (String × VertexTypeDefinition))
    (schema : Schema) :
    (entries.foldl
      (fun schema (name, vertexType) => schema.addVertexType name vertexType.toVertexType)
        schema).vertexTypes =
      (entries.map fun entry => (entry.1, entry.2.toVertexType)).foldl
        (fun m entry => m.insert entry.1 entry.2) schema.vertexTypes := by
  induction entries generalizing schema with
  | nil => rfl
  | cons first rest ih => rw [List.foldl_cons, ih]; rfl

/-- The vertex types of a schema are those that are declared. -/
theorem vertexTypes_assemble (definition : SchemaDefinition) :
    definition.assemble.vertexTypes =
      definition.vertexTypes.mapValues VertexTypeDefinition.toVertexType := by
  unfold assemble
  rw [vertexTypes_addVertexTypes, vertexTypes_addTables]
  exact OrderedMap.ofList_entries
    (definition.vertexTypes.mapValues VertexTypeDefinition.toVertexType)

/-- An edge that is declared on a type is configured there. -/
theorem configuredEdge?_assemble {definition : SchemaDefinition} {typeName edgeName : String}
    {vertexType : VertexTypeDefinition} {edge : EdgeDefinition}
    (htype : definition.vertexTypes.find? typeName = some vertexType)
    (hedge : vertexType.edges.find? edgeName = some edge) :
    definition.assemble.configuredEdge? typeName edgeName = some ⟨edge.toVertex, edge.toEdge⟩ := by
  have hfound : definition.assemble.vertexType? typeName = some vertexType.toVertexType := by
    rw [Schema.vertexType?, vertexTypes_assemble, OrderedMap.find?_mapValues, htype]
    rfl
  have hedges : vertexType.toVertexType.edges.find? edgeName =
      some ⟨edge.toVertex, edge.toEdge⟩ := by
    rw [VertexTypeDefinition.toVertexType, OrderedMap.find?_mapValues, hedge]
    rfl
  rw [Schema.configuredEdge?, hfound]
  exact hedges

theorem junctionTable?_toEdge (edge : EdgeDefinition) :
    edge.toEdge.junctionTable? = edge.junction.map JunctionDefinition.table := by
  unfold EdgeDefinition.toEdge
  cases edge.junction <;> rfl

/-- The table of a type of the schema of a declaration is one that is declared. -/
theorem exists_of_tableOf_assemble (definition : SchemaDefinition) {typeName : String}
    {table : Table} (h : definition.assemble.tableOf typeName = .ok table) :
    ∃ t ∈ definition.tables, table = t.toTable := by
  obtain ⟨t, ht, -, hsame⟩ := exists_of_table?_assemble definition (Schema.table?_of_tableOf h)
  exact ⟨t, ht, hsame⟩

/-- Edges of a declaration without fault join both ways.  For an edge that is declared on a type,
joins are found from the type to the destination of the edge and back, whatever the aliases and the
names that were taken before.  There is one hop, or there are two if the edge has a junction, to
which the first one leads; and each hop compares columns that are declared on the tables under its
two aliases. -/
theorem declared_edges_join {definition : SchemaDefinition} {schema : Schema}
    (hschema : definition.toSchema = .ok schema) {typeName edgeName : String}
    {vertexType : VertexTypeDefinition} {edge : EdgeDefinition}
    (htype : definition.vertexTypes.find? typeName = some vertexType)
    (hedge : vertexType.edges.find? edgeName = some edge) :
    ∃ source ∈ definition.tables, ∃ sink ∈ definition.tables,
      schema.tableOf typeName = .ok source.toTable ∧
      schema.tableOf edge.toVertex = .ok sink.toTable ∧
      ∀ (first second : String) (supply : Sql.AliasSupply),
        schema.Joinable ⟨typeName, first⟩ source.toTable ⟨edgeName, .outward⟩
            ⟨edge.toVertex, second⟩ sink.toTable (edge.junction.map JunctionDefinition.table)
            supply ∧
          schema.Joinable ⟨edge.toVertex, second⟩ sink.toTable ⟨edgeName, .inward⟩
            ⟨typeName, first⟩ source.toTable (edge.junction.map JunctionDefinition.table)
            supply := by
  have hchecked := checked_of_toSchema hschema
  obtain ⟨rfl, -⟩ := eq_assemble_of_toSchema hschema
  obtain ⟨source, sink, hsource, hsink, hjoinable⟩ :=
    Schema.exists_joinable hchecked (configuredEdge?_assemble htype hedge)
  obtain ⟨first, hfirst, rfl⟩ := exists_of_tableOf_assemble definition hsource
  obtain ⟨last, hlast, rfl⟩ := exists_of_tableOf_assemble definition hsink
  rw [junctionTable?_toEdge] at hjoinable
  exact ⟨first, hfirst, last, hlast, hsource, hsink, hjoinable⟩

theorem declared_edges_join_habitat :
    ∃ vertexType edge, habitat.toSchema = .ok habitat.assemble ∧
      habitat.vertexTypes.find? "Animal" = some vertexType ∧
      vertexType.edges.find? "lives_in" = some edge ∧
      ∃ source ∈ habitat.tables, ∃ sink ∈ habitat.tables,
        habitat.assemble.Joinable ⟨"Animal", "animal_1"⟩ source.toTable ⟨"lives_in", .outward⟩
            ⟨"location", "location_1"⟩ sink.toTable (some "animal_location") .fresh ∧
          habitat.assemble.Joinable ⟨"location", "location_1"⟩ sink.toTable ⟨"lives_in", .inward⟩
            ⟨"Animal", "animal_1"⟩ source.toTable (some "animal_location") .fresh := by
  have hschema : habitat.toSchema = .ok habitat.assemble := by cbv
  have htype : ∃ vertexType edge, habitat.vertexTypes.find? "Animal" = some vertexType ∧
      vertexType.edges.find? "lives_in" = some edge ∧ edge.toVertex = "location" ∧
      edge.junction.map JunctionDefinition.table = some "animal_location" :=
    ⟨_, _, rfl, rfl, rfl, rfl⟩
  obtain ⟨vertexType, edge, htype, hedge, hvertex, hjunction⟩ := htype
  obtain ⟨source, hsource, sink, hsink, -, -, hjoinable⟩ :=
    declared_edges_join hschema htype hedge
  rw [hvertex, hjunction] at hjoinable
  exact ⟨vertexType, edge, hschema, htype, hedge, source, hsource, sink, hsink,
    hjoinable _ _ _⟩

end SchemaDefinition

end TraversalSql
