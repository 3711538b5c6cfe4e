import TraversalSql.Document
import TraversalSql.Schema

/-!
The documents in which tables, edges and schemas are exchanged.
-/

namespace TraversalSql

namespace ForeignKey

def ofDocument? (d : Document) : Option ForeignKey := do
  let fields ← d.record? ["columns", "referenced_table", "referenced_columns"]
  let texts := Document.listOf? Document.text?
  return ⟨← Document.required? fields "columns" texts,
    ← Document.required? fields "referenced_table" Document.text?,
    ← Document.required? fields "referenced_columns" texts⟩

def toDocument (key : ForeignKey) : Document :=
  .object [("columns", .ofTexts key.columns), ("referenced_table", .text key.referencedTable),
    ("referenced_columns", .ofTexts key.referencedColumns)]

end ForeignKey

namespace Table

/-- Read a table; its schema and keys may be missing. -/
def ofDocument? (d : Document) : Option Table := do
  let fields ← d.record? ["name", "schema", "columns", "primary_key", "foreign_keys"]
  let texts := Document.listOf? Document.text?
  return {
    name := ← Document.required? fields "name" Document.text?
    qualifier := ← Document.optional? fields "schema" Document.text?
    columns := ← Document.required? fields "columns" texts
    primaryKey := ← Document.defaulted? fields "primary_key" texts []
    foreignKeys := ←
      Document.defaulted? fields "foreign_keys" (Document.listOf? ForeignKey.ofDocument?) [] }

def toDocument (table : Table) : Document :=
  .object [("name", .text table.name), ("schema", .ofOption .text table.qualifier),
    ("columns", .ofTexts table.columns), ("primary_key", .ofTexts table.primaryKey),
    ("foreign_keys", .list (table.foreignKeys.map ForeignKey.toDocument))]

end Table

namespace ColumnLink

def ofDocument? (d : Document) : Option ColumnLink := do
  let fields ← d.record? ["source_column", "sink_column", "table_name"]
  return ⟨← Document.required? fields "source_column" Document.text?,
    ← Document.required? fields "sink_column" Document.text?,
    ← Document.optional? fields "table_name" Document.text?⟩

def toDocument (link : ColumnLink) : Document :=
  .object [("source_column", .text link.sourceColumn), ("sink_column", .text link.sinkColumn),
    ("table_name", .ofOption .text link.tableName)]

end ColumnLink

namespace Edge

def ofDocument? : Document → Option Edge
  | .object [("Basic", value)] => (ColumnLink.ofDocument? value).map .direct
  | .object [("Multi", value)] => do
      let fields ← value.record? ["junction_edge", "final_edge"]
      return .junction (← Document.required? fields "junction_edge" ColumnLink.ofDocument?)
        (← Document.required? fields "final_edge" ColumnLink.ofDocument?)
  | _ => none

def toDocument : Edge → Document
  | .direct link => .object [("Basic", link.toDocument)]
  | .junction first second => .object [("Multi",
      .object [("junction_edge", first.toDocument), ("final_edge", second.toDocument)])]

end Edge

namespace Hop

def toDocument (hop : Hop) : Document :=
  let target := match hop.target with
    | .vertex => Document.text "Vertex"
    | .junction table => .object [("Junction", .text table)]
  .object [("outer_column", .text hop.outerColumn), ("target", target),
    ("inner_column", .text hop.innerColumn)]

end Hop

namespace ConfiguredEdge

def ofDocument? (d : Document) : Option ConfiguredEdge := do
  let fields ← d.record? ["to_vertex", "edge"]
  return ⟨← Document.required? fields "to_vertex" Document.text?,
    ← Document.required? fields "edge" Edge.ofDocument?⟩

def toDocument (configured : ConfiguredEdge) : Document :=
  .object [("to_vertex", .text configured.toVertex), ("edge", configured.edge.toDocument)]

end ConfiguredEdge

namespace VertexType

def toDocument (vertexType : VertexType) : Document :=
  .object [("table", .ofOption .text vertexType.table),
    ("column_renames", .ofMap .text vertexType.columnRenames),
    ("edges", .ofMap ConfiguredEdge.toDocument vertexType.edges)]

end VertexType

namespace Schema

def sortedTables (schema : Schema) : List Table :=
  schema.tables.values.mergeSort fun a b => a.name ≤ b.name

/-- Write a schema, its tables in the order of their names. -/
def toDocument (schema : Schema) : Document :=
  .object [("tables", .list (schema.sortedTables.map Table.toDocument)),
    ("vertex_types", .ofMap VertexType.toDocument schema.vertexTypes)]

end Schema

end TraversalSql
