import TraversalSql.Document.Yaml
import TraversalSql.Schema

/-!
The written form of schemas: what a configuration text declares, the reading of it from a
document, and the schema it stands for.
-/

namespace TraversalSql

/-- The declaration of a foreign key over one column. -/
structure ForeignKeyDefinition where
  column : String
  referencesTable : String
  referencesColumn : String
deriving DecidableEq, Repr

/-- The declaration of a table. -/
structure TableDefinition where
  name : String
  schema : Option String
  columns : List String
  primaryKey : List String
  foreignKeys : List ForeignKeyDefinition
deriving DecidableEq, Repr

/-- The declaration of the junction of an edge: its table, the column that matches the source and
the column that matches the destination. -/
structure JunctionDefinition where
  table : String
  fromColumn : String
  toColumn : String
deriving DecidableEq, Repr

/-- The declaration of an edge on its source type. -/
structure EdgeDefinition where
  toVertex : String
  fromColumn : String
  toColumn : String
  junction : Option JunctionDefinition
deriving DecidableEq, Repr

/-- The declaration of a vertex type. -/
structure VertexTypeDefinition where
  table : Option String
  columnRenames : OrderedMap String String
  edges : OrderedMap String EdgeDefinition
deriving DecidableEq, Repr

/-- The declaration of a schema. -/
structure SchemaDefinition where
  tables : List TableDefinition
  vertexTypes : OrderedMap String VertexTypeDefinition
deriving DecidableEq, Repr

namespace ForeignKeyDefinition

def ofDocument? (d : Document) : Option ForeignKeyDefinition := do
  let fields ← d.record? ["column", "references_table", "references_column"]
  return {
    column := ← Document.required? fields "column" Document.text?
    referencesTable := ← Document.required? fields "references_table" Document.text?
    referencesColumn := ← Document.required? fields "references_column" Document.text? }

def toDocument (definition : ForeignKeyDefinition) : Document :=
  .object [("column", .text definition.column),
    ("references_table", .text definition.referencesTable),
    ("references_column", .text definition.referencesColumn)]

end ForeignKeyDefinition

namespace TableDefinition

def ofDocument? (d : Document) : Option TableDefinition := do
  let fields ← d.record? ["name", "schema", "columns", "primary_key", "foreign_keys"]
  let texts := Document.listOf? Document.text?
  return {
    name := ← Document.required? fields "name" Document.text?
    schema := ← Document.optional? fields "schema" Document.text?
    columns := ← Document.required? fields "columns" texts
    primaryKey := ← Document.defaulted? fields "primary_key" texts []
    foreignKeys := ← Document.defaulted? fields "foreign_keys"
      (Document.listOf? ForeignKeyDefinition.ofDocument?) [] }

def toDocument (definition : TableDefinition) : Document :=
  .object [("name", .text definition.name), ("schema", .ofOption .text definition.schema),
    ("columns", .ofTexts definition.columns), ("primary_key", .ofTexts definition.primaryKey),
    ("foreign_keys", .list (definition.foreignKeys.map ForeignKeyDefinition.toDocument))]

def toTable (definition : TableDefinition) : Table where
  name := definition.name
  qualifier := definition.schema
  columns := definition.columns
  primaryKey := definition.primaryKey
  foreignKeys := definition.foreignKeys.map fun key =>
    .single key.column key.referencesTable key.referencesColumn

end TableDefinition

namespace JunctionDefinition

def ofDocument? (d : Document) : Option JunctionDefinition := do
  let fields ← d.record? ["table", "from_column", "to_column"]
  return {
    table := ← Document.required? fields "table" Document.text?
    fromColumn := ← Document.required? fields "from_column" Document.text?
    toColumn := ← Document.required? fields "to_column" Document.text? }

def toDocument (definition : JunctionDefinition) : Document :=
  .object [("table", .text definition.table), ("from_column", .text definition.fromColumn),
    ("to_column", .text definition.toColumn)]

end JunctionDefinition

namespace EdgeDefinition

def ofDocument? (d : Document) : Option EdgeDefinition := do
  let fields ← d.record? ["to_vertex", "from_column", "to_column", "junction"]
  return {
    toVertex := ← Document.required? fields "to_vertex" Document.text?
    fromColumn := ← Document.required? fields "from_column" Document.text?
    toColumn := ← Document.required? fields "to_column" Document.text?
    junction := ← Document.optional? fields "junction" JunctionDefinition.ofDocument? }

def toDocument (definition : EdgeDefinition) : Document :=
  .object [("to_vertex", .text definition.toVertex), ("from_column", .text definition.fromColumn),
    ("to_column", .text definition.toColumn),
    ("junction", .ofOption JunctionDefinition.toDocument definition.junction)]

def toEdge (definition : EdgeDefinition) : Edge :=
  match definition.junction with
  | none => .direct ⟨definition.fromColumn, definition.toColumn, none⟩
  | some junction =>
      .junction ⟨definition.fromColumn, junction.fromColumn, some junction.table⟩
        ⟨junction.toColumn, definition.toColumn, none⟩

end EdgeDefinition

namespace VertexTypeDefinition

def ofDocument? (d : Document) : Option VertexTypeDefinition := do
  let fields ← d.record? ["table", "column_renames", "edges"]
  return {
    table := ← Document.optional? fields "table" Document.text?
    columnRenames := ←
      Document.defaulted? fields "column_renames" (Document.mapOf? Document.text?) .empty
    edges := ←
      Document.defaulted? fields "edges" (Document.mapOf? EdgeDefinition.ofDocument?) .empty }

def toDocument (definition : VertexTypeDefinition) : Document :=
  .object [("table", .ofOption .text definition.table),
    ("column_renames", .ofMap .text definition.columnRenames),
    ("edges", .ofMap EdgeDefinition.toDocument definition.edges)]

def toVertexType (definition : VertexTypeDefinition) : VertexType where
  table := definition.table
  columnRenames := definition.columnRenames
  edges := definition.edges.mapValues fun edge => ⟨edge.toVertex, edge.toEdge⟩

end VertexTypeDefinition

namespace SchemaDefinition

def ofDocument? (d : Document) : Option SchemaDefinition := do
  let fields ← d.record? ["tables", "vertex_types"]
  return {
    tables := ←
      Document.defaulted? fields "tables" (Document.listOf? TableDefinition.ofDocument?) []
    vertexTypes := ← Document.defaulted? fields "vertex_types"
      (Document.mapOf? VertexTypeDefinition.ofDocument?) .empty }

def toDocument (definition : SchemaDefinition) : Document :=
  .object [("tables", .list (definition.tables.map TableDefinition.toDocument)),
    ("vertex_types", .ofMap VertexTypeDefinition.toDocument definition.vertexTypes)]

def ofYaml (text : String) : Except SchemaError SchemaDefinition :=
  match (Document.ofYaml? text).bind ofDocument? with
  | some definition => .ok definition
  | none => .error .unparsable

/-- Read a declaration from what a file holds; there is nothing to read if the file is missing. -/
def ofFile : Option String → Except SchemaError SchemaDefinition
  | some text => ofYaml text
  | none => .error .unreadable

/-- The first fault of the declared tables, of which `seen` are the names that stand before. -/
def checkTables (seen : List String) : List TableDefinition → Except SchemaError Unit
  | [] => .ok ()
  | table :: rest =>
      if table.name ∈ seen then .error (.invalidDefinition (.duplicateTable table.name))
      else if table.columns.isEmpty then .error (.invalidTable table.name .noColumns)
      else checkTables (table.name :: seen) rest

/-- The first fault of a declaration that shows without building the schema. -/
def check (definition : SchemaDefinition) : Except SchemaError Unit := do
  checkTables [] definition.tables
  definition.vertexTypes.entries.forM fun (typeName, vertexType) =>
    match vertexType.table with
    | none => .ok ()
    | some table =>
        if table ∈ definition.tables.map TableDefinition.name then .ok ()
        else .error (.tableNotFound typeName table)

/-- The schema of a declaration, unchecked. -/
def assemble (definition : SchemaDefinition) : Schema :=
  let tables := definition.tables.foldl (fun schema table => schema.addTable table.toTable) .empty
  definition.vertexTypes.entries.foldl
    (fun schema (name, vertexType) => schema.addVertexType name vertexType.toVertexType) tables

/-- The schema of a declaration, if both are without fault. -/
def toSchema (definition : SchemaDefinition) : Except SchemaError Schema := do
  definition.check
  let schema := definition.assemble
  schema.check
  return schema

end SchemaDefinition

end TraversalSql
