import TraversalSql.OrderedMap
import TraversalSql.Schema.Edge

/-!
Schemas: tables, the vertex types they back, and the answers to what a query asks of them.
-/

namespace TraversalSql

/-- How a vertex type is kept in tables. -/
structure VertexType where
  /-- The table, if it does not have the name of the type. -/
  table : Option String
  /-- The columns of the fields that do not have the name of their column. -/
  columnRenames : OrderedMap String String
  /-- The edges of which this type is the source. -/
  edges : OrderedMap String ConfiguredEdge
deriving DecidableEq, Repr

/-- Tables by their names and vertex types by theirs. -/
structure Schema where
  tables : OrderedMap String Table
  vertexTypes : OrderedMap String VertexType
deriving DecidableEq, Repr

namespace Schema

def empty : Schema := ⟨.empty, .empty⟩

/-- Add a table; it replaces one of the same name. -/
def addTable (schema : Schema) (table : Table) : Schema :=
  { schema with tables := schema.tables.insert table.name table }

/-- Add a vertex type; it replaces one of the same name. -/
def addVertexType (schema : Schema) (name : String) (vertexType : VertexType) : Schema :=
  { schema with vertexTypes := schema.vertexTypes.insert name vertexType }

def table? (schema : Schema) (name : String) : Option Table := schema.tables.find? name

def vertexType? (schema : Schema) (name : String) : Option VertexType :=
  schema.vertexTypes.find? name

/-- The name of the table that backs a type. -/
def tableName (schema : Schema) (typeName : String) : String :=
  ((schema.vertexType? typeName).bind VertexType.table).getD typeName

def tableOf (schema : Schema) (typeName : String) : Except SchemaError Table :=
  match schema.table? (schema.tableName typeName) with
  | some table => .ok table
  | none => .error (.tableNotFound typeName (schema.tableName typeName))

/-- The table of a type under an alias in a `FROM` clause. -/
def reference (schema : Schema) (typeName aliasName : String) : Except SchemaError Sql.TableRef :=
  (schema.tableOf typeName).map fun table => table.reference aliasName

/-- The name of the column that a field of a type would have. -/
def renamed (schema : Schema) (typeName field : String) : String :=
  ((schema.vertexType? typeName).bind fun v => v.columnRenames.find? field).getD field

def columnOf (schema : Schema) (typeName field : String) : Except SchemaError String := do
  let table ← schema.tableOf typeName
  let column := schema.renamed typeName field
  if table.hasColumn column then .ok column
  else .error (.columnNotFound typeName field table.name column)

/-- The edge configured under a name on a type. -/
def configuredEdge? (schema : Schema) (typeName edgeName : String) : Option ConfiguredEdge :=
  (schema.vertexType? typeName).bind fun v => v.edges.find? edgeName

/-- The source and the destination of a crossing, from the type left and the type reached. -/
def orient (direction : Direction) (outerType innerType : String) : String × String :=
  match direction with
  | .outward => (outerType, innerType)
  | .inward => (innerType, outerType)

/-- The edge that a crossing from one type to another uses: the configured one if the source type
has it, otherwise the one that foreign keys suggest. -/
def edgeBetween (schema : Schema) (outerType : String) (traversal : Traversal)
    (innerType : String) : Except SchemaError Edge :=
  let (source, sink) := orient traversal.direction outerType innerType
  match schema.configuredEdge? source traversal.edgeName with
  | some configured =>
      if configured.toVertex = sink then .ok configured.edge
      else .error (.endpointMismatch traversal.edgeName source configured.toVertex sink)
  | none => do
      let sourceTable ← schema.tableOf source
      let sinkTable ← schema.tableOf sink
      Edge.infer traversal.edgeName sourceTable sinkTable

/-- The joins by which a crossing leads from one type to another. -/
def hopsBetween (schema : Schema) (outerType : String) (traversal : Traversal)
    (innerType : String) : Except SchemaError (List Hop) := do
  (← schema.edgeBetween outerType traversal innerType).hops traversal.direction

/-- Whether a table has a column, or the fault to report. -/
def checkColumn (schema : Schema) (table column : String) : Except EdgeFault Unit :=
  match schema.table? table with
  | none => .error (.unknownTable table)
  | some found => if found.hasColumn column then .ok () else .error (.unknownColumn column table)

/-- The first fault of an edge that is configured on a type. -/
def checkEdge (schema : Schema) (typeName : String) (configured : ConfiguredEdge) :
    Except EdgeFault Unit := do
  if !schema.vertexTypes.contains configured.toVertex then
    throw (.unknownVertex configured.toVertex)
  let source := schema.tableName typeName
  let sink := schema.tableName configured.toVertex
  match configured.edge with
  | .direct link =>
      schema.checkColumn source link.sourceColumn
      schema.checkColumn sink link.sinkColumn
  | .junction first second =>
      schema.checkColumn source first.sourceColumn
      schema.checkColumn sink second.sinkColumn
      match first.tableName with
      | none => throw .junctionWithoutTable
      | some junction =>
          schema.checkColumn junction first.sinkColumn
          schema.checkColumn junction second.sourceColumn

/-- The first fault of a schema: of the keys of its tables, then of the edges of its types. -/
def check (schema : Schema) : Except SchemaError Unit := do
  schema.tables.values.forM Table.check
  schema.vertexTypes.entries.forM fun (typeName, vertexType) =>
    vertexType.edges.entries.forM fun (edgeName, configured) =>
      (schema.checkEdge typeName configured).mapError (.invalidEdge typeName edgeName)

end Schema

end TraversalSql
