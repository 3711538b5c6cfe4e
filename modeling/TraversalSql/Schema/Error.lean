/-!
What can be wrong with a schema, or with a question that a query asks of it.
-/

namespace TraversalSql

/-- Why a configured edge is refused. -/
inductive EdgeFault where
  | unknownVertex (vertex : String)
  | unknownTable (table : String)
  | unknownColumn (column table : String)
  /-- An edge through a junction does not say which table the junction is. -/
  | junctionWithoutTable
  /-- The junction that an edge names is not a table of the schema. -/
  | unknownJunction (table : String)
deriving DecidableEq, Repr

def EdgeFault.message : EdgeFault → String
  | .unknownVertex vertex => s!"destination vertex `{vertex}` is not registered"
  | .unknownTable table => s!"table `{table}` is not registered"
  | .unknownColumn column table => s!"column `{column}` not found on table `{table}`"
  | .junctionWithoutTable => "junction edge is missing its table name"
  | .unknownJunction table => s!"junction table `{table}` is not registered"

/-- Why a table has no single key column. -/
inductive KeyFault where
  | undeclared
  | composite (columns : List String)
deriving DecidableEq, Repr

def KeyFault.message : KeyFault → String
  | .undeclared => "no primary key declared"
  | .composite columns => "composite primary key (" ++ ", ".intercalate columns ++ ")"

/-- Why a table is refused. -/
inductive TableFault where
  | noColumns
  | unknownKeyColumn (column : String)
  | unevenForeignKey (referencedTable : String)
deriving DecidableEq, Repr

def TableFault.message : TableFault → String
  | .noColumns => "table declares no columns"
  | .unknownKeyColumn column => s!"primary key column `{column}` is not a column"
  | .unevenForeignKey table => s!"foreign key to `{table}` has mismatched column counts"

/-- Why a schema definition is refused as a whole. -/
inductive DefinitionFault where
  | duplicateTable (table : String)
  | junctionWithoutTable
deriving DecidableEq, Repr

def DefinitionFault.message : DefinitionFault → String
  | .duplicateTable table => "Duplicate table definition: " ++ table
  | .junctionWithoutTable => "multi edge junction is missing its table name"

/-- What can go wrong with a schema. -/
inductive SchemaError where
  | tableNotFound (typeName table : String)
  | columnNotFound (typeName field table column : String)
  | noForeignKey (edgeName fromTable toTable : String)
  | ambiguousForeignKey (edgeName fromTable toTable : String) (candidates : Nat)
  | invalidEdge (typeName edgeName : String) (fault : EdgeFault)
  | endpointMismatch (edgeName source configured requested : String)
  | missingPrimaryKey (table : String) (fault : KeyFault)
  | invalidTable (table : String) (fault : TableFault)
  /-- The definition could not be read from where it is kept. -/
  | unreadable
  /-- The definition is not a text of the right form. -/
  | unparsable
  | invalidDefinition (fault : DefinitionFault)
deriving DecidableEq, Repr

def SchemaError.message : SchemaError → String
  | .tableNotFound typeName table => s!"No table `{table}` registered for type `{typeName}`"
  | .columnNotFound typeName field table column =>
      s!"No column `{column}` on table `{table}` for field `{typeName}.{field}`"
  | .noForeignKey edgeName fromTable toTable =>
      s!"No foreign key found between `{fromTable}` and `{toTable}` for edge `{edgeName}`"
  | .ambiguousForeignKey edgeName fromTable toTable candidates =>
      s!"Ambiguous foreign key between `{fromTable}` and `{toTable}` for edge `{edgeName}`: "
        ++ s!"{candidates} candidates"
  | .invalidEdge typeName edgeName fault =>
      s!"Invalid edge `{edgeName}` on `{typeName}`: " ++ fault.message
  | .endpointMismatch edgeName source configured requested =>
      s!"Edge `{edgeName}` connects `{source} -> {configured}`, but the query reaches "
        ++ s!"`{source} -> {requested}`"
  | .missingPrimaryKey table fault =>
      s!"Table `{table}` needs a single-column primary key: " ++ fault.message
  | .invalidTable table fault => s!"Invalid table definition `{table}`: " ++ fault.message
  | .unreadable => "Failed to read configuration file"
  | .unparsable => "Failed to parse configuration"
  | .invalidDefinition fault => "Invalid configuration: " ++ fault.message

end TraversalSql
