import TraversalSql.Schema.Error
import TraversalSql.Sql.Statement

/-!
Tables of a schema and their keys.
-/

namespace TraversalSql

/-- A foreign key of a table, over one or more columns. -/
structure ForeignKey where
  columns : List String
  referencedTable : String
  referencedColumns : List String
deriving DecidableEq, Repr

namespace ForeignKey

def single (column referencedTable referencedColumn : String) : ForeignKey :=
  ⟨[column], referencedTable, [referencedColumn]⟩

/-- The column and the column it refers to, of a foreign key over exactly one column. -/
def columnPair? (key : ForeignKey) : Option (String × String) :=
  match key.columns, key.referencedColumns with
  | [column], [referenced] => some (column, referenced)
  | _, _ => none

end ForeignKey

/-- A table of a schema. -/
structure Table where
  name : String
  /-- The schema or database in which the table is kept. -/
  qualifier : Option String
  columns : List String
  primaryKey : List String
  foreignKeys : List ForeignKey
deriving DecidableEq, Repr

namespace Table

def hasColumn (table : Table) (column : String) : Bool := column ∈ table.columns

/-- The key column, where a row must be known by a single value. -/
def keyColumn (table : Table) : Except SchemaError String :=
  match table.primaryKey with
  | [column] => .ok column
  | [] => .error (.missingPrimaryKey table.name .undeclared)
  | columns => .error (.missingPrimaryKey table.name (.composite columns))

/-- The foreign keys over one column that refer to another table: each column with the column it
refers to. -/
def keysTo (table : Table) (other : String) : List (String × String) :=
  (table.foreignKeys.filter fun key => key.referencedTable = other).filterMap
    ForeignKey.columnPair?

/-- The table under an alias in a `FROM` clause. -/
def reference (table : Table) (aliasName : String) : Sql.TableRef :=
  .table table.qualifier table.name aliasName

/-- The first fault of the keys of a table. -/
def check (table : Table) : Except SchemaError Unit := do
  table.primaryKey.forM fun column =>
    if table.hasColumn column then .ok ()
    else .error (.invalidTable table.name (.unknownKeyColumn column))
  table.foreignKeys.forM fun key =>
    if key.columns.length = key.referencedColumns.length then .ok ()
    else .error (.invalidTable table.name (.unevenForeignKey key.referencedTable))

end Table

end TraversalSql
