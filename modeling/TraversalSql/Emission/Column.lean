import TraversalSql.QueryTree
import TraversalSql.Sql.Statement

/-!
The columns that a select exposes to the selects that read it.
-/

namespace TraversalSql

/-- A column of a scope.  It is an output of the query at some index, or it only links scopes. -/
structure ScopeColumn where
  expression : Sql.Expr
  aliasName : String
  index : Option Nat
deriving Repr

namespace ScopeColumn

def ofOutput (output : NodeOutput) (expression : Sql.Expr) : ScopeColumn :=
  ⟨expression, output.aliasName, some output.index⟩

/-- A column that links scopes. -/
def link (expression : Sql.Expr) (aliasName : String) : ScopeColumn :=
  ⟨expression, aliasName, none⟩

def isOutput (column : ScopeColumn) : Bool := column.index.isSome

/-- The same column, read from the common table expression that exposes it. -/
def readFrom (column : ScopeColumn) (cte : String) : ScopeColumn :=
  { column with expression := .column cte column.aliasName }

def item (column : ScopeColumn) : Sql.SelectItem := ⟨column.expression, some column.aliasName⟩

end ScopeColumn

/-- What a scope comes down to: the tables it reads, the conditions, and the columns it exposes. -/
structure ScopeQuery where
  source : Sql.FromClause
  filters : List Sql.Expr
  columns : List ScopeColumn
deriving Repr

namespace ScopeQuery

/-- The select of a scope, which gives each row once. -/
def select (query : ScopeQuery) : Sql.Select where
  distinct := true
  items := query.columns.map ScopeColumn.item
  source := query.source
  filters := query.filters
  groupBy := []

end ScopeQuery

end TraversalSql
