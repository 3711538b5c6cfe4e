import TraversalSql.Sql.Dialect
import TraversalSql.Sql.Expr

/-!
SQL statements: selects over joined tables, common table expressions, and the statement that puts
them together with its parameters.
-/

namespace TraversalSql.Sql

/-- A table in a `FROM` clause. -/
inductive TableRef where
  /-- A stored table. -/
  | table (schema : Option String) (name : String) (aliasName : String)
  /-- A common table expression of the statement. -/
  | cte (name : String) (aliasName : Option String)
deriving DecidableEq, Repr, Inhabited

/-- The name under which the columns of a table are known to the other clauses. -/
def TableRef.aliasName : TableRef → String
  | .table _ _ aliasName => aliasName
  | .cte name aliasName => aliasName.getD name

/-- Whether rows without a partner are kept. -/
inductive JoinKind where
  | inner
  | left
deriving DecidableEq, Repr

/-- A joined table; the conditions hold together. -/
structure Join where
  kind : JoinKind
  table : TableRef
  conditions : List Expr
deriving Repr

/-- An output column of a select. -/
structure SelectItem where
  expression : Expr
  aliasName : Option String
deriving Repr

/-- The tables that a select reads. -/
structure FromClause where
  base : TableRef
  joins : List Join
deriving Repr

/-- A select; the filters hold together. -/
structure Select where
  distinct : Bool
  items : List SelectItem
  source : FromClause
  filters : List Expr
  groupBy : List Expr
deriving Repr

/-- What a common table expression holds. -/
inductive CteContent where
  | select (query : Select)
  | recursive (anchor step : Select) (combinator : Combinator)
deriving Repr

/-- A common table expression. -/
structure Cte where
  name : String
  content : CteContent
  isRecursive : Bool
deriving Repr

/-- The common table expression of a plain select. -/
def Cte.ofSelect (name : String) (query : Select) : Cte := ⟨name, .select query, false⟩

/-- A placeholder of a statement; an expanding one is bound to a list. -/
structure Parameter where
  name : String
  expanding : Bool
deriving DecidableEq, Repr

/-- A statement: common table expressions, then the final select. -/
structure Statement where
  dialect : Dialect
  ctes : List Cte
  body : Select
  parameters : List Parameter
deriving Repr

namespace Statement

def outputColumns (statement : Statement) : List String :=
  statement.body.items.filterMap SelectItem.aliasName

/-- Whether some common table expression refers to itself. -/
def hasRecursion (statement : Statement) : Bool := statement.ctes.any Cte.isRecursive

end Statement

/-- The expressions of a select in the order in which they are written. -/
def Select.expressions (query : Select) : List Expr :=
  query.items.map SelectItem.expression ++ query.source.joins.flatMap Join.conditions
    ++ query.filters ++ query.groupBy

/-- The selects of a common table expression in the order in which they are written. -/
def Cte.selects (cte : Cte) : List Select :=
  match cte.content with
  | .select query => [query]
  | .recursive anchor step _ => [anchor, step]

end TraversalSql.Sql
