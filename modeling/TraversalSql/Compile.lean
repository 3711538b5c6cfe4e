import TraversalSql.Emission
import TraversalSql.Query.Blocks

/-!
The compilation of queries: from a query and a target to a statement.
-/

namespace TraversalSql

/-- Why a query does not compile. -/
inductive CompileError where
  /-- The query is malformed. -/
  | query (error : QueryError)
  /-- There is no SQL for the query. -/
  | emission (error : EmitError)
deriving DecidableEq, Repr

def CompileError.message : CompileError → String
  | .query error => "Malformed IR: " ++ error.message
  | .emission error => "SQL emission failed: " ++ error.message

namespace Query

def tree (query : Query) : Except QueryError QueryTree := do
  QueryTree.ofBlocks (← query.blocks)

/-- The statement of a query for a target.  The query is read first, then its tree is built, then
SQL is emitted, and the first failure ends the compilation. -/
def compile (query : Query) (target : Target) : Except CompileError Sql.Statement := do
  let tree ← query.tree.mapError .query
  (tree.statement target).mapError .emission

end Query

end TraversalSql
