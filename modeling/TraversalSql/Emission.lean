import TraversalSql.Emission.Scope

/-!
From query trees to statements.
-/

namespace TraversalSql

namespace QueryTree

/-- Whether a parameter is bound to a list: some filter that takes a collection uses it. -/
def isExpanding (tree : QueryTree) (parameter : String) : Bool :=
  tree.nodes.any fun node => node.predicates.any fun p =>
    p.predicate.operator.cardinality == .many && p.predicate.params.contains parameter

/-- The parameters of a statement in the order of their first use. -/
def manifest (tree : QueryTree) (ctes : List Sql.Cte) (body : Sql.Select) : List Sql.Parameter :=
  let selects := ctes.flatMap Sql.Cte.selects ++ [body]
  let names := selects.flatMap fun select => select.expressions.flatMap Sql.Expr.parameters
  names.eraseDups.map fun name => ⟨name, tree.isExpanding name⟩

/-- The outputs among columns, in the order of their indices. -/
def sortedOutputs (columns : List ScopeColumn) : List ScopeColumn :=
  (columns.filter ScopeColumn.isOutput).mergeSort fun a b => a.index.getD 0 ≤ b.index.getD 0

/-- Whether the indices of columns are exactly those of the outputs of the query, in order. -/
def isComplete (tree : QueryTree) (outputs : List ScopeColumn) : Bool :=
  outputs.map ScopeColumn.index == (List.range tree.outputAliases.length).map some

/-- The emission of a query tree: the scope of its root, with the outputs of the query in order. -/
def emission (tree : QueryTree) (target : Target) : Except EmitError ScopeEmission := do
  if tree.outputAliases.isEmpty then
    throw (.invalidTree .noOutputs)
  let some scope := tree.rootScope? | throw (.invalidTree .noOutputs)
  let (emission, _) ← (emitScope target scope none).run Sql.AliasSupply.fresh
  let outputs := sortedOutputs emission.query.columns
  if !tree.isComplete outputs then
    throw (.invalidTree (.outputCount tree.outputAliases.length outputs.length))
  return { emission with query := { emission.query with columns := outputs } }

def statement (tree : QueryTree) (target : Target) : Except EmitError Sql.Statement := do
  let emission ← tree.emission target
  let body := emission.query.select
  return {
    dialect := target.dialect
    ctes := emission.ctes
    body
    parameters := tree.manifest emission.ctes body }

end QueryTree

end TraversalSql
