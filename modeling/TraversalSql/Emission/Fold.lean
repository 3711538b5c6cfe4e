import TraversalSql.Emission.Column
import TraversalSql.Emission.Members

/-!
Folds.  What a fold reaches is collected in a common table expression with one row for each value
of the column that the owner joins on.  It is joined to the owner so that an owner that reaches
nothing stays.
-/

namespace TraversalSql

/-- An emitted fold: its common table expression, how it is joined to its owner, what it exposes,
and the vertices that it binds. -/
structure FoldQuery where
  cte : Sql.Cte
  join : Sql.Join
  columns : List ScopeColumn
  bound : List Member
deriving Repr

/-- The joins by which an owner reaches the top vertex of a fold, and the alias of that vertex. -/
def foldPath (target : Target) (owner : Member) (node : Node) : Emit (String × List JoinHop) := do
  let some traversal := node.relation.edge
    | throw (.invalidTree (.foldWithoutEdge node.location))
  let table ← Emit.ofSchema (target.schema.tableOf node.typeName)
  let aliasName ← Emit.takeAlias table.name
  let vertex := ⟨node.typeName, aliasName⟩
  return (aliasName, ← Emit.joinPath target.schema owner.vertex traversal vertex)

/-- Emit a fold.  The inner side of its first join is the column by which its rows are grouped,
and the outer side is what the owner joins on. -/
def emitFold (target : Target) (owner : Member) (fold : Group) : Emit FoldQuery := do
  let (aliasName, hops) ← foldPath target owner fold.node
  match hops with
  | [] => throw (.invalidTree (.foldWithoutJoin fold.node.location))
  | first :: rest =>
      let members ← bindGroup target fold.node true fold aliasName
      let filters ← members.filters target.schema fold.node
      let name ← Emit.takeCte .fold
      let link ← Emit.takeFoldLink
      let outputs ← members.outputs target.schema
      let collected := outputs.map fun (output, column) =>
        (⟨target.foldAggregate column, some output.aliasName⟩ : Sql.SelectItem)
      let select : Sql.Select := {
        distinct := false
        items := ⟨first.inner, some link⟩ :: collected
        source := ⟨first.table, rest.map (JoinHop.join · .inner) ++ members.joins⟩
        filters
        groupBy := [first.inner] }
      return {
        cte := .ofSelect name select
        join := ⟨.left, .cte name none, [.equals first.outer (.column name link)]⟩
        columns := outputs.map fun (output, _) => .ofOutput output (.column name output.aliasName)
        bound := members.bound }

/-- Emit the folds of a scope, each joined to the member that owns it. -/
def emitFolds (target : Target) (members : Members) : List Group → Emit (List FoldQuery)
  | [] => return []
  | fold :: rest => do
      let owner ← members.owner fold.node
      let first ← emitFold target owner fold
      return first :: (← emitFolds target members rest)

end TraversalSql
