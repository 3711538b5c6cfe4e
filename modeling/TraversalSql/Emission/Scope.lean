import TraversalSql.Emission.Fold
import TraversalSql.Emission.Recursion

/-!
Scopes.  All that is reached by plain crossings becomes joins of one select.  A scope that owns
recursions becomes a common table expression that exposes the keys of the owners; each recursion
walks from these keys, its own scope becomes a common table expression in turn, and both are
joined by the keys.
-/

namespace TraversalSql

/-- How the scope of a recursion is fed: the recursive table, and the column that links it to the
scope of its owner. -/
structure RecursionEntry where
  table : String
  link : String
deriving DecidableEq, Repr

/-- An emitted scope, with the common table expressions that it needs, each after those that it
reads, and the vertices that all of these bind. -/
structure ScopeEmission where
  ctes : List Sql.Cte
  query : ScopeQuery
  bound : List Member
deriving Repr

/-- The tables from which a scope starts: the table of its top vertex, preceded by the recursive
table that feeds it. -/
def scopeSource (entry : Option RecursionEntry) (table : Table) (aliasName : String) :
    Except EmitError Sql.FromClause :=
  match entry with
  | none => .ok ⟨table.reference aliasName, []⟩
  | some entry => do
      let key ← Emit.ofSchema table.keyColumn
      let condition :=
        Sql.Expr.equals (.column aliasName key) (.column entry.table Sql.reachedColumn)
      return ⟨.cte entry.table none, [⟨.inner, table.reference aliasName, [condition]⟩]⟩

/-- The column that links the scope of a recursion to the scope of its owner. -/
def entryColumns : Option RecursionEntry → List ScopeColumn
  | none => []
  | some entry => [.link (.column entry.table Sql.anchorColumn) entry.link]

/-- The select of a scope without its recursions, and the members of the scope. -/
def emitBase (target : Target) (entry : Option RecursionEntry) (group : Group)
    (folds : List Group) : Emit (Members × ScopeEmission) := do
  let root := group.node
  let table ← Emit.ofSchema (target.schema.tableOf root.typeName)
  let aliasName ← Emit.takeAlias table.name
  let start ← scopeSource entry table aliasName
  let members ← bindGroup target root false group aliasName
  let outputs ← members.outputs target.schema
  let folded ← emitFolds target members folds
  let filters ← members.filters target.schema root
  let columns := entryColumns entry
    ++ outputs.map (fun (output, column) => .ofOutput output column)
    ++ folded.flatMap FoldQuery.columns
  let joins := start.joins ++ members.joins ++ folded.map FoldQuery.join
  return (members, {
    ctes := folded.map FoldQuery.cte
    query := ⟨⟨start.base, joins⟩, filters, columns⟩
    bound := members.bound ++ folded.flatMap FoldQuery.bound })

/-- The key that the owner of a recursion exposes under a new link column. -/
def emitLink (target : Target) (members : Members) (recursion : Node) : Emit ScopeColumn := do
  let owner ← members.owner recursion
  if (owner.node.linkFor? recursion.id).isNone then
    throw (.invalidTree (.noLink owner.node.location))
  let table ← Emit.ofSchema (target.schema.tableOf owner.node.typeName)
  let key ← Emit.ofSchema table.keyColumn
  return .link (.column owner.aliasName key) (← Emit.takeLink)

/-- The keys that the owners of recursions expose, one for each recursion. -/
def emitLinks (target : Target) (members : Members) : List Scope → Emit (List ScopeColumn)
  | [] => return []
  | recursion :: rest => do
      let first ← emitLink target members recursion.node
      return first :: (← emitLinks target members rest)

/-- A recursion that is joined to the scope of its owner. -/
structure AttachedRecursion where
  ctes : List Sql.Cte
  join : Sql.Join
  columns : List ScopeColumn
  bound : List Member
deriving Repr

/-- The recursive table of a recursion that walks from the keys of a scope. -/
def emitRecursion (target : Target) (scopeCte : String) (recursion : Node) (link : String) :
    Emit (Sql.Cte × RecursionEntry) := do
  let name ← Emit.takeCte .recursion
  let walk ← Recursion.ofRelation target recursion.relation name scopeCte link
  return (← walk.cte target, ⟨name, link⟩)

/-- Join the scope of a recursion to the scope of its owner by their link column. -/
def attach (scopeRoot : Node) (scopeCte : String) (recursion : Node) (link : String)
    (table : Sql.Cte) (name : String) (emission : ScopeEmission) : AttachedRecursion where
  ctes := table :: emission.ctes ++ [.ofSelect name emission.query.select]
  join := ⟨recursion.joinKind scopeRoot, .cte name none,
    [.equals (.column scopeCte link) (.column name link)]⟩
  columns := (emission.query.columns.filter ScopeColumn.isOutput).map (·.readFrom name)
  bound := emission.bound

/-- The columns of a scope that it still exposes after its recursions are joined: the outputs, and
the link to the scope above it. -/
def kept (entry : Option RecursionEntry) (columns : List ScopeColumn) : List ScopeColumn :=
  columns.filter fun column =>
    column.isOutput || some column.aliasName == entry.map RecursionEntry.link

mutual

def emitScope (target : Target) : Scope → Option RecursionEntry → Emit ScopeEmission
  | .mk group folds recursions, entry => do
      let (members, base) ← emitBase target entry group folds
      let links ← emitLinks target members recursions
      if recursions.isEmpty then
        return base
      let scopeCte ← Emit.takeCte .scope
      let attached ←
        emitRecursions target group.node scopeCte recursions (links.map ScopeColumn.aliasName)
      let columns := base.query.columns ++ links
      let scope : ScopeQuery := { base.query with columns }
      let columns := (kept entry columns).map (·.readFrom scopeCte)
        ++ attached.flatMap AttachedRecursion.columns
      return {
        ctes := base.ctes ++ [.ofSelect scopeCte scope.select]
          ++ attached.flatMap AttachedRecursion.ctes
        query := ⟨⟨.cte scopeCte none, attached.map AttachedRecursion.join⟩, [], columns⟩
        bound := base.bound ++ attached.flatMap AttachedRecursion.bound }

def emitRecursions (target : Target) (scopeRoot : Node) (scopeCte : String) :
    List Scope → List String → Emit (List AttachedRecursion)
  | recursion :: recursions, link :: links => do
      let (table, entry) ← emitRecursion target scopeCte recursion.node link
      let emission ← emitScope target recursion (some entry)
      let name ← Emit.takeCte .scope
      let first := attach scopeRoot scopeCte recursion.node link table name emission
      return first :: (← emitRecursions target scopeRoot scopeCte recursions links)
  | _, _ => return []

end

end TraversalSql
