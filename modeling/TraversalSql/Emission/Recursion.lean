import TraversalSql.Block
import TraversalSql.Emission.JoinPath
import TraversalSql.Target

/-!
Recursive tables.  The first rows hold the keys from which the walk starts, and one step adds the
keys one edge further.  A row knows its start, the key reached, the number of edges crossed and
the keys on the way; a step stays below the depth asked for and never goes to a key that is on the
way already.
-/

namespace TraversalSql

/-- A recursion that is asked for properly. -/
structure Recursion where
  /-- The name of the recursive table. -/
  name : String
  location : Location
  /-- The type on both ends of the edge. -/
  vertexType : String
  traversal : Traversal
  depth : Nat
  /-- The common table expression that holds the keys from which the walk starts. -/
  source : String
  /-- The column of these keys. -/
  link : String
deriving DecidableEq, Repr

namespace Recursion

/-- The recursion of a vertex: it has a depth within the limit, and an edge that stays on one
type. -/
def ofRelation (target : Target) (relation : Relation) (name source link : String) :
    Except EmitError Recursion := do
  let site := relation.site
  match relation.recursionDepth?, relation.edge with
  | some depth, some traversal =>
      if depth = 0 then
        throw (.invalidDepth site.location)
      if target.maxRecursionDepth < depth then
        throw (.depthExceeded site.location depth target.maxRecursionDepth)
      let outerType := site.outerType.getD ""
      if outerType ≠ site.currentType then
        throw (.recursionTypeMismatch traversal.edgeName outerType site.currentType)
      return ⟨name, site.location, site.currentType, traversal, depth, source, link⟩
  | _, _ => throw (.invalidTree (.notRecursion site.location))

def column (recursion : Recursion) (name : String) : Sql.Expr := .column recursion.name name

def startKey (recursion : Recursion) : Sql.Expr := .column recursion.source recursion.link

/-- The first rows: each key reaches itself. -/
def anchor (recursion : Recursion) : Sql.Select where
  distinct := true
  items :=
    [⟨recursion.startKey, some Sql.anchorColumn⟩,
      ⟨recursion.startKey, some Sql.reachedColumn⟩,
      ⟨.literal (.integer 0), some Sql.depthColumn⟩,
      ⟨.castToPath (.concat [.string ",", .castToText recursion.startKey, .string ","]),
        some Sql.pathColumn⟩]
  source := ⟨.cte recursion.source none, []⟩
  filters := [.apply .isNotNull [recursion.startKey]]
  groupBy := []

/-- The columns of a step to the next key. -/
def stepItems (recursion : Recursion) (nextKey : Sql.Expr) : List Sql.SelectItem :=
  [⟨recursion.column Sql.anchorColumn, some Sql.anchorColumn⟩,
    ⟨nextKey, some Sql.reachedColumn⟩,
    ⟨.apply .addition [recursion.column Sql.depthColumn, .literal (.integer 1)],
      some Sql.depthColumn⟩,
    ⟨.concat [recursion.column Sql.pathColumn, .castToText nextKey, .string ","],
      some Sql.pathColumn⟩]

/-- The conditions of a step to the next key: the depth is not reached, and the key is not on the
way. -/
def stepFilters (recursion : Recursion) (nextKey : Sql.Expr) : List Sql.Expr :=
  [.apply .lessThan [recursion.column Sql.depthColumn, .literal (.integer recursion.depth)],
    .apply .notLike [recursion.column Sql.pathColumn,
      .concat [.string "%,", .castToText nextKey, .string ",%"]]]

/-- The joins of a step, where the edge leaves from the key: the key reached takes the place of
the outer side of the first join. -/
def joinsFromKey (reached : Sql.Expr) : List JoinHop → List Sql.Join
  | [] => []
  | first :: rest =>
      ⟨.inner, first.table, [.equals reached first.inner]⟩ :: rest.map (JoinHop.join · .inner)

/-- One step.  Where the edge leaves from the key, the key reached is enough; otherwise the row of
the vertex reached is joined first. -/
def step (recursion : Recursion) (target : Target) : Emit Sql.Select := do
  let schema := target.schema
  let vertexType := recursion.vertexType
  let table ← Emit.ofSchema (schema.tableOf vertexType)
  let key ← Emit.ofSchema table.keyColumn
  let reached := recursion.column Sql.reachedColumn
  let hops ← Emit.ofSchema (schema.hopsBetween vertexType recursion.traversal vertexType)
  let path := fun (current : String) => do
    let next ← Emit.takeAlias table.name
    let joined ←
      Emit.joinPath schema ⟨vertexType, current⟩ recursion.traversal ⟨vertexType, next⟩
    return (next, joined)
  let (next, joins) ←
    if hops.head?.any fun hop => hop.outerColumn == key then do
      let (next, joined) ← path recursion.name
      pure (next, joinsFromKey reached joined)
    else do
      let current ← Emit.takeAlias table.name
      let (next, joined) ← path current
      let here : Sql.Join :=
        ⟨.inner, table.reference current, [.equals (.column current key) reached]⟩
      pure (next, here :: joined.map (JoinHop.join · .inner))
  let nextKey := Sql.Expr.column next key
  return {
    distinct := false
    items := recursion.stepItems nextKey
    source := ⟨.cte recursion.name none, joins⟩
    filters := recursion.stepFilters nextKey
    groupBy := [] }

/-- The combinator of the recursive tables of a target. -/
def combinator (target : Target) : Except EmitError Sql.Combinator :=
  target.recursionCombinator.mapError .unsupportedCombinator

def cte (recursion : Recursion) (target : Target) : Emit Sql.Cte := do
  let step ← recursion.step target
  let combinator ← combinator target
  return ⟨recursion.name, .recursive recursion.anchor step combinator, true⟩

end Recursion

end TraversalSql
