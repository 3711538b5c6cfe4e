import TraversalSql.Emission.Error
import TraversalSql.Schema

/-!
The joins that lead from one vertex to another along an edge, one for an edge between two tables
and two for an edge through a junction.
-/

namespace TraversalSql

/-- A vertex type under the alias of its table. -/
structure BoundVertex where
  typeName : String
  aliasName : String
deriving DecidableEq, Repr

/-- One join: the table on the inner side, and the two columns that are equal. -/
structure JoinHop where
  table : Sql.TableRef
  outerAlias : String
  outerColumn : String
  innerAlias : String
  innerColumn : String
deriving DecidableEq, Repr

namespace JoinHop

def outer (hop : JoinHop) : Sql.Expr := .column hop.outerAlias hop.outerColumn

def inner (hop : JoinHop) : Sql.Expr := .column hop.innerAlias hop.innerColumn

def condition (hop : JoinHop) : Sql.Expr := .equals hop.outer hop.inner

def join (hop : JoinHop) (kind : Sql.JoinKind) : Sql.Join := ⟨kind, hop.table, [hop.condition]⟩

end JoinHop

namespace Schema

/-- The table on the inner side of a hop, with its alias and the supply after it.  A junction
takes a new alias, and the vertex reached has one already. -/
def hopTable (schema : Schema) (outerType edgeName : String) (inner : BoundVertex)
    (target : HopTarget) (supply : Sql.AliasSupply) :
    Except SchemaError (Sql.TableRef × String) × Sql.AliasSupply :=
  match target with
  | .junction name =>
      match schema.table? name with
      | none => (.error (.invalidEdge outerType edgeName (.unknownJunction name)), supply)
      | some table =>
          let (aliasName, supply) := supply.nextAlias table.name
          (.ok (table.reference aliasName, aliasName), supply)
  | .vertex =>
      let reference := schema.reference inner.typeName inner.aliasName
      (reference.map (·, inner.aliasName), supply)

/-- The joins of hops, the first of which leaves from an alias.  Names that were taken before a
failure stay taken. -/
def joinHops (schema : Schema) (outerType edgeName : String) (inner : BoundVertex) :
    String → List Hop → Sql.AliasSupply →
      Except SchemaError (List JoinHop) × Sql.AliasSupply
  | _, [], supply => (.ok [], supply)
  | outerAlias, hop :: rest, supply =>
      match schema.hopTable outerType edgeName inner hop.target supply with
      | (.error e, supply) => (.error e, supply)
      | (.ok (table, aliasName), supply) =>
          let (joined, supply) := joinHops schema outerType edgeName inner aliasName rest supply
          let join := ⟨table, outerAlias, hop.outerColumn, aliasName, hop.innerColumn⟩
          (joined.map (join :: ·), supply)

/-- The joins from one vertex to another along an edge. -/
def joinPath (schema : Schema) (outer : BoundVertex) (traversal : Traversal)
    (inner : BoundVertex) (supply : Sql.AliasSupply) :
    Except SchemaError (List JoinHop) × Sql.AliasSupply :=
  match schema.hopsBetween outer.typeName traversal inner.typeName with
  | .error e => (.error e, supply)
  | .ok hops =>
      schema.joinHops outer.typeName traversal.edgeName inner outer.aliasName hops supply

end Schema

def Emit.joinPath (schema : Schema) (outer : BoundVertex) (traversal : Traversal)
    (inner : BoundVertex) : Emit (List JoinHop) := fun supply =>
  match schema.joinPath outer traversal inner supply with
  | (.ok hops, supply) => .ok (hops, supply)
  | (.error e, _) => .error (.schema e)

end TraversalSql
