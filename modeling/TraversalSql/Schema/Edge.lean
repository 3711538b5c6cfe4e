import TraversalSql.Location
import TraversalSql.Schema.Table

/-!
Edges between vertex types, stored from source to destination, and the joins that cross them in
either direction.
-/

namespace TraversalSql

/-- The join `source.sourceColumn = sink.sinkColumn`.  The sink table is named where it is not the
table of the destination. -/
structure ColumnLink where
  sourceColumn : String
  sinkColumn : String
  tableName : Option String
deriving DecidableEq, Repr

/-- How an edge joins its source with its destination. -/
inductive Edge where
  | direct (link : ColumnLink)
  /-- Through a junction table, which the first link names. -/
  | junction (first second : ColumnLink)
deriving DecidableEq, Repr

/-- What the inner side of a hop is. -/
inductive HopTarget where
  | junction (table : String)
  | vertex
deriving DecidableEq, Repr

/-- One join on the way from the vertex left to the vertex reached. -/
structure Hop where
  outerColumn : String
  target : HopTarget
  innerColumn : String
deriving DecidableEq, Repr

namespace Edge

def junctionTable? : Edge → Option String
  | .direct _ => none
  | .junction first _ => first.tableName

/-- The joins from the vertex left to the vertex reached.  Crossing an edge inward swaps the sides
of each link and takes the links in reverse order. -/
def hops (edge : Edge) (direction : Direction) : Except SchemaError (List Hop) :=
  match edge, direction with
  | .direct link, .outward => .ok [⟨link.sourceColumn, .vertex, link.sinkColumn⟩]
  | .direct link, .inward => .ok [⟨link.sinkColumn, .vertex, link.sourceColumn⟩]
  | .junction first second, direction =>
      match first.tableName with
      | none => .error (.invalidDefinition .junctionWithoutTable)
      | some table =>
          match direction with
          | .outward =>
              .ok [⟨first.sourceColumn, .junction table, first.sinkColumn⟩,
                ⟨second.sourceColumn, .vertex, second.sinkColumn⟩]
          | .inward =>
              .ok [⟨second.sinkColumn, .junction table, second.sourceColumn⟩,
                ⟨first.sinkColumn, .vertex, first.sourceColumn⟩]

/-- The edge that the foreign keys between two tables suggest.  Keys over one column count, in
either direction; exactly one of them must exist. -/
def infer (edgeName : String) (source sink : Table) : Except SchemaError Edge :=
  let forward := (source.keysTo sink.name).map fun key => ⟨key.1, key.2, none⟩
  let backward :=
    if source.name = sink.name then []
    else (sink.keysTo source.name).map fun key => ⟨key.2, key.1, none⟩
  match forward ++ backward with
  | [link] => .ok (.direct link)
  | [] => .error (.noForeignKey edgeName source.name sink.name)
  | candidates =>
      .error (.ambiguousForeignKey edgeName source.name sink.name candidates.length)

end Edge

/-- An edge that is configured on its source type. -/
structure ConfiguredEdge where
  toVertex : String
  edge : Edge
deriving DecidableEq, Repr

end TraversalSql
