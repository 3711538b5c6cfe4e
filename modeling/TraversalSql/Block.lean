import TraversalSql.FilterOperator
import TraversalSql.Walk

/-!
Blocks: what the instructions of a query say about single locations.
-/

namespace TraversalSql

/-- How a vertex of a query is reached. -/
inductive RelationKind where
  | root
  | traverse
  | recurse (depth : Nat)
  | fold
deriving DecidableEq, Repr

/-- A vertex of a query. -/
structure Relation where
  site : Site
  kind : RelationKind
  /-- The edge by which the vertex is reached; the first vertex has none. -/
  edge : Option Traversal
deriving DecidableEq, Repr

namespace Relation

def recursionDepth? (relation : Relation) : Option Nat :=
  match relation.kind with
  | .recurse depth => some depth
  | _ => none

def isFold (relation : Relation) : Bool := relation.kind == .fold

end Relation

/-- A field that is given out. -/
structure Selection where
  site : Site
  field : String
  aliasName : String
deriving DecidableEq, Repr

/-- A filter on a field of a vertex. -/
structure Predicate where
  site : Site
  field : String
  params : List String
  operator : FilterOperator
  /-- The field of another vertex that is the first operand. -/
  tag : Option FieldRef
deriving DecidableEq, Repr

/-- A key that a vertex has to expose, so that the recursion at `target` can be joined to it. -/
structure Link where
  site : Site
  edge : Traversal
  target : Location
deriving DecidableEq, Repr

/-- A block. -/
inductive Block where
  | relation (relation : Relation)
  | selection (selection : Selection)
  | predicate (predicate : Predicate)
  | link (link : Link)
deriving DecidableEq, Repr

namespace Block

def site : Block → Site
  | .relation r => r.site
  | .selection s => s.site
  | .predicate p => p.site
  | .link l => l.site

def location (block : Block) : Location := block.site.location

/-- The vertex of a block that is one. -/
def relation? : Block → Option Relation
  | .relation r => some r
  | _ => none

end Block

/-- The blocks of a query and what it gives out, each alias with its source. -/
structure Blocks where
  blocks : List Block
  outputs : List (String × FieldRef)
deriving DecidableEq, Repr

end TraversalSql
