import TraversalSql.QueryTree

/-!
The cut of a query tree into scopes.  A scope is what one select covers: a vertex, all that is
reached from it by plain crossings, and what hangs off these vertices, which is folds and the
scopes of recursions.
-/

namespace TraversalSql

/-- A vertex with what is reached from it by plain crossings. -/
inductive Group where
  | mk (node : Node) (children : List Group)
deriving Repr

def Group.node : Group → Node
  | .mk node _ => node

/-- A group with its folds and the scopes of its recursions, in the order in which their owners
are met from the top down, each branch before the next. -/
inductive Scope where
  | mk (group : Group) (folds : List Group) (recursions : List Scope)
deriving Repr

namespace Scope

/-- The vertices that a scope joins. -/
def group : Scope → Group
  | .mk group _ _ => group

/-- What the vertices of a scope fold. -/
def folds : Scope → List Group
  | .mk _ folds _ => folds

/-- The recursions that the vertices of a scope own. -/
def recursions : Scope → List Scope
  | .mk _ _ recursions => recursions

def node (scope : Scope) : Node := scope.group.node

/-- The scope of a node, from the scopes of the nodes below it. -/
def ofNode (node : Node) (joined folded recursive : List Scope) : Scope :=
  .mk (.mk node (joined.map group))
    (folded.map group ++ joined.flatMap folds)
    (recursive ++ joined.flatMap recursions)

end Scope

namespace QueryTree

/-- The scopes that start at the given nodes, each with the place of its node.  A node comes
before the nodes below it, so these are done first. -/
def scopesOf : List Node → List (Nat × Scope)
  | [] => []
  | node :: rest =>
      let below := scopesOf rest
      let pick := fun ids : List Nat => ids.filterMap fun id => below.lookup id
      (node.id, .ofNode node (pick node.children) (pick node.folds) (pick node.recursions)) :: below

def rootScope? (tree : QueryTree) : Option Scope := (scopesOf tree.nodes).head?.map Prod.snd

end QueryTree

end TraversalSql
