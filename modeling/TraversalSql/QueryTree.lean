import TraversalSql.Block

/-!
Query trees: one node for each vertex of a query, in the order in which the vertices are met.  A
node is known by its place in this order, and every node but the first hangs below the node one
step back.
-/

namespace TraversalSql

/-- A field that a node gives out, with its place among the outputs of the query. -/
structure NodeOutput where
  field : String
  aliasName : String
  index : Nat
deriving DecidableEq, Repr

/-- A filter of a node, with the node whose field is its tag. -/
structure NodePredicate where
  predicate : Predicate
  tagNode : Option Nat
deriving DecidableEq, Repr

/-- A node of a query tree. -/
structure Node where
  id : Nat
  relation : Relation
  parent : Option Nat
  /-- The nodes reached by plain crossings, mandatory or optional. -/
  children : List Nat
  recursions : List Nat
  folds : List Nat
  outputs : List NodeOutput
  predicates : List NodePredicate
  /-- The keys that the node exposes, each with the recursion that asks for it. -/
  links : List (Nat × Link)
deriving DecidableEq, Repr

namespace Node

/-- The node of a vertex to which nothing is attached yet. -/
def ofRelation (id : Nat) (relation : Relation) (parent : Option Nat) : Node :=
  ⟨id, relation, parent, [], [], [], [], [], []⟩

def location (node : Node) : Location := node.relation.site.location

def typeName (node : Node) : String := node.relation.site.currentType

/-- The key that a node exposes to a recursion. -/
def linkFor? (node : Node) (recursion : Nat) : Option Link :=
  (node.links.find? fun entry => entry.1 == recursion).map Prod.snd

/-- Hang a node below this one, by the way in which its vertex is reached.  A vertex that starts a
query hangs below nothing. -/
def adopt? (node : Node) (child : Nat) : RelationKind → Option Node
  | .root => none
  | .traverse => some { node with children := node.children ++ [child] }
  | .recurse _ => some { node with recursions := node.recursions ++ [child] }
  | .fold => some { node with folds := node.folds ++ [child] }

def addPredicate (predicate : NodePredicate) (node : Node) : Node :=
  { node with predicates := node.predicates ++ [predicate] }

def addLink (recursion : Nat) (link : Link) (node : Node) : Node :=
  { node with links := node.links ++ [(recursion, link)] }

def addOutput (output : NodeOutput) (node : Node) : Node :=
  { node with outputs := node.outputs ++ [output] }

end Node

/-- A query tree: its nodes, the first of which is the root, and the aliases of what it gives out.
-/
structure QueryTree where
  nodes : List Node
  outputAliases : List String
deriving DecidableEq, Repr

namespace QueryTree

def placeOf? (nodes : List Node) (location : Location) : Option Nat :=
  nodes.findIdx? fun node => node.location == location

/-- The place of the node of a location that must have one. -/
def placeOf (nodes : List Node) (location : Location) : Except QueryError Nat :=
  match placeOf? nodes location with
  | some place => .ok place
  | none => .error (.undefinedLocation location)

/-- Add the node of a vertex.  The first one becomes the root, whatever its kind; any other hangs
below the node one step back. -/
def addRelation (nodes : List Node) (relation : Relation) : Except QueryError (List Node) := do
  let location := relation.site.location
  if (placeOf? nodes location).isSome then
    throw (.duplicateRelation location)
  if nodes.isEmpty then
    return [.ofRelation 0 relation none]
  let some above := location.parent? | throw (.duplicateRelation location)
  let place ← placeOf nodes above
  let id := nodes.length
  match (nodes[place]?).bind fun node => node.adopt? id relation.kind with
  | none => throw (.duplicateRelation location)
  | some parent => return nodes.set place parent ++ [.ofRelation id relation (some place)]

/-- Attach a filter or a key to the node of its location; vertices and outputs leave the nodes
alone. -/
def attachBlock (nodes : List Node) : Block → Except QueryError (List Node)
  | .predicate predicate => do
      let place ← placeOf nodes predicate.site.location
      let tagNode ← match predicate.tag with
        | none => pure none
        | some tag => some <$> placeOf nodes tag.location
      return nodes.modify place (Node.addPredicate ⟨predicate, tagNode⟩)
  | .link link => do
      let owner ← placeOf nodes link.site.location
      let target ← placeOf nodes link.target
      return nodes.modify owner (Node.addLink target link)
  | .relation _ => .ok nodes
  | .selection _ => .ok nodes

/-- Attach outputs to the nodes of their sources; the first of them has a given index. -/
def attachOutputs (nodes : List Node) (index : Nat) :
    List (String × FieldRef) → Except QueryError (List Node)
  | [] => .ok nodes
  | (aliasName, source) :: rest => do
      let place ← placeOf nodes source.location
      attachOutputs (nodes.modify place (Node.addOutput ⟨source.field, aliasName, index⟩))
        (index + 1) rest

/-- Whether a field that the stream gives out is among the outputs. -/
def isListed (outputs : List (String × FieldRef)) (selection : Selection) : Bool :=
  outputs.any fun (aliasName, source) =>
    aliasName == selection.aliasName && source.location == selection.site.location
      && source.field == selection.field

/-- Every field that the stream gives out is among the outputs. -/
def checkListed (outputs : List (String × FieldRef)) : Block → Except QueryError Unit
  | .selection selection =>
      if isListed outputs selection then .ok ()
      else .error (.orphanOutput selection.aliasName selection.site.location)
  | _ => .ok ()

/-- The tree of the blocks of a query, whatever their order. -/
def ofBlocks (read : Blocks) : Except QueryError QueryTree := do
  let nodes ← (read.blocks.filterMap Block.relation?).foldlM addRelation []
  if nodes.isEmpty then
    throw .missingStart
  let nodes ← read.blocks.foldlM attachBlock nodes
  let nodes ← attachOutputs nodes 0 read.outputs
  read.blocks.forM (checkListed read.outputs)
  return ⟨nodes, read.outputs.map Prod.fst⟩

def nodeAt? (tree : QueryTree) (location : Location) : Option Nat := placeOf? tree.nodes location

def size (tree : QueryTree) : Nat := tree.nodes.length

end QueryTree

end TraversalSql
