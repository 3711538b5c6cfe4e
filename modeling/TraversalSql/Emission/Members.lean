import TraversalSql.Emission.Condition
import TraversalSql.Emission.JoinPath
import TraversalSql.QueryTree.Scope
import TraversalSql.Target

/-!
The members of a scope: its vertices under their aliases, the joins that bind them, and the
conditions and columns that they contribute.
-/

namespace TraversalSql

/-- A vertex that is bound in a scope. -/
structure Member where
  node : Node
  aliasName : String
deriving DecidableEq, Repr

/-- The members of a scope, each branch before the next, and the joins in the order in which they
are written. -/
structure Members where
  bound : List Member
  joins : List Sql.Join
deriving Repr

namespace Member

def vertex (member : Member) : BoundVertex := ⟨member.node.typeName, member.aliasName⟩

def column (member : Member) (schema : Schema) (field : String) : Except EmitError Sql.Expr := do
  return .column member.aliasName (← Emit.ofSchema (schema.columnOf member.node.typeName field))

end Member

namespace Node

/-- Whether a vertex may be missing in a scope.  A scope that is itself reached by an optional
crossing is joined as a whole, so its members are not optional within it. -/
def optionalWithin (node scopeRoot : Node) : Bool :=
  node.relation.site.inOptional && !scopeRoot.relation.site.inOptional

/-- How a vertex is joined in a scope. -/
def joinKind (node scopeRoot : Node) : Sql.JoinKind :=
  if node.optionalWithin scopeRoot then .left else .inner

end Node

/-- Bind a vertex below a member, with the joins that lead to it. -/
def bindChild (target : Target) (scopeRoot : Node) (parent : Member) (child : Node) :
    Emit (Member × List Sql.Join) := do
  let some traversal := child.relation.edge
    | throw (.invalidTree (.noIncomingEdge child.location))
  let table ← Emit.ofSchema (target.schema.tableOf child.typeName)
  let member : Member := ⟨child, ← Emit.takeAlias table.name⟩
  let hops ← Emit.joinPath target.schema parent.vertex traversal member.vertex
  return (member, hops.map fun hop => hop.join (child.joinKind scopeRoot))

/-- Bind vertices below a member, one after the other. -/
def bindChildren (target : Target) (scopeRoot : Node) (parent : Member) :
    List Group → Emit (List (Member × List Sql.Join))
  | [] => return []
  | child :: rest => do
      let first ← bindChild target scopeRoot parent child.node
      return first :: (← bindChildren target scopeRoot parent rest)

/-- A fold or a recursion may not hang off a vertex of a fold. -/
def checkNesting (inFold : Bool) (node : Node) : Except EmitError Unit :=
  if inFold && !(node.recursions.isEmpty && node.folds.isEmpty) then
    .error (.unsupportedNesting node.location)
  else .ok ()

mutual

/-- Bind a group below its top vertex, which has an alias.  All that is reached from a vertex by
one crossing is bound before what lies further below. -/
def bindGroup (target : Target) (scopeRoot : Node) (inFold : Bool) :
    Group → String → Emit Members
  | .mk node children, aliasName => do
      checkNesting inFold node
      let member : Member := ⟨node, aliasName⟩
      let joined ← bindChildren target scopeRoot member children
      let below ← bindGroups target scopeRoot inFold children (joined.map fun j => j.1.aliasName)
      return ⟨member :: below.bound, joined.flatMap Prod.snd ++ below.joins⟩

/-- Bind groups one after the other, each below its top vertex. -/
def bindGroups (target : Target) (scopeRoot : Node) (inFold : Bool) :
    List Group → List String → Emit Members
  | group :: groups, aliasName :: aliases => do
      let first ← bindGroup target scopeRoot inFold group aliasName
      let rest ← bindGroups target scopeRoot inFold groups aliases
      return ⟨first.bound ++ rest.bound, first.joins ++ rest.joins⟩
  | _, _ => return ⟨[], []⟩

end

namespace Members

def find? (members : Members) (id : Nat) : Option Member :=
  members.bound.find? fun member => member.node.id == id

/-- The member below which a node hangs. -/
def owner (members : Members) (node : Node) : Except EmitError Member :=
  match node.parent.bind members.find? with
  | some member => .ok member
  | none => .error (.invalidTree (.unboundNode (node.parent.getD node.id)))

/-- The operand of the tag of a filter of a vertex.  Only vertices of the same scope can be
tagged. -/
def tagOperand (members : Members) (schema : Schema) (scopeRoot node : Node)
    (predicate : NodePredicate) : Except EmitError (Option Operand) :=
  match predicate.predicate.tag, predicate.tagNode with
  | some tag, some tagNode =>
      match members.find? tagNode with
      | none => .error (.tagOutsideScope node.location tag)
      | some tagged => do
          return some ⟨← tagged.column schema tag.field, tagged.node.optionalWithin scopeRoot⟩
  | _, _ => .ok none

/-- The condition of a filter of a member. -/
def filter (members : Members) (schema : Schema) (scopeRoot : Node) (member : Member)
    (predicate : NodePredicate) : Except EmitError Sql.Expr := do
  let column ← member.column schema predicate.predicate.field
  let tag ← members.tagOperand schema scopeRoot member.node predicate
  predicate.predicate.condition ⟨column, member.node.optionalWithin scopeRoot⟩ tag

/-- The conditions of the filters of all members, in the order of the members. -/
def filters (members : Members) (schema : Schema) (scopeRoot : Node) :
    Except EmitError (List Sql.Expr) :=
  (members.bound.flatMap fun member => member.node.predicates.map fun p => (member, p)).mapM
    fun (member, predicate) => members.filter schema scopeRoot member predicate

/-- The columns that the members give out, in the order of the members, each with its output. -/
def outputs (members : Members) (schema : Schema) :
    Except EmitError (List (NodeOutput × Sql.Expr)) :=
  (members.bound.flatMap fun member => member.node.outputs.map fun o => (member, o)).mapM
    fun (member, output) => do return (output, ← member.column schema output.field)

end Members

end TraversalSql
