import TraversalSql.Location
import TraversalSql.Schema.Error
import TraversalSql.Sql.Alias

/-!
What can go wrong when SQL is emitted for a query tree, and the computations in which it can.
-/

namespace TraversalSql

/-- A tree for which there is no statement. -/
inductive TreeFault where
  | noOutputs
  | outputCount (expected emitted : Nat)
  | noIncomingEdge (location : Location)
  | foldWithoutEdge (location : Location)
  | foldWithoutJoin (location : Location)
  | noLink (location : Location)
  | notRecursion (location : Location)
  | unboundNode (id : Nat)
deriving DecidableEq, Repr

def TreeFault.message : TreeFault → String
  | .noOutputs => "query has no outputs"
  | .outputCount expected emitted => s!"expected {expected} outputs, emitted {emitted}"
  | .noIncomingEdge location => s!"{location.display} has no incoming edge"
  | .foldWithoutEdge location => s!"fold at {location.display} has no incoming edge"
  | .foldWithoutJoin location => s!"fold at {location.display} resolved to no joins"
  | .noLink location => s!"no link selection at {location.display} for the recursion it owns"
  | .notRecursion location => s!"{location.display} is not a recursion"
  | .unboundNode id => s!"node NodeId({id}) has no alias in its scope"

/-- What can go wrong when SQL is emitted. -/
inductive EmitError where
  | wrongParameterCount (operator field : String) (expected actual : Nat)
  | unsupportedOperator (operator : String)
  | missingTagOperand (field : String)
  | unsupportedCombinator (name : String)
  | depthExceeded (location : Location) (depth max : Nat)
  | invalidDepth (location : Location)
  | recursionTypeMismatch (edgeName outerType innerType : String)
  | tagOutsideScope (location : Location) (tag : FieldRef)
  | unsupportedNesting (location : Location)
  | invalidTree (fault : TreeFault)
  | schema (error : SchemaError)
deriving DecidableEq, Repr

def EmitError.message : EmitError → String
  | .wrongParameterCount operator field expected actual =>
      s!"Operator `{operator}` on `{field}` expects {expected} parameter(s), got {actual}"
  | .unsupportedOperator operator => s!"Unsupported predicate operator `{operator}`"
  | .missingTagOperand field => s!"Tag operand for `{field}` was not resolved to a column"
  | .unsupportedCombinator name => s!"Unsupported recursion combinator `{name}`"
  | .depthExceeded location depth max =>
      s!"Recursion depth {depth} at {location.display} exceeds the configured maximum of {max}"
  | .invalidDepth location => s!"Recursion depth at {location.display} must be at least 1"
  | .recursionTypeMismatch edgeName outerType innerType =>
      s!"Recursion over `{edgeName}` must connect a type to itself, found "
        ++ s!"`{outerType}` -> `{innerType}`"
  | .tagOutsideScope location tag =>
      s!"Tag {tag.location.display}.{tag.field} is not visible from {location.display}"
  | .unsupportedNesting location =>
      s!"Unsupported nesting at {location.display}: "
        ++ "@recurse and @fold cannot be used inside @fold"
  | .invalidTree fault => "Invalid query tree: " ++ fault.message
  | .schema error => error.message

/-- A computation that takes names from the supply and may fail. -/
abbrev Emit (α : Type) : Type := StateT Sql.AliasSupply (Except EmitError) α

namespace Emit

/-- An answer of the schema. -/
def ofSchema {α : Type} : Except SchemaError α → Except EmitError α
  | .ok a => .ok a
  | .error e => .error (.schema e)

def takeAlias (table : String) : Emit String := fun supply => .ok (supply.nextAlias table)

def takeCte (kind : Sql.CteKind) : Emit String := fun supply => .ok (supply.nextCte kind)

def takeLink : Emit String := fun supply => .ok supply.nextLink

def takeFoldLink : Emit String := fun supply => .ok supply.nextFoldLink

end Emit

end TraversalSql
