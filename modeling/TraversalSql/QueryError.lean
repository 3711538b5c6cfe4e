import TraversalSql.Location

/-!
What can be wrong with a query.
-/

namespace TraversalSql

/-- The kinds of scope that the instructions of a query open and close. -/
inductive ScopeKind where
  | optional
  | fold
  | recursive
deriving DecidableEq, Repr

def ScopeKind.name : ScopeKind → String
  | .optional => "optional"
  | .fold => "fold"
  | .recursive => "recursive"

/-- An attempt to open or close a scope that is refused. -/
inductive ScopeFault where
  /-- A scope of the kind is open already. -/
  | alreadyInside (kind : ScopeKind)
  /-- Another scope has to be closed first. -/
  | notInnermost (kind innermost : ScopeKind) (openedAt : Location)
  /-- No scope is open. -/
  | notInside (kind : ScopeKind)
  /-- A fold is left by going back. -/
  | foldLeftByBacktrack (location : Location)
  /-- Going back is said to leave an optional crossing and leaves none, or the other way round. -/
  | optionalMismatch (location : Location) (optional : Bool)
deriving DecidableEq, Repr

def ScopeFault.message : ScopeFault → String
  | .alreadyInside kind => s!"cannot enter {kind.name} scope: already inside one"
  | .notInnermost kind innermost openedAt =>
      s!"cannot exit {kind.name} scope: innermost open scope is {innermost.name} "
        ++ s!"(opened at {openedAt.display})"
  | .notInside kind => s!"cannot exit {kind.name} scope: not inside one"
  | .foldLeftByBacktrack location =>
      s!"fold scope at {location.display} must be closed by Unfold, not Backtrack"
  | .optionalMismatch location optional =>
      let flag := if optional then "true" else "false"
      s!"Backtrack to {location.display} (optional: {flag}) does not match the scope it leaves"

/-- What can be wrong with a query. -/
inductive QueryError where
  | alreadyEntered (location : Location)
  | neverEntered (location : Location)
  | nothingEntered
  | noCurrentLocation
  | badScope (fault : ScopeFault)
  | unclosedScope (kind : ScopeKind) (openedAt : Location)
  | duplicateRelation (location : Location)
  | undefinedLocation (location : Location)
  | missingLocation (instruction : String) (index : Nat)
  | locationMismatch (marked current : Location)
  | missingResult
  | misplacedResult (index : Nat)
  | orphanOutput (aliasName : String) (location : Location)
  | missingStart
  | unsupportedOperator (operator field : String)
  | unknownType (location : Location)
deriving DecidableEq, Repr

def QueryError.message : QueryError → String
  | .alreadyEntered location => s!"Snapshot already exists for location {location.display}"
  | .neverEntered location => s!"No snapshot taken for location {location.display}"
  | .nothingEntered => "No snapshot has been taken yet"
  | .noCurrentLocation => "Location stack is empty"
  | .badScope fault => "Invalid state transition: " ++ fault.message
  | .unclosedScope kind openedAt =>
      s!"Scope {kind.name} opened at {openedAt.display} was never closed"
  | .duplicateRelation location =>
      s!"Relations should never share a location: {location.display}"
  | .undefinedLocation location => s!"Reference to undefined location {location.display}"
  | .missingLocation instruction index => s!"{instruction} at index {index} has no location"
  | .locationMismatch marked current =>
      s!"Marked location {marked.display} does not match the current location {current.display}"
  | .missingResult => "IR does not end with a ConstructResult instruction"
  | .misplacedResult index => s!"ConstructResult at index {index} is not the final instruction"
  | .orphanOutput aliasName location =>
      s!"Output `{aliasName}` at {location.display} is not listed in ConstructResult"
  | .missingStart => "IR does not start with a QueryRoot instruction"
  | .unsupportedOperator operator field =>
      s!"Unsupported filter operator `{operator}` on field `{field}`"
  | .unknownType location =>
      s!"No type registered for location {location.display} in query metadata"

end TraversalSql
