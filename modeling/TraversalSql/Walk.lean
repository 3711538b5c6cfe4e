import TraversalSql.Query
import TraversalSql.QueryError

/-!
The walk over the locations of a query: where it is, which scopes enclose it, and what it recorded
at each location when it entered it.  A location is entered at most once, and what was recorded
there never changes.
-/

namespace TraversalSql

/-- What is recorded when a location is entered. -/
structure Site where
  location : Location
  inOptional : Bool
  inFold : Bool
  inRecursion : Bool
  /-- The type at the location. -/
  currentType : String
  /-- The type one level up; the start of a query has none. -/
  outerType : Option String
deriving DecidableEq, Repr

/-- A scope that is open: where it was opened, and how many locations were on the path then. -/
structure OpenScope where
  kind : ScopeKind
  openedAt : Location
  height : Nat
deriving DecidableEq, Repr

/-- The state of a walk.  The path has the current location first, and the scopes have the innermost
first. -/
structure Walk where
  path : List Location
  scopes : List OpenScope
  sites : OrderedMap Location Site
  /-- How many optional scopes have been closed. -/
  optionalsClosed : Nat
deriving DecidableEq, Repr

namespace Walk

def start : Walk := ⟨[], [], .empty, 0⟩

def current (walk : Walk) : Except QueryError Location :=
  match walk.path with
  | [] => .error .noCurrentLocation
  | location :: _ => .ok location

/-- Whether a scope of a kind is open. -/
def isInside (walk : Walk) (kind : ScopeKind) : Bool :=
  walk.scopes.any fun scope => scope.kind == kind

/-- The type of the location one level up: of the location that the table gives as the parent, or
else of the location one step back. -/
def outerType (types : TypeTable) (location : Location) : Except QueryError (Option String) :=
  match (types.parent? location).or location.parent? with
  | none => .ok none
  | some parent =>
      match types.typeName? parent with
      | some typeName => .ok (some typeName)
      | none => .error (.unknownType parent)

/-- Enter a location and record its site. -/
def enter (walk : Walk) (types : TypeTable) (location : Location) :
    Except QueryError (Site × Walk) := do
  if walk.sites.contains location then
    throw (.alreadyEntered location)
  let some currentType := types.typeName? location | throw (.unknownType location)
  let outerType ← outerType types location
  let site : Site := {
    location, currentType, outerType
    inOptional := walk.isInside .optional
    inFold := walk.isInside .fold
    inRecursion := walk.isInside .recursive }
  return (site,
    { walk with path := location :: walk.path, sites := walk.sites.insert location site })

def leave (walk : Walk) : Except QueryError (Location × Walk) :=
  match walk.path with
  | [] => .error .noCurrentLocation
  | location :: rest => .ok (location, { walk with path := rest })

def openScope (walk : Walk) (kind : ScopeKind) : Except QueryError Walk := do
  if walk.isInside kind then
    throw (.badScope (.alreadyInside kind))
  let openedAt ← walk.current
  return { walk with scopes := ⟨kind, openedAt, walk.path.length⟩ :: walk.scopes }

/-- Close the innermost scope, which must be of the given kind. -/
def closeScope (walk : Walk) (kind : ScopeKind) : Except QueryError Walk :=
  match walk.scopes with
  | [] => .error (.badScope (.notInside kind))
  | scope :: rest =>
      if scope.kind = kind then
        .ok { walk with
          scopes := rest
          optionalsClosed := walk.optionalsClosed + if kind = .optional then 1 else 0 }
      else .error (.badScope (.notInnermost kind scope.kind scope.openedAt))

/-- The kind of the innermost scope, if it was opened when the path was as long as it is now. -/
def scopeOpenedHere? (walk : Walk) : Option ScopeKind :=
  match walk.scopes with
  | [] => none
  | scope :: _ => if scope.height = walk.path.length then some scope.kind else none

/-- What was recorded at a location. -/
def siteAt (walk : Walk) (location : Location) : Except QueryError Site :=
  match walk.sites.find? location with
  | some site => .ok site
  | none => .error (.neverEntered location)

/-- What was recorded at the current location. -/
def currentSite (walk : Walk) : Except QueryError Site := do
  if walk.sites.isEmpty then
    throw .nothingEntered
  walk.siteAt (← walk.current)

def hasEntered (walk : Walk) (location : Location) : Bool := walk.sites.contains location

/-- End the walk; no scope may be open. -/
def finish (walk : Walk) : Except QueryError Unit :=
  match walk.scopes with
  | [] => .ok ()
  | scope :: _ => .error (.unclosedScope scope.kind scope.openedAt)

/-- Close the scopes that were opened when the path had a given height, which going back to
`location` leaves.  The answer has the scopes that stay open and the number of optional scopes
closed. -/
def closeAtHeight (location : Location) (height : Nat) :
    List OpenScope → Except QueryError (List OpenScope × Nat)
  | [] => .ok ([], 0)
  | scope :: rest =>
      if scope.height = height then
        match scope.kind with
        | .optional => do
            let (left, closed) ← closeAtHeight location height rest
            return (left, closed + 1)
        | .recursive => closeAtHeight location height rest
        | .fold => .error (.badScope (.foldLeftByBacktrack location))
      else .ok (scope :: rest, 0)

/-- Go back to a location and close the scopes that this leaves. -/
def backtrack (walk : Walk) (location : Location) (optional : Bool) : Except QueryError Walk := do
  let (_, walk) ← walk.leave
  let current ← walk.current
  if current ≠ location then
    throw (.locationMismatch location current)
  let (scopes, closed) ← closeAtHeight location walk.path.length walk.scopes
  if (closed != 0) != optional then
    throw (.badScope (.optionalMismatch location optional))
  return { walk with scopes, optionalsClosed := walk.optionalsClosed + closed }

end Walk

end TraversalSql
