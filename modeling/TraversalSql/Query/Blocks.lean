import TraversalSql.Block

/-!
From the instructions of a query to its blocks.  Each instruction is read on its own, at the next
location marked in the stream, while a walk keeps track of the scopes.
-/

namespace TraversalSql.Query

/-- The location to which the first of some instructions belongs: the next one marked. -/
def nextMarked? (instructions : List Instruction) : Option Location :=
  instructions.findSome? Instruction.marked?

/-- A crossing leads from the current location one step further. -/
def checkStep (walk : Walk) (location : Location) : Except QueryError Unit := do
  let current ← walk.current
  if location.parent? ≠ some current then
    throw (.locationMismatch location current)

/-- Enter a vertex that is reached in a given way. -/
def enterRelation (types : TypeTable) (walk : Walk) (location : Location) (kind : RelationKind)
    (edge : Option Traversal) : Except QueryError (Block × Walk) := do
  let (site, walk) ← walk.enter types location
  return (.relation ⟨site, kind, edge⟩, walk)

/-- The site of an instruction that belongs to a location that has been entered. -/
def siteOf (walk : Walk) (location : Location) : Except QueryError Site :=
  (walk.siteAt location).mapError fun _ => .undefinedLocation location

/-- The location of an instruction that needs one. -/
def needLocation (index : Nat) (instruction : Instruction) :
    Option Location → Except QueryError Location
  | some location => .ok location
  | none => .error (.missingLocation instruction.kind index)

/-- Read one instruction: its blocks, and the walk after it.  `index` is its place in the stream and
`marked` the location to which it belongs. -/
def readInstruction (types : TypeTable) (index : Nat) (marked : Option Location) (walk : Walk)
    (instruction : Instruction) : Except QueryError (List Block × Walk) :=
  match instruction with
  | .start _ => do
      let location ← needLocation index instruction marked
      let (block, walk) ← enterRelation types walk location .root none
      return ([block], walk)
  | .traverse traversal optional => do
      let location ← needLocation index instruction marked
      checkStep walk location
      let walk ← if optional then walk.openScope .optional else pure walk
      let (block, walk) ← enterRelation types walk location .traverse (some traversal)
      return ([block], walk)
  | .recurse traversal depth => do
      let location ← needLocation index instruction marked
      checkStep walk location
      let link := Block.link ⟨← walk.currentSite, traversal, location⟩
      let walk ← walk.openScope .recursive
      let (block, walk) ← enterRelation types walk location (.recurse depth) (some traversal)
      return ([link, block], walk)
  | .fold traversal => do
      let location ← needLocation index instruction marked
      checkStep walk location
      let walk ← walk.openScope .fold
      let (block, walk) ← enterRelation types walk location .fold (some traversal)
      return ([block], walk)
  | .unfold => do
      let (_, walk) ← walk.leave
      return ([], ← walk.closeScope .fold)
  | .mark location => do
      let current ← walk.current
      if current ≠ location then
        throw (.locationMismatch location current)
      return ([], walk)
  | .backtrack location optional => do
      return ([], ← walk.backtrack location optional)
  | .filter field operator params tag => do
      let location ← needLocation index instruction marked
      let site ← siteOf walk location
      let some registered := FilterOperator.ofName? operator
        | throw (.unsupportedOperator operator field)
      if let some tag := tag then
        if !walk.hasEntered tag.location then
          throw (.undefinedLocation tag.location)
      return ([.predicate ⟨site, field, params, registered, tag⟩], walk)
  | .output field aliasName => do
      let location ← needLocation index instruction marked
      let site ← siteOf walk location
      return ([.selection ⟨site, field, aliasName⟩], walk)
  | .result _ => .error (.misplacedResult index)

/-- Read instructions, of which the first has a given place in the stream, up to the list of what
is given out. -/
def readFrom (types : TypeTable) (index : Nat) (walk : Walk) :
    List Instruction → Except QueryError (Blocks × Walk)
  | [] => .ok (⟨[], []⟩, walk)
  | [.result fields] => .ok (⟨[], fields⟩, walk)
  | instruction :: rest => do
      let marked := nextMarked? (instruction :: rest)
      let (blocks, walk) ← readInstruction types index marked walk instruction
      let (read, walk) ← readFrom types (index + 1) walk rest
      return ({ read with blocks := blocks ++ read.blocks }, walk)

/-- A query starts at a class, and lists what it gives out last and only there. -/
def checkEnvelope (instructions : List Instruction) : Except QueryError Unit := do
  if !(instructions.head?.any Instruction.isStart) then
    throw .missingStart
  if !(instructions.getLast?.any Instruction.isResult) then
    throw .missingResult
  match instructions.dropLast.findIdx? Instruction.isResult with
  | some index => throw (.misplacedResult index)
  | none => return ()

def blocks (query : Query) : Except QueryError Blocks := do
  checkEnvelope query.instructions
  let (read, walk) ← readFrom query.types 0 Walk.start query.instructions
  walk.finish
  return read

end TraversalSql.Query
