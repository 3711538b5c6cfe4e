import TraversalSql.Location
import TraversalSql.OrderedMap

/-!
Queries as they arrive: a flat stream of instructions, and a table that gives the type at each
location.

The instructions that belong to a location stand before the instruction that marks it, so the
location of an instruction is the next one marked in the stream.
-/

namespace TraversalSql

/-- An instruction of a query. -/
inductive Instruction where
  /-- Start the query at a class. -/
  | start (startClass : String)
  /-- Cross an edge; an optional crossing keeps what has no partner. -/
  | traverse (traversal : Traversal) (optional : Bool)
  /-- Cross an edge any number of times up to a depth. -/
  | recurse (traversal : Traversal) (depth : Nat)
  /-- Cross an edge and collect what is reached. -/
  | fold (traversal : Traversal)
  /-- Leave a fold. -/
  | unfold
  /-- Close the instructions of a location. -/
  | mark (location : Location)
  /-- Go back to a location; `optional` tells whether an optional crossing is left. -/
  | backtrack (location : Location) (optional : Bool)
  /-- Keep only what passes a comparison with parameters, or with a field met before. -/
  | filter (field operator : String) (params : List String) (tag : Option FieldRef)
  /-- Give out a field under an alias. -/
  | output (field aliasName : String)
  /-- List all that is given out. -/
  | result (fields : List (String × FieldRef))
deriving DecidableEq, Repr

namespace Instruction

def kind : Instruction → String
  | .start _ => "QueryRoot"
  | .traverse _ _ => "Traverse"
  | .recurse _ _ => "Recurse"
  | .fold _ => "Fold"
  | .unfold => "Unfold"
  | .mark _ => "MarkLocation"
  | .backtrack _ _ => "Backtrack"
  | .filter _ _ _ _ => "Filter"
  | .output _ _ => "Output"
  | .result _ => "ConstructResult"

/-- The location that an instruction marks. -/
def marked? : Instruction → Option Location
  | .mark location => some location
  | _ => none

def isStart : Instruction → Bool
  | .start _ => true
  | _ => false

def isResult : Instruction → Bool
  | .result _ => true
  | _ => false

end Instruction

/-- What is declared about a location. -/
structure Declared where
  typeName : String
  /-- The location from which this one was reached, where it is given. -/
  parent : Option Location
deriving DecidableEq, Repr

/-- The types of locations, in the order in which the locations were first given. -/
structure TypeTable where
  entries : OrderedMap Location Declared
deriving DecidableEq, Repr

namespace TypeTable

def empty : TypeTable := ⟨.empty⟩

/-- The table of a list of entries; a later entry for a location takes the place of an earlier
one. -/
def ofList (entries : List (Location × Declared)) : TypeTable := ⟨.ofList entries⟩

/-- The entries in the order in which their locations were first given. -/
def toList (table : TypeTable) : List (Location × Declared) := table.entries.entries

/-- Declare the type at a location, which is reached from the location one step back. -/
def register (table : TypeTable) (location : Location) (typeName : String) : TypeTable :=
  ⟨table.entries.insert location ⟨typeName, location.parent?⟩⟩

def find? (table : TypeTable) (location : Location) : Option Declared :=
  table.entries.find? location

def typeName? (table : TypeTable) (location : Location) : Option String :=
  (table.find? location).map Declared.typeName

/-- The location from which a location was reached, where the table gives it. -/
def parent? (table : TypeTable) (location : Location) : Option Location :=
  (table.find? location).bind Declared.parent

def size (table : TypeTable) : Nat := table.entries.size

def isEmpty (table : TypeTable) : Bool := table.entries.isEmpty

end TypeTable

/-- A query. -/
structure Query where
  instructions : List Instruction
  types : TypeTable
deriving DecidableEq, Repr

end TraversalSql
