/-!
Locations in a query and the edge crossings that lead from one to the next.
-/

namespace TraversalSql

/-- A place in a query: the start class, then one step for each edge crossed. -/
structure Location where
  steps : List String
deriving DecidableEq, Repr, Inhabited

namespace Location

def root (startClass : String) : Location := ⟨[startClass]⟩

def child (location : Location) (step : String) : Location := ⟨location.steps ++ [step]⟩

/-- The location one step back; a location of at most one step has none. -/
def parent? (location : Location) : Option Location :=
  if location.steps.length ≤ 1 then none else some ⟨location.steps.dropLast⟩

def depth (location : Location) : Nat := location.steps.length

def isRoot (location : Location) : Bool := location.depth == 1

/-- The written form of a location. -/
def display (location : Location) : String :=
  "[" ++ " -> ".intercalate location.steps ++ "]"

/-- Locations are ordered step by step, each step by its code points. -/
instance : Ord Location := ⟨fun a b => compare a.steps b.steps⟩

instance : ToString Location := ⟨display⟩

/-- One step back undoes one step forward, unless the step was the first. -/
theorem parent?_child (location : Location) (step : String) (h : location.steps ≠ []) :
    (location.child step).parent? = some location := by
  have : 0 < location.steps.length := List.length_pos_iff.2 h
  simp [parent?, child]
  omega

end Location

/-- Which way an edge is crossed. -/
inductive Direction where
  | outward
  | inward
deriving DecidableEq, Repr

namespace Direction

def name : Direction → String
  | .outward => "out"
  | .inward => "in"

def ofName? : String → Option Direction
  | "out" => some .outward
  | "in" => some .inward
  | _ => none

end Direction

/-- The crossing of a named edge in a direction. -/
structure Traversal where
  edgeName : String
  direction : Direction
deriving DecidableEq, Repr

/-- The step that a crossing adds to a location. -/
def Traversal.step (traversal : Traversal) : String :=
  traversal.direction.name ++ "_" ++ traversal.edgeName

/-- A field of the vertex at a location. -/
structure FieldRef where
  location : Location
  field : String
deriving DecidableEq, Repr

end TraversalSql
