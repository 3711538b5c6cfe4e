import TraversalSql.Document.Json
import TraversalSql.Query

/-!
The documents in which queries are exchanged: reading them, where some fields have defaults, and
writing them with every field.  Queries, instructions, entries of type tables and references to
fields are records.  They are written as objects and read from objects only: a list that gives the
values of the fields of a record in their order, without their keys, is not read.
-/

namespace TraversalSql

namespace Location

/-- Read a location: a list of steps. -/
def ofDocument? (d : Document) : Option Location :=
  (Document.listOf? Document.text? d).map Location.mk

def toDocument (location : Location) : Document := .ofTexts location.steps

end Location

namespace Direction

def ofDocument? (d : Document) : Option Direction := d.choice?.bind ofName?

/-- Read a direction within a record that is kept whole until its kind is known. -/
def ofKept? (d : Document) : Option Direction := d.keptChoice?.bind ofName?

def toDocument (direction : Direction) : Document := .text direction.name

end Direction

namespace FieldRef

def ofDocument? (d : Document) : Option FieldRef := do
  let fields ← d.record? ["location", "field"]
  return {
    location := ← Document.required? fields "location" Location.ofDocument?
    field := ← Document.required? fields "field" Document.text? }

def toDocument (ref : FieldRef) : Document :=
  .object [("location", ref.location.toDocument), ("field", .text ref.field)]

end FieldRef

namespace Traversal

/-- Read the crossing of an edge from the fields of a record, with the given reading of its
direction. -/
def ofFields? (direction? : Document → Option Direction) (fields : List (String × Document)) :
    Option Traversal := do
  return {
    direction := ← Document.required? fields "direction" direction?
    edgeName := ← Document.required? fields "edge_name" Document.text? }

def toFields (traversal : Traversal) : List (String × Document) :=
  [("direction", traversal.direction.toDocument), ("edge_name", .text traversal.edgeName)]

end Traversal

namespace Instruction

/-- Read an instruction of a kind from the fields of a record. -/
def ofFields? (kind : String) (fields : List (String × Document)) : Option Instruction :=
  let optional := Document.defaulted? fields "optional" Document.bool? false
  let text := fun key => Document.required? fields key Document.text?
  let location := Document.required? fields "location" Location.ofDocument?
  let traversal := Traversal.ofFields? Direction.ofKept? fields
  match kind with
  | "QueryRoot" => do return .start (← text "start_class")
  | "Traverse" => do return .traverse (← traversal) (← optional)
  | "Recurse" => do
      let depth ← Document.required? fields "depth" Document.word32?
      return .recurse (← traversal) depth
  | "Fold" => do return .fold (← traversal)
  | "Unfold" => some .unfold
  | "MarkLocation" => do return .mark (← location)
  | "Backtrack" => do return .backtrack (← location) (← optional)
  | "Filter" => do
      let params ← Document.defaulted? fields "params" (Document.listOf? Document.text?) []
      let tag ← Document.optional? fields "tag" FieldRef.ofDocument?
      return .filter (← text "field") (← text "operator") params tag
  | "Output" => do return .output (← text "field") (← text "alias")
  | "ConstructResult" => do
      let entry := Document.pair? Document.text? FieldRef.ofDocument?
      return .result (← Document.required? fields "fields" (Document.listOf? entry))
  | _ => none

/-- The keys of the fields that instructions of a kind have. -/
def keys : String → List String
  | "QueryRoot" => ["start_class"]
  | "Traverse" => ["direction", "edge_name", "optional"]
  | "Recurse" => ["direction", "edge_name", "depth"]
  | "Fold" => ["direction", "edge_name"]
  | "MarkLocation" => ["location"]
  | "Backtrack" => ["location", "optional"]
  | "Filter" => ["field", "operator", "params", "tag"]
  | "Output" => ["field", "alias"]
  | "ConstructResult" => ["fields"]
  | _ => []

/-- Read an instruction: a record whose field `type` names the kind. -/
def ofDocument? (d : Document) : Option Instruction := do
  let kind ← Document.required? (← d.record? ["type"]) "type" Document.text?
  ofFields? kind (← d.record? (keys kind))

def toFields : Instruction → List (String × Document)
  | .start startClass => [("start_class", .text startClass)]
  | .traverse traversal optional => traversal.toFields ++ [("optional", .bool optional)]
  | .recurse traversal depth => traversal.toFields ++ [("depth", .ofNat depth)]
  | .fold traversal => traversal.toFields
  | .unfold => []
  | .mark location => [("location", location.toDocument)]
  | .backtrack location optional =>
      [("location", location.toDocument), ("optional", .bool optional)]
  | .filter field operator params tag =>
      [("field", .text field), ("operator", .text operator), ("params", .ofTexts params),
        ("tag", .ofOption FieldRef.toDocument tag)]
  | .output field aliasName => [("field", .text field), ("alias", .text aliasName)]
  | .result fields =>
      [("fields", .list (fields.map fun (aliasName, source) =>
        .list [.text aliasName, source.toDocument]))]

def toDocument (instruction : Instruction) : Document :=
  .object (("type", .text instruction.kind) :: instruction.toFields)

end Instruction

namespace TypeTable

def entryOfDocument? (d : Document) : Option (Location × Declared) := do
  let fields ← d.record? ["location", "type_name", "parent_location"]
  let location ← Document.required? fields "location" Location.ofDocument?
  return (location, {
    typeName := ← Document.required? fields "type_name" Document.text?
    parent := ← Document.optional? fields "parent_location" Location.ofDocument? })

def entryToDocument (entry : Location × Declared) : Document :=
  .object [("location", entry.1.toDocument), ("type_name", .text entry.2.typeName),
    ("parent_location", .ofOption Location.toDocument entry.2.parent)]

/-- Read a type table: a list of entries. -/
def ofDocument? (d : Document) : Option TypeTable :=
  (Document.listOf? entryOfDocument? d).map ofList

def toDocument (table : TypeTable) : Document := .list (table.toList.map entryToDocument)

end TypeTable

namespace Query

def ofDocument? (d : Document) : Option Query := do
  let fields ← d.record? ["ir_blocks", "query_metadata"]
  return {
    instructions := ←
      Document.required? fields "ir_blocks" (Document.listOf? Instruction.ofDocument?)
    types := ← Document.required? fields "query_metadata" TypeTable.ofDocument? }

/-- Read a query from a JSON text.  Faulty parts do no harm in fields that a query does not have.
Instructions are read whole, so nothing in them may be faulty. -/
def ofJson? (s : String) : Option Query := do
  let d ← Document.ofLenientJson? s
  if (← (← d.fields?).lookup "ir_blocks").isSound then ofDocument? d else none

def toDocument (query : Query) : Document :=
  .object [("ir_blocks", .list (query.instructions.map Instruction.toDocument)),
    ("query_metadata", query.types.toDocument)]

end Query

end TraversalSql
