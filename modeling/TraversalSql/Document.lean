import TraversalSql.OrderedMap
import TraversalSql.Text.Digits

/-!
Documents: the values that JSON and YAML texts denote, and the typed readings of them.

A scalar of a JSON text, or a quoted one of a YAML text, has a type of its own.  A plain YAML scalar
takes its type from the place it fills, so it is kept as written until it is read.

A part of a text may be well formed and yet denote no value.  Such a part does no harm where nobody
reads it, so it is kept as faulty, and no typed reading accepts it.
-/

namespace TraversalSql

/-- A value of a JSON or YAML text. -/
inductive Document where
  | null
  | bool (value : Bool)
  | integer (value : Int)
  | decimal (written : String)
  | text (value : String)
  | plain (written : String)
  | list (items : List Document)
  | object (fields : List (String × Document))
  /-- A well-formed part of a text that denotes no value. -/
  | faulty
deriving Inhabited

namespace Document

mutual

/-- Whether no part of a document is faulty. -/
def isSound : Document → Bool
  | .faulty => false
  | .list items => areSound items
  | .object fields => haveSoundValues fields
  | _ => true

/-- Whether no part of some documents is faulty. -/
def areSound : List Document → Bool
  | [] => true
  | d :: rest => d.isSound && areSound rest

/-- Whether no part of the values of some fields is faulty. -/
def haveSoundValues : List (String × Document) → Bool
  | [] => true
  | (_, d) :: rest => d.isSound && haveSoundValues rest

end

/-- The object of entries, of which each key must be a text. -/
def ofEntries (entries : List (Option String × Document)) : Document :=
  match entries.mapM fun (key, value) => key.map fun name => (name, value) with
  | some fields => .object fields
  | none => .faulty

/-- The text of a string, or of a plain scalar as written. -/
def text? : Document → Option String
  | .text s => some s
  | .plain s => some s
  | _ => none

/-- The plain scalars that stand for the absence of a value. -/
def isNullWord (written : String) : Bool :=
  written ∈ ["", "~", "null", "Null", "NULL"]

/-- Whether the document says that there is no value. -/
def isAbsent : Document → Bool
  | .null => true
  | .plain s => isNullWord s
  | _ => false

def bool? : Document → Option Bool
  | .bool b => some b
  | _ => none

/-- The elements of a list; a plain scalar with nothing written is a list without elements. -/
def list? : Document → Option (List Document)
  | .list items => some items
  | .plain "" => some []
  | _ => none

/-- The fields of an object; a plain scalar with nothing written is an object without fields. -/
def fields? : Document → Option (List (String × Document))
  | .object fields => some fields
  | .plain "" => some []
  | _ => none

/-- Read an optional value: absence is allowed, anything else goes to `read`. -/
def option? {α : Type} (read : Document → Option α) (d : Document) : Option (Option α) :=
  if d.isAbsent then some none else (read d).map some

def listOf? {α : Type} (read : Document → Option α) (d : Document) : Option (List α) := do
  (← d.list?).mapM read

/-- Read an object as a map; the last value of a repeated key wins. -/
def mapOf? {α : Type} (read : Document → Option α) (d : Document) :
    Option (OrderedMap String α) := do
  let entries ← (← d.fields?).mapM fun field => do return (field.1, ← read field.2)
  return OrderedMap.ofList entries

/-- Read a list of exactly two elements. -/
def pair? {α β : Type} (readFirst : Document → Option α) (readSecond : Document → Option β)
    (d : Document) : Option (α × β) := do
  match ← d.list? with
  | [first, second] => return (← readFirst first, ← readSecond second)
  | _ => none

/-- The value of an unsigned decimal numeral, or of one in base sixteen, eight or two with its mark.
A numeral with more than one digit does not start with a zero. -/
def plainWord32? (written : String) : Option Nat :=
  let unsigned := match written.toList with
    | '+' :: rest => rest
    | cs => cs
  let value := match unsigned with
    | '0' :: 'x' :: digits => Text.readDigits 16 Text.maxWord32 digits
    | '0' :: 'o' :: digits => Text.readDigits 8 Text.maxWord32 digits
    | '0' :: 'b' :: digits => Text.readDigits 2 Text.maxWord32 digits
    | '0' :: _ :: _ => .error .invalidDigit
    | digits => Text.readDigits 10 Text.maxWord32 digits
  value.toOption

def word32? : Document → Option Nat
  | .integer n => if 0 ≤ n ∧ n ≤ (Text.maxWord32 : Int) then some n.toNat else none
  | .plain s => plainWord32? s
  | _ => none

def int64? : Document → Option Int
  | .integer n => if -9223372036854775808 ≤ n ∧ n ≤ 9223372036854775807 then some n else none
  | _ => none

/-- The fields of a record: an object in which none of the named keys is given twice.  A list of
values without their keys is not read as a record, whatever the order of its values. -/
def record? (keys : List String) (d : Document) : Option (List (String × Document)) := do
  let fields ← d.fields?
  if keys.all fun key => (fields.filter fun field => field.1 == key).length ≤ 1 then
    some fields
  else
    none

/-- Read a field that must be given. -/
def required? {α : Type} (fields : List (String × Document)) (key : String)
    (read : Document → Option α) : Option α := do
  read (← fields.lookup key)

/-- Read a field that has a default; a field that is given must be readable. -/
def defaulted? {α : Type} (fields : List (String × Document)) (key : String)
    (read : Document → Option α) (default : α) : Option α :=
  match fields.lookup key with
  | none => some default
  | some d => read d

/-- Read a field that may be missing or absent. -/
def optional? {α : Type} (fields : List (String × Document)) (key : String)
    (read : Document → Option α) : Option (Option α) :=
  defaulted? fields key (option? read) none

/-- A bare name of a choice, which may also be written as the key of an object with nothing under
it. -/
def choice? : Document → Option String
  | .text name => some name
  | .object [(name, .null)] => some name
  | _ => none

/-- A bare name of a choice within a record that is kept whole until its kind is known.  There an
object without fields counts as nothing, too. -/
def keptChoice? : Document → Option String
  | .object [(name, .object [])] => some name
  | d => d.choice?

def ofOption {α : Type} (write : α → Document) : Option α → Document
  | none => .null
  | some value => write value

def ofTexts (texts : List String) : Document := .list (texts.map .text)

def ofMap {α : Type} (write : α → Document) (m : OrderedMap String α) : Document :=
  .object (m.entries.map fun (key, value) => (key, write value))

def ofNat (n : Nat) : Document := .integer (n : Int)

end Document

end TraversalSql
