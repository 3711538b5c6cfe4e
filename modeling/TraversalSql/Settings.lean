import TraversalSql.Document.Yaml
import TraversalSql.Sql.Dialect

/-!
The settings of a compilation: where they are read from, and what is checked about them.
-/

namespace TraversalSql

/-- What a compilation is set to. -/
structure Settings where
  dialect : String
  /-- The greatest depth that a recursion may ask for. -/
  maxRecursionDepth : Nat
  /-- The name of a combinator that replaces the one of the dialect. -/
  combinator : Option String
deriving DecidableEq, Repr

/-- A value of the settings that is refused. -/
inductive SettingsFault where
  | emptyDialect
  | depthOutOfRange
deriving DecidableEq, Repr

/-- The line that reports a fault: the setting and what is wrong with it. -/
def SettingsFault.message : SettingsFault → String
  | .emptyDialect => "dialect: SQL dialect cannot be empty"
  | .depthOutOfRange => "max_recursion_depth: Max recursion depth must be between 1 and 1000"

/-- What can go wrong with settings. -/
inductive SettingsError where
  /-- The file of the settings could not be read. -/
  | unreadable
  /-- The file of the settings is not a text of the right form. -/
  | unparsable
  /-- A variable of the environment does not hold a number. -/
  | variableNotNumber (name value : String) (fault : Text.DigitFault)
  | invalid (faults : List SettingsFault)
  | unsupportedDialect (name : String)
  | unsupportedCombinator (name : String)
deriving DecidableEq, Repr

def SettingsError.message : SettingsError → String
  | .unreadable => "Parse error for yaml_file"
  | .unparsable => "Parse error for yaml_content"
  | .variableNotNumber name value fault => s!"Parse error for {name}: {value} - " ++ fault.message
  | .invalid faults => "Validation error: " ++ "\n".intercalate (faults.map SettingsFault.message)
  | .unsupportedDialect name =>
      s!"Unsupported SQL backend `{name}` (supported: postgresql, mssql, mysql, sqlite)"
  | .unsupportedCombinator name =>
      s!"Unsupported recursion combinator `{name}` (expected `union` or `union_all`)"

namespace Settings

def defaultDepth : Nat := 100

def default : Settings := ⟨"postgresql", defaultDepth, none⟩

def forDialect (dialect : String) : Settings := { default with dialect }

/-- Read settings from a document, without checking them. -/
def ofDocument? (d : Document) : Option Settings := do
  let fields ← d.record? ["dialect", "max_recursion_depth", "recursion_combinator"]
  return {
    dialect := ← Document.required? fields "dialect" Document.text?
    maxRecursionDepth := ←
      Document.defaulted? fields "max_recursion_depth" Document.word32? defaultDepth
    combinator := ← Document.optional? fields "recursion_combinator" Document.text? }

def toDocument (settings : Settings) : Document :=
  .object [("dialect", .text settings.dialect),
    ("max_recursion_depth", .ofNat settings.maxRecursionDepth),
    ("recursion_combinator", .ofOption .text settings.combinator)]

/-- The faults of settings, in the order of the names of the settings. -/
def faults (settings : Settings) : List SettingsFault :=
  (if settings.dialect = "" then [.emptyDialect] else [])
    ++ (if 1 ≤ settings.maxRecursionDepth ∧ settings.maxRecursionDepth ≤ 1000 then []
      else [.depthOutOfRange])

/-- Settings that have no fault. -/
def checked (settings : Settings) : Except SettingsError Settings :=
  match settings.faults with
  | [] => .ok settings
  | faults => .error (.invalid faults)

/-- Read settings from what a file holds; there is nothing to read if the file is missing. -/
def ofFile (contents : Option String) : Except SettingsError Settings := do
  let some text := contents | throw .unreadable
  match (Document.ofYaml? text).bind ofDocument? with
  | some settings => settings.checked
  | none => throw .unparsable

/-- The environment variable of the dialect. -/
def dialectVariable : String := "GRAPHSQL_DIALECT"

/-- The environment variable of the depth limit. -/
def depthVariable : String := "GRAPHSQL_MAX_RECURSION_DEPTH"

/-- The environment variable of the combinator. -/
def combinatorVariable : String := "GRAPHSQL_RECURSION_COMBINATOR"

/-- Read settings from environment variables. -/
def ofEnvironment (read : String → Option String) : Except SettingsError Settings := do
  let depth ← match read depthVariable with
    | none => pure defaultDepth
    | some value =>
        (Text.readWord32 value).mapError (.variableNotNumber depthVariable value)
  checked {
    dialect := (read dialectVariable).getD default.dialect
    maxRecursionDepth := depth
    combinator := read combinatorVariable }

/-- The dialect that is set. -/
def sqlDialect (settings : Settings) : Except SettingsError Sql.Dialect :=
  match Sql.Dialect.ofName? settings.dialect with
  | some dialect => .ok dialect
  | none => .error (.unsupportedDialect settings.dialect)

/-- The combinator that is set, if one is. -/
def sqlCombinator (settings : Settings) : Except SettingsError (Option Sql.Combinator) :=
  match settings.combinator with
  | none => .ok none
  | some name =>
      match Sql.Combinator.ofName? name with
      | some combinator => .ok (some combinator)
      | none => .error (.unsupportedCombinator name)

end Settings

end TraversalSql
