import TraversalSql.Schema
import TraversalSql.Settings

/-!
Compilation targets: a schema bound to a dialect.
-/

namespace TraversalSql

/-- A schema bound to a dialect, with the limits of recursions. -/
structure Target where
  dialect : Sql.Dialect
  schema : Schema
  maxRecursionDepth : Nat
  /-- The name of a combinator that replaces the one of the dialect; it is looked up where a
  recursion needs it. -/
  combinator : Option String
deriving DecidableEq, Repr

namespace Target

/-- Bind a schema to the dialect of a name. -/
def ofDialectName (name : String) (schema : Schema) : Except SettingsError Target :=
  match Sql.Dialect.ofName? name with
  | some dialect => .ok ⟨dialect, schema, Settings.defaultDepth, none⟩
  | none => .error (.unsupportedDialect name)

/-- Bind a schema by settings, which are checked first. -/
def ofSettings (settings : Settings) (schema : Schema) : Except SettingsError Target := do
  let settings ← settings.checked
  let _ ← settings.sqlCombinator
  let target ← ofDialectName settings.dialect schema
  return { target with
    maxRecursionDepth := settings.maxRecursionDepth, combinator := settings.combinator }

def traits (target : Target) : Sql.Traits := target.dialect.traits

/-- The combinator of recursive tables; an unknown name is the error. -/
def recursionCombinator (target : Target) : Except String Sql.Combinator :=
  match target.combinator with
  | none => .ok target.traits.combinator
  | some name =>
      match Sql.Combinator.ofName? name with
      | some combinator => .ok combinator
      | none => .error name

/-- The aggregate that collects a column of a fold. -/
def foldAggregate (target : Target) (column : Sql.Expr) : Sql.Expr :=
  .aggregate target.traits.foldFunction (column :: target.traits.foldArguments.map .raw)

end Target

end TraversalSql
