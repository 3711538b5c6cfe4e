import TraversalSql.Block
import TraversalSql.Emission.Error

/-!
The conditions that filters become.  A column that is missing because an optional vertex is
missing does not reject its row: the comparison is guarded by a test for it.
-/

namespace TraversalSql

/-- A column that a condition reads; it is nullable if its vertex may be missing. -/
structure Operand where
  column : Sql.Expr
  nullable : Bool
deriving Repr

namespace Operand

/-- The test that lets a row pass whose vertex is missing. -/
def guards (operand : Operand) : List Sql.Expr :=
  if operand.nullable then [operand.column.isNull] else []

end Operand

namespace FilterOperator

/-- The comparison of a column with the values of an operator, if there are as many as it takes. -/
def comparison? (operator : FilterOperator) (column : Sql.Expr) (values : List Sql.Expr) :
    Option Sql.Expr :=
  match operator.shape, values with
  | .compare op, [value] => some (.apply op [column, value])
  | .membership op, [value] => some (.apply op [column, value])
  | .pattern leading trailing, [value] =>
      let wildcard := fun present : Bool => if present then [Sql.Expr.string "%"] else []
      some (.apply .like [column, .concat (wildcard leading ++ [value] ++ wildcard trailing)])
  | .range, [lower, upper] => some (.apply .between [column, lower, upper])
  | _, _ => none

end FilterOperator

namespace Predicate

/-- The operand of the tag of a filter; a filter without a tag has none, whatever is offered. -/
def tagOperand (predicate : Predicate) (tag : Option Operand) : Except EmitError (Option Operand) :=
  match predicate.tag, tag with
  | none, _ => .ok none
  | some _, some operand => .ok (some operand)
  | some _, none => .error (.missingTagOperand predicate.field)

/-- The values of a filter: its tag, then its parameters. -/
def values (predicate : Predicate) (tag : Option Operand) : List Sql.Expr :=
  (tag.map Operand.column).toList ++ predicate.params.map .parameter

def condition (predicate : Predicate) (column : Operand) (tag : Option Operand) :
    Except EmitError Sql.Expr := do
  let tag ← predicate.tagOperand tag
  let values := predicate.values tag
  let operator := predicate.operator
  let expected := operator.cardinality.operands
  if values.length ≠ expected then
    throw (.wrongParameterCount operator.name predicate.field expected values.length)
  let some comparison := operator.comparison? column.column values
    | throw (.unsupportedOperator operator.name)
  let guards := column.guards ++ (tag.map Operand.guards).getD []
  if guards.isEmpty then
    return comparison
  match Sql.Expr.disjunction (guards ++ [comparison]) with
  | some condition => return condition
  | none => throw (.unsupportedOperator operator.name)

end Predicate

end TraversalSql
