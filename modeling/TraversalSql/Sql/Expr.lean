/-!
SQL expressions, the conjunction and disjunction of conditions, and the parameters of an expression.
-/

namespace TraversalSql.Sql

/-- A constant. -/
inductive Literal where
  | integer (value : Int)
  | string (value : String)
deriving DecidableEq, Repr

/-- An operator that an expression applies to operands. -/
inductive Operator where
  | addition
  | equal
  | notEqual
  | lessThan
  | greaterThan
  | lessThanEqual
  | greaterThanEqual
  | and
  | or
  | inList
  | notInList
  | like
  | notLike
  | between
  | isNull
  | isNotNull
deriving DecidableEq, Repr

def Operator.symbol : Operator → String
  | .addition => "+"
  | .equal => "="
  | .notEqual => "<>"
  | .lessThan => "<"
  | .greaterThan => ">"
  | .lessThanEqual => "<="
  | .greaterThanEqual => ">="
  | .and => "AND"
  | .or => "OR"
  | .inList => "IN"
  | .notInList => "NOT IN"
  | .like => "LIKE"
  | .notLike => "NOT LIKE"
  | .between => "BETWEEN"
  | .isNull => "IS NULL"
  | .isNotNull => "IS NOT NULL"

/-- An expression. -/
inductive Expr where
  | literal (value : Literal)
  /-- SQL text that is written as it is. -/
  | raw (text : String)
  /-- A named placeholder. -/
  | parameter (name : String)
  /-- The call of an aggregate function. -/
  | aggregate (function : String) (arguments : List Expr)
  /-- A column of the table that has an alias. -/
  | column (table : String) (name : String)
  | apply (operator : Operator) (operands : List Expr)
  /-- A cast to the text type of the dialect. -/
  | castToText (inner : Expr)
  /-- A cast to the path type of the dialect, if it has one. -/
  | castToPath (inner : Expr)
  /-- The concatenation of texts. -/
  | concat (parts : List Expr)
deriving Repr, Inhabited

namespace Expr

def equals (left right : Expr) : Expr := .apply .equal [left, right]

def isNull (operand : Expr) : Expr := .apply .isNull [operand]

def string (value : String) : Expr := .literal (.string value)

/-- The operands of an application of `operator`; any other expression is the only operand. -/
def operandsUnder (operator : Operator) : Expr → List Expr
  | .apply op operands => if op = operator then operands else [.apply op operands]
  | other => [other]

/-- The conditions joined by an operator.  Conditions that are themselves joined by it are merged;
no condition gives no expression, and a single one stands for itself. -/
def joined (operator : Operator) (conditions : List Expr) : Option Expr :=
  match conditions.flatMap (operandsUnder operator) with
  | [] => none
  | [condition] => some condition
  | operands => some (.apply operator operands)

def conjunction (conditions : List Expr) : Option Expr := joined .and conditions

def disjunction (conditions : List Expr) : Option Expr := joined .or conditions

mutual

/-- The named parameters of an expression, from left to right, with repetitions. -/
def parameters : Expr → List String
  | .literal _ => []
  | .raw _ => []
  | .parameter name => [name]
  | .aggregate _ arguments => parametersOfAll arguments
  | .column _ _ => []
  | .apply _ operands => parametersOfAll operands
  | .castToText inner => inner.parameters
  | .castToPath inner => inner.parameters
  | .concat parts => parametersOfAll parts

def parametersOfAll : List Expr → List String
  | [] => []
  | e :: rest => e.parameters ++ parametersOfAll rest

end

theorem parametersOfAll_eq_flatMap (es : List Expr) :
    parametersOfAll es = es.flatMap parameters := by
  induction es with
  | nil => simp [parametersOfAll]
  | cons e rest ih => simp [parametersOfAll, ih]

/-- Text that is written as it is has no parameters. -/
theorem parametersOfAll_raw (texts : List String) : parametersOfAll (texts.map .raw) = [] := by
  induction texts with
  | nil => rfl
  | cons text texts ih => rw [List.map_cons, parametersOfAll, ih, parameters, List.append_nil]

end Expr

end TraversalSql.Sql
