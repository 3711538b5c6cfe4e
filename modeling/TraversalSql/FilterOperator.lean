import TraversalSql.Sql.Expr

/-!
The operators that a filter may use: their names, the number of operands, and the shape of the
condition they become.
-/

namespace TraversalSql

/-- How many operands an operator takes besides the filtered column, and how they are bound. -/
inductive Cardinality where
  | single
  /-- One operand, which is bound to a list. -/
  | many
  | dual
deriving DecidableEq, Repr

def Cardinality.operands : Cardinality → Nat
  | .single => 1
  | .many => 1
  | .dual => 2

/-- The shape of the condition that an operator becomes. -/
inductive ConditionShape where
  | compare (operator : Sql.Operator)
  /-- A pattern match, with a wildcard before the operand, after it, or both. -/
  | pattern (leading trailing : Bool)
  | membership (operator : Sql.Operator)
  | range
deriving DecidableEq, Repr

/-- An operator of a filter. -/
inductive FilterOperator where
  | equal
  | notEqual
  | less
  | greater
  | lessOrEqual
  | greaterOrEqual
  | hasSubstring
  | startsWith
  | endsWith
  | inCollection
  | notInCollection
  | between
deriving DecidableEq, Repr

namespace FilterOperator

/-- All operators, in the order of their names. -/
def all : List FilterOperator :=
  [.notEqual, .less, .lessOrEqual, .equal, .greater, .greaterOrEqual, .between, .endsWith,
    .hasSubstring, .inCollection, .notInCollection, .startsWith]

def name : FilterOperator → String
  | .equal => "="
  | .notEqual => "!="
  | .less => "<"
  | .greater => ">"
  | .lessOrEqual => "<="
  | .greaterOrEqual => ">="
  | .hasSubstring => "has_substring"
  | .startsWith => "starts_with"
  | .endsWith => "ends_with"
  | .inCollection => "in_collection"
  | .notInCollection => "not_in_collection"
  | .between => "between"

def ofName? (name : String) : Option FilterOperator := all.find? fun op => op.name == name

/-- The shape of the condition of an operator. -/
def shape : FilterOperator → ConditionShape
  | .equal => .compare .equal
  | .notEqual => .compare .notEqual
  | .less => .compare .lessThan
  | .greater => .compare .greaterThan
  | .lessOrEqual => .compare .lessThanEqual
  | .greaterOrEqual => .compare .greaterThanEqual
  | .hasSubstring => .pattern true true
  | .startsWith => .pattern false true
  | .endsWith => .pattern true false
  | .inCollection => .membership .inList
  | .notInCollection => .membership .notInList
  | .between => .range

/-- How many operands an operator takes. -/
def cardinality (operator : FilterOperator) : Cardinality :=
  match operator.shape with
  | .compare _ => .single
  | .pattern _ _ => .single
  | .membership _ => .many
  | .range => .dual

@[simp]
theorem ofName?_name (operator : FilterOperator) : ofName? operator.name = some operator := by
  cases operator <;> decide

end FilterOperator

end TraversalSql
