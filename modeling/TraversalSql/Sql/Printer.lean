import TraversalSql.Sql.Statement

/-!
The text of expressions, selects and statements in a dialect.
-/

namespace TraversalSql.Sql

/-- A text constant as it is written in SQL. -/
def quotedText (s : String) : String :=
  String.ofList ('\'' :: (Traits.doubled '\'' s.toList ++ ['\'']))

def Literal.print : Literal → String
  | .integer value => toString value
  | .string value => quotedText value

namespace Expr

/-- Whether an operand of a conjunction or disjunction is put into parentheses: under a
disjunction when an operator is applied in it, under a conjunction when it is a conjunction or
disjunction itself. -/
def needsParentheses (parent : Operator) : Expr → Bool
  | .apply operator _ => parent == .or || operator == .and || operator == .or
  | _ => false

/-- The text of an operand of a conjunction or disjunction. -/
def enclosed (parent : Operator) (operand : Expr) (text : String) : String :=
  if operand.needsParentheses parent then "(" ++ text ++ ")" else text

/-- The text of an applied operator, from its operands and their texts. -/
def printApplied (operator : Operator) (operands : List Expr) (texts : List String) : String :=
  let separator := " " ++ operator.symbol ++ " "
  match operator, texts with
  | .isNull, [operand] => operand ++ " " ++ operator.symbol
  | .isNotNull, [operand] => operand ++ " " ++ operator.symbol
  | .inList, [left, right] => left ++ separator ++ "(" ++ right ++ ")"
  | .notInList, [left, right] => left ++ separator ++ "(" ++ right ++ ")"
  | .between, [value, lower, upper] => value ++ " BETWEEN " ++ lower ++ " AND " ++ upper
  | .and, texts => separator.intercalate (List.zipWith (enclosed .and) operands texts)
  | .or, texts => separator.intercalate (List.zipWith (enclosed .or) operands texts)
  | _, [operand] => operator.symbol ++ " " ++ operand
  | _, texts => separator.intercalate texts

mutual

def print (traits : Traits) : Expr → String
  | .literal value => value.print
  | .raw text => text
  | .parameter name => ":" ++ name
  | .aggregate function arguments =>
      function ++ "(" ++ ", ".intercalate (printAll traits arguments) ++ ")"
  | .column table name => traits.quote table ++ "." ++ traits.quote name
  | .apply operator operands => printApplied operator operands (printAll traits operands)
  | .castToText inner => "CAST(" ++ inner.print traits ++ " AS " ++ traits.textType ++ ")"
  | .castToPath inner =>
      match traits.pathType with
      | some pathType => "CAST(" ++ inner.print traits ++ " AS " ++ pathType ++ ")"
      | none => inner.print traits
  | .concat parts => traits.concat (printAll traits parts)

def printAll (traits : Traits) : List Expr → List String
  | [] => []
  | e :: rest => e.print traits :: printAll traits rest

end

theorem printAll_eq_map (traits : Traits) (es : List Expr) :
    printAll traits es = es.map (print traits) := by
  induction es with
  | nil => simp [printAll]
  | cons e rest ih => simp [printAll, ih]

end Expr

def TableRef.print (traits : Traits) : TableRef → String
  | .table schema name aliasName =>
      let qualified := match schema with
        | some schema => traits.quote schema ++ "." ++ traits.quote name
        | none => traits.quote name
      qualified ++ " AS " ++ traits.quote aliasName
  | .cte name (some aliasName) => traits.quote name ++ " AS " ++ traits.quote aliasName
  | .cte name none => traits.quote name

def JoinKind.keywords : JoinKind → String
  | .inner => "INNER JOIN"
  | .left => "LEFT OUTER JOIN"

def Join.print (traits : Traits) (join : Join) : String :=
  match Expr.conjunction join.conditions with
  | some condition =>
      join.kind.keywords ++ " " ++ join.table.print traits ++ " ON " ++ condition.print traits
  | none => "CROSS JOIN " ++ join.table.print traits

def SelectItem.print (traits : Traits) (item : SelectItem) : String :=
  match item.aliasName with
  | some aliasName => item.expression.print traits ++ " AS " ++ traits.quote aliasName
  | none => item.expression.print traits

/-- The clauses of a select, each on a line of its own. -/
def Select.clauses (traits : Traits) (query : Select) : List String :=
  let keyword := if query.distinct then "SELECT DISTINCT" else "SELECT"
  let items := ", ".intercalate (query.items.map (SelectItem.print traits))
  let filters := match Expr.conjunction query.filters with
    | some condition => ["WHERE " ++ condition.print traits]
    | none => []
  let grouping :=
    if query.groupBy.isEmpty then []
    else ["GROUP BY " ++ ", ".intercalate (query.groupBy.map (Expr.print traits))]
  [keyword ++ " " ++ items, "FROM " ++ query.source.base.print traits]
    ++ query.source.joins.map (Join.print traits) ++ filters ++ grouping

def Select.print (traits : Traits) (query : Select) : String :=
  "\n".intercalate (query.clauses traits)

def CteContent.print (traits : Traits) : CteContent → String
  | .select query => query.print traits
  | .recursive anchor step combinator =>
      anchor.print traits ++ "\n" ++ combinator.keywords ++ "\n" ++ step.print traits

def Cte.print (traits : Traits) (cte : Cte) : String :=
  traits.quote cte.name ++ " AS (\n" ++ cte.content.print traits ++ "\n)"

namespace Statement

def printWith (traits : Traits) (statement : Statement) : String :=
  if statement.ctes.isEmpty then ""
  else
    let keyword :=
      if statement.hasRecursion && traits.recursiveKeyword then "WITH RECURSIVE " else "WITH "
    keyword ++ ",\n".intercalate (statement.ctes.map (Cte.print traits)) ++ "\n"

def print (statement : Statement) (dialect : Dialect) : String :=
  statement.printWith dialect.traits ++ statement.body.print dialect.traits

/-- The text of a statement in its own dialect. -/
def sql (statement : Statement) : String := statement.print statement.dialect

end Statement

end TraversalSql.Sql
