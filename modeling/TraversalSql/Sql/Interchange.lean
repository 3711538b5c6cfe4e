import TraversalSql.Document
import TraversalSql.Sql.Statement

/-!
The documents in which expressions and statements are exchanged.  A value that is one of several
alternatives is an object with one field, whose key names the alternative.
-/

namespace TraversalSql.Sql

namespace Dialect

def ofDocument? (d : Document) : Option Dialect := d.choice?.bind ofExactName?

end Dialect

namespace Combinator

def ofDocument? (d : Document) : Option Combinator := d.choice?.bind ofExactName?

end Combinator

namespace Operator

/-- All operators with their names. -/
def named : List (String × Operator) :=
  [("Addition", .addition), ("Equal", .equal), ("NotEqual", .notEqual), ("LessThan", .lessThan),
    ("GreaterThan", .greaterThan), ("LessThanEqual", .lessThanEqual),
    ("GreaterThanEqual", .greaterThanEqual), ("And", .and), ("Or", .or), ("In", .inList),
    ("NotIn", .notInList), ("Like", .like), ("NotLike", .notLike), ("Between", .between),
    ("IsNull", .isNull), ("IsNotNull", .isNotNull)]

def name (operator : Operator) : String :=
  ((named.find? fun entry => entry.2 == operator).map Prod.fst).getD ""

def ofDocument? (d : Document) : Option Operator := d.choice?.bind fun name => named.lookup name

end Operator

namespace Literal

def ofDocument? : Document → Option Literal
  | .object [("Integer", value)] => value.int64?.map .integer
  | .object [("String", value)] => value.text?.map .string
  | _ => none

def toDocument : Literal → Document
  | .integer value => .object [("Integer", .integer value)]
  | .string value => .object [("String", .text value)]

end Literal

namespace Expr

/-- Read a column from the fields of a record. -/
def columnOfDocument? (d : Document) : Option Expr := do
  let fields ← d.record? ["table_alias", "column"]
  return .column (← Document.required? fields "table_alias" Document.text?)
    (← Document.required? fields "column" Document.text?)

mutual

def ofDocument? : Document → Option Expr
  | .object [("Literal", value)] => (Literal.ofDocument? value).map .literal
  | .object [("Raw", .text text)] => some (.raw text)
  | .object [("Parameter", .text name)] => some (.parameter name)
  | .object [("PropertyAccessExp", value)] => columnOfDocument? value
  | .object [("CastToText", inner)] => (ofDocument? inner).map .castToText
  | .object [("CastToPath", inner)] => (ofDocument? inner).map .castToPath
  | .object [("Concat", .list parts)] => (ofDocuments? parts).map .concat
  | .object [("AggregateFnCall", .object fields)] => do
      let _ ← (Document.object fields).record? ["name", "args"]
      return .aggregate (← Document.required? fields "name" Document.text?)
        (← ofField? "args" fields)
  | .object [("OperatorApplicationExp", .object fields)] => do
      let _ ← (Document.object fields).record? ["operator", "operands"]
      return .apply (← Document.required? fields "operator" Operator.ofDocument?)
        (← ofField? "operands" fields)
  | _ => none

def ofDocuments? : List Document → Option (List Expr)
  | [] => some []
  | d :: rest => do return (← ofDocument? d) :: (← ofDocuments? rest)

/-- Read the expressions that a field lists. -/
def ofField? (key : String) : List (String × Document) → Option (List Expr)
  | [] => none
  | (k, .list items) :: rest => if k = key then ofDocuments? items else ofField? key rest
  | (k, _) :: rest => if k = key then none else ofField? key rest

end

def listOfDocument? (d : Document) : Option (List Expr) := d.list?.bind ofDocuments?

/-- Read the application of an operator from a record of its own. -/
def applicationOfDocument? (d : Document) : Option Expr := do
  let fields ← d.record? ["operator", "operands"]
  return .apply (← Document.required? fields "operator" Operator.ofDocument?)
    (← ofField? "operands" fields)

mutual

def toDocument : Expr → Document
  | .literal value => .object [("Literal", value.toDocument)]
  | .raw text => .object [("Raw", .text text)]
  | .parameter name => .object [("Parameter", .text name)]
  | .aggregate function arguments => .object [("AggregateFnCall",
      .object [("name", .text function), ("args", .list (toDocuments arguments))])]
  | .column table name => .object [("PropertyAccessExp",
      .object [("table_alias", .text table), ("column", .text name)])]
  | .apply operator operands => .object [("OperatorApplicationExp",
      .object [("operator", .text operator.name), ("operands", .list (toDocuments operands))])]
  | .castToText inner => .object [("CastToText", inner.toDocument)]
  | .castToPath inner => .object [("CastToPath", inner.toDocument)]
  | .concat parts => .object [("Concat", .list (toDocuments parts))]

def toDocuments : List Expr → List Document
  | [] => []
  | e :: rest => e.toDocument :: toDocuments rest

end

end Expr

namespace TableRef

def ofDocument? : Document → Option TableRef
  | .object [("Table", value)] => do
      let fields ← value.record? ["schema", "name", "alias"]
      return .table (← Document.optional? fields "schema" Document.text?)
        (← Document.required? fields "name" Document.text?)
        (← Document.required? fields "alias" Document.text?)
  | .object [("Cte", value)] => do
      let fields ← value.record? ["name", "alias"]
      return .cte (← Document.required? fields "name" Document.text?)
        (← Document.optional? fields "alias" Document.text?)
  | _ => none

def toDocument : TableRef → Document
  | .table schema name aliasName => .object [("Table",
      .object [("schema", .ofOption .text schema), ("name", .text name),
        ("alias", .text aliasName)])]
  | .cte name aliasName => .object [("Cte",
      .object [("name", .text name), ("alias", .ofOption .text aliasName)])]

end TableRef

namespace JoinKind

def name : JoinKind → String
  | .inner => "Inner"
  | .left => "Left"

def ofDocument? (d : Document) : Option JoinKind :=
  match d.choice? with
  | some "Inner" => some .inner
  | some "Left" => some .left
  | _ => none

end JoinKind

namespace Join

def ofDocument? (d : Document) : Option Join := do
  let fields ← d.record? ["join_type", "table", "joining_on"]
  return ⟨← Document.required? fields "join_type" JoinKind.ofDocument?,
    ← Document.required? fields "table" TableRef.ofDocument?,
    ← Document.required? fields "joining_on" Expr.listOfDocument?⟩

def toDocument (join : Join) : Document :=
  .object [("join_type", .text join.kind.name), ("table", join.table.toDocument),
    ("joining_on", .list (Expr.toDocuments join.conditions))]

end Join

namespace SelectItem

def ofDocument? (d : Document) : Option SelectItem := do
  let fields ← d.record? ["expression", "col_alias"]
  return ⟨← Document.required? fields "expression" Expr.ofDocument?,
    ← Document.optional? fields "col_alias" Document.text?⟩

def toDocument (item : SelectItem) : Document :=
  .object [("expression", item.expression.toDocument),
    ("col_alias", .ofOption .text item.aliasName)]

end SelectItem

namespace FromClause

def ofDocument? (d : Document) : Option FromClause := do
  let fields ← d.record? ["base", "joins"]
  return ⟨← Document.required? fields "base" TableRef.ofDocument?,
    ← Document.required? fields "joins" (Document.listOf? Join.ofDocument?)⟩

def toDocument (source : FromClause) : Document :=
  .object [("base", source.base.toDocument), ("joins", .list (source.joins.map Join.toDocument))]

end FromClause

namespace Select

def ofDocument? (d : Document) : Option Select := do
  let fields ← d.record? ["distinct", "items", "from", "filters", "group_by"]
  return ⟨← Document.required? fields "distinct" Document.bool?,
    ← Document.required? fields "items" (Document.listOf? SelectItem.ofDocument?),
    ← Document.required? fields "from" FromClause.ofDocument?,
    ← Document.required? fields "filters" Expr.listOfDocument?,
    ← Document.required? fields "group_by" Expr.listOfDocument?⟩

def toDocument (query : Select) : Document :=
  .object [("distinct", .bool query.distinct),
    ("items", .list (query.items.map SelectItem.toDocument)),
    ("from", query.source.toDocument),
    ("filters", .list (Expr.toDocuments query.filters)),
    ("group_by", .list (Expr.toDocuments query.groupBy))]

end Select

namespace CteContent

def ofDocument? : Document → Option CteContent
  | .object [("Select", value)] => (Select.ofDocument? value).map .select
  | .object [("Recursive", value)] => do
      let fields ← value.record? ["anchor", "step", "combinator"]
      return .recursive (← Document.required? fields "anchor" Select.ofDocument?)
        (← Document.required? fields "step" Select.ofDocument?)
        (← Document.required? fields "combinator" Combinator.ofDocument?)
  | _ => none

def toDocument : CteContent → Document
  | .select query => .object [("Select", query.toDocument)]
  | .recursive anchor step combinator => .object [("Recursive",
      .object [("anchor", anchor.toDocument), ("step", step.toDocument),
        ("combinator", .text combinator.name)])]

end CteContent

namespace Cte

def ofDocument? (d : Document) : Option Cte := do
  let fields ← d.record? ["cte_name", "content", "is_recursive"]
  return ⟨← Document.required? fields "cte_name" Document.text?,
    ← Document.required? fields "content" CteContent.ofDocument?,
    ← Document.required? fields "is_recursive" Document.bool?⟩

def toDocument (cte : Cte) : Document :=
  .object [("cte_name", .text cte.name), ("content", cte.content.toDocument),
    ("is_recursive", .bool cte.isRecursive)]

end Cte

namespace Parameter

def ofDocument? (d : Document) : Option Parameter := do
  let fields ← d.record? ["name", "expanding"]
  return ⟨← Document.required? fields "name" Document.text?,
    ← Document.required? fields "expanding" Document.bool?⟩

def toDocument (parameter : Parameter) : Document :=
  .object [("name", .text parameter.name), ("expanding", .bool parameter.expanding)]

end Parameter

namespace Statement

def ofDocument? (d : Document) : Option Statement := do
  let fields ← d.record? ["dialect", "ctes", "body", "parameters"]
  return ⟨← Document.required? fields "dialect" Dialect.ofDocument?,
    ← Document.required? fields "ctes" (Document.listOf? Cte.ofDocument?),
    ← Document.required? fields "body" Select.ofDocument?,
    ← Document.required? fields "parameters" (Document.listOf? Parameter.ofDocument?)⟩

def toDocument (statement : Statement) : Document :=
  .object [("dialect", .text statement.dialect.name),
    ("ctes", .list (statement.ctes.map Cte.toDocument)),
    ("body", statement.body.toDocument),
    ("parameters", .list (statement.parameters.map Parameter.toDocument))]

end Statement

end TraversalSql.Sql
