import TraversalSql.Text.Blank

/-!
The SQL dialects and the traits in which they differ.
-/

namespace TraversalSql.Sql

/-- A dialect of SQL. -/
inductive Dialect where
  | postgresql
  | mssql
  | mysql
  | sqlite
deriving DecidableEq, Repr

/-- The set operator between the first rows and the step of a recursive table. -/
inductive Combinator where
  | union
  | unionAll
deriving DecidableEq, Repr

/-- How a dialect writes the concatenation of texts. -/
inductive Concatenation where
  | operator (symbol : String)
  | function
deriving DecidableEq, Repr

/-- What the emitted SQL needs to know about a dialect. -/
structure Traits where
  name : String
  /-- The aggregate that collects the rows of a fold. -/
  foldFunction : String
  /-- Arguments of the aggregate after the collected column, written as they are. -/
  foldArguments : List String
  combinator : Combinator
  /-- Whether a statement with a recursive table starts with `WITH RECURSIVE`. -/
  recursiveKeyword : Bool
  quoteOpen : Char
  quoteClose : Char
  concatenation : Concatenation
  /-- The type to which keys are cast in order to join them into a path. -/
  textType : String
  /-- The type of a path, in a dialect that fixes the type of a recursive column by its first
  rows. -/
  pathType : Option String
deriving DecidableEq, Repr

namespace Dialect

def all : List Dialect := [.postgresql, .mssql, .mysql, .sqlite]

def traits : Dialect → Traits
  | .postgresql =>
      { name := "postgresql", foldFunction := "array_agg", foldArguments := [], combinator := .union
        recursiveKeyword := true, quoteOpen := '"', quoteClose := '"'
        concatenation := .operator "||", textType := "VARCHAR", pathType := none }
  | .mssql =>
      { name := "mssql", foldFunction := "STRING_AGG", foldArguments := ["'|'"]
        combinator := .unionAll, recursiveKeyword := false, quoteOpen := '[', quoteClose := ']'
        concatenation := .operator "+", textType := "VARCHAR(MAX)", pathType := none }
  | .mysql =>
      { name := "mysql", foldFunction := "GROUP_CONCAT", foldArguments := [], combinator := .union
        recursiveKeyword := true, quoteOpen := '\x60', quoteClose := '\x60'
        concatenation := .function, textType := "CHAR", pathType := some "CHAR(4000)" }
  | .sqlite =>
      { name := "sqlite", foldFunction := "group_concat", foldArguments := ["'|'"]
        combinator := .union, recursiveKeyword := true, quoteOpen := '"', quoteClose := '"'
        concatenation := .operator "||", textType := "TEXT", pathType := none }

def name (dialect : Dialect) : String := dialect.traits.name

/-- The dialect of a name that is written exactly. -/
def ofExactName? : String → Option Dialect
  | "postgresql" => some .postgresql
  | "postgres" => some .postgresql
  | "mssql" => some .mssql
  | "mysql" => some .mysql
  | "sqlite" => some .sqlite
  | _ => none

/-- The dialect of a name; blanks around it and the case of ASCII letters do not matter. -/
def ofName? (name : String) : Option Dialect := ofExactName? (Text.folded name)

end Dialect

namespace Combinator

def keywords : Combinator → String
  | .union => "UNION"
  | .unionAll => "UNION ALL"

def name : Combinator → String
  | .union => "union"
  | .unionAll => "union_all"

/-- The combinator of a name that is written exactly. -/
def ofExactName? : String → Option Combinator
  | "union" => some .union
  | "union_all" => some .unionAll
  | _ => none

/-- The combinator of a name; a blank may replace the underscore, and blanks around the name and the
case of ASCII letters do not matter. -/
def ofName? (name : String) : Option Combinator :=
  match Text.folded name with
  | "union" => some .union
  | "union_all" => some .unionAll
  | "union all" => some .unionAll
  | _ => none

end Combinator

namespace Traits

/-- Whether a character may stand in an unquoted name after the first place. -/
def isPlainChar (c : Char) : Bool := c.isLower || c.isDigit || c == '_'

/-- Whether a name is written without quotes: small letters, digits and underscores, of which the
first is no digit. -/
def isPlain : List Char → Bool
  | [] => false
  | c :: rest => (c.isLower || c == '_') && rest.all isPlainChar

/-- The characters of a name with every closing quote written twice. -/
def doubled (quote : Char) (cs : List Char) : List Char :=
  cs.flatMap fun c => if c = quote then [c, c] else [c]

/-- A name as it is written in SQL. -/
def quote (traits : Traits) (name : String) : String :=
  if isPlain name.toList then name
  else String.ofList
    (traits.quoteOpen :: (doubled traits.quoteClose name.toList ++ [traits.quoteClose]))

/-- The concatenation of texts as it is written in SQL. -/
def concat (traits : Traits) (parts : List String) : String :=
  match traits.concatenation with
  | .operator symbol => (" " ++ symbol ++ " ").intercalate parts
  | .function => "CONCAT(" ++ ", ".intercalate parts ++ ")"

end Traits

end TraversalSql.Sql
