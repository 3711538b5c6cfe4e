import TraversalSql.OrderedMap

/-!
The supply of the names that a statement invents: table aliases, names of common table expressions
and the columns that link them.  Aliases and table expressions draw on one counter per base name,
so a table called `scope` never gets the name of a scope.
-/

namespace TraversalSql.Sql

/-- What a common table expression stands for. -/
inductive CteKind where
  | scope
  | recursion
  | fold
deriving DecidableEq, Repr

/-- The base of the names of a kind of common table expression. -/
def CteKind.base : CteKind → String
  | .scope => "scope"
  | .recursion => "recursion"
  | .fold => "fold"

namespace CteKind

/-- The kind with a given base. -/
def ofBase? : String → Option CteKind
  | "scope" => some .scope
  | "recursion" => some .recursion
  | "fold" => some .fold
  | _ => none

end CteKind

def numbered (base : String) (number : Nat) : String := base ++ "_" ++ toString number

/-- The part of a name after its last dot. -/
def unqualified (cs : List Char) : List Char :=
  (cs.reverse.takeWhile fun c => c != '.').reverse

/-- A character of an alias: small letters, digits and underscores stay, capitals become small,
all else becomes an underscore. -/
def aliasChar (c : Char) : Char :=
  let lower := c.toLower
  if lower.isLower || lower.isDigit || lower == '_' then lower else '_'

/-- The base of the aliases of a table.  It is a plain name, so it never needs quotes. -/
def aliasBase (table : String) : String :=
  match (unqualified table.toList).map aliasChar with
  | [] => "t_"
  | c :: rest => String.ofList (if c.isDigit then 't' :: '_' :: c :: rest else c :: rest)

/-- Counters of the names given so far. -/
structure AliasSupply where
  counts : OrderedMap String Nat
  links : Nat
  foldLinks : Nat
deriving Repr

namespace AliasSupply

def fresh : AliasSupply := ⟨.empty, 0, 0⟩

/-- How many names with a base have been taken. -/
def taken (supply : AliasSupply) (base : String) : Nat := (supply.counts.find? base).getD 0

/-- Take the next name with a base. -/
def next (supply : AliasSupply) (base : String) : String × AliasSupply :=
  let number := supply.taken base + 1
  (numbered base number, { supply with counts := supply.counts.insert base number })

def nextAlias (supply : AliasSupply) (table : String) : String × AliasSupply :=
  supply.next (aliasBase table)

def nextCte (supply : AliasSupply) (kind : CteKind) : String × AliasSupply :=
  supply.next kind.base

/-- Take a column that links a scope with a recursion. -/
def nextLink (supply : AliasSupply) : String × AliasSupply :=
  (numbered "__link" (supply.links + 1), { supply with links := supply.links + 1 })

/-- Take a column that links a scope with a fold. -/
def nextFoldLink (supply : AliasSupply) : String × AliasSupply :=
  (numbered "__fold_link" (supply.foldLinks + 1), { supply with foldLinks := supply.foldLinks + 1 })

/-- Taking a name counts one more name of its base. -/
theorem taken_next_self (supply : AliasSupply) (base : String) :
    (supply.next base).2.taken base = supply.taken base + 1 := by
  simp [next, taken]

/-- Taking a name leaves the names of other bases alone. -/
theorem taken_next_of_ne (supply : AliasSupply) {base other : String} (hne : other ≠ base) :
    (supply.next base).2.taken other = supply.taken other := by
  simp [next, taken, OrderedMap.find?_insert_of_ne _ hne]

end AliasSupply

/-- The column of a recursive table that holds the key of the row from which the walk started. -/
def anchorColumn : String := "__anchor"

/-- The column of a recursive table that holds the key of the row reached. -/
def reachedColumn : String := "__reached"

/-- The column of a recursive table that holds the number of edges crossed. -/
def depthColumn : String := "__depth"

/-- The column of a recursive table that holds the keys on the way, each between commas. -/
def pathColumn : String := "__path"

end TraversalSql.Sql
