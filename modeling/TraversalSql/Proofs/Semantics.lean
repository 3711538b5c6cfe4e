import TraversalSql.Sql.Statement
import Mathlib.Data.List.Dedup

/-!
The meaning of statements.  Values are those of some domain or missing, conditions are true, false
or unknown, and a select keeps the rows for which its conditions are true.  What the domain does
with its values (their order, patterns, texts and aggregates) is left to an engine.

Statements are read as they are built, not as they are printed: whether a reference is to a stored
table or to a common table expression is part of the reference, and its name does not matter.  In
the text of a statement a stored table without a schema is hidden by a common table expression of
its name, and the reference would be read as one to the latter.  Which statements have such tables
is the subject of `TableCapture`; for all others the two readings are the same.
-/

namespace TraversalSql.Sql

/-- A truth value; a missing one is unknown. -/
abbrev Truth : Type := Option Bool

namespace Truth

/-- True if all are true, false if one is false. -/
def all (truths : List Truth) : Truth :=
  if some false ∈ truths then some false else if none ∈ truths then none else some true

/-- True if one is true, false if all are false. -/
def any (truths : List Truth) : Truth :=
  if some true ∈ truths then some true else if none ∈ truths then none else some false

/-- A comparison of values is unknown if one of them is missing. -/
def compare {D : Type} (test : D → D → Bool) (left right : Option D) : Truth :=
  left.bind fun x => right.map fun y => test x y

def negate (truth : Truth) : Truth := truth.map fun known => !known

end Truth

/-- What an engine does with the values of a domain. -/
structure Engine (D : Type) where
  constant : Literal → Option D
  /-- The value of text that is written as it is. -/
  verbatim : String → Option D
  add : D → D → Option D
  precedes : D → D → Bool
  /-- Whether a text matches a pattern. -/
  isLike : D → D → Bool
  concatenate : List D → Option D
  toText : D → Option D
  toPath : D → Option D
  /-- The value of an aggregate function over the arguments of each row of a group. -/
  aggregate : String → List (List (Option D)) → Option D

/-- An engine with the values of the parameters of a statement, of which some are lists. -/
structure Session (D : Type) extends Engine D where
  one : String → Option D
  many : String → List (Option D)

abbrev Row (D : Type) : Type := String → Option D

/-- The rows of the tables of a database, by their schemas and names. -/
abbrev Stored (D : Type) : Type := Option String → String → List (Row D)

/-- The rows of stored tables and of common table expressions. -/
structure Tables (D : Type) where
  stored : Stored D
  named : String → List (Row D)

/-- The rows of a table in a `FROM` clause.  A stored table is looked up among the stored ones, also
if a common table expression has its name. -/
def Tables.rows {D : Type} (tables : Tables D) : TableRef → List (Row D)
  | .table schema name _ => tables.stored schema name
  | .cte name _ => tables.named name

/-- The row that stands under each alias. -/
abbrev Environment (D : Type) : Type := String → Row D

def Row.missing (D : Type) : Row D := fun _ => none

namespace Environment

variable {D : Type}

def unbound (D : Type) : Environment D := fun _ => Row.missing D

def bind (environment : Environment D) (aliasName : String) (row : Row D) : Environment D :=
  fun other => if other = aliasName then row else environment other

@[simp]
theorem bind_self (environment : Environment D) (aliasName : String) (row : Row D) :
    environment.bind aliasName row aliasName = row :=
  if_pos rfl

theorem bind_of_ne (environment : Environment D) {aliasName other : String} (row : Row D)
    (h : other ≠ aliasName) : environment.bind aliasName row other = environment other :=
  if_neg h

end Environment

/-- The operand of a comparison, as a single value and as a list. -/
structure Compared (D : Type) where
  one : Option D
  many : List (Option D)

namespace Engine

variable {D : Type} [DecidableEq D] (engine : Engine D)

def equal (left right : Option D) : Truth := Truth.compare (fun x y => decide (x = y)) left right

/-- Values are known to be equal if neither is missing and they are the same. -/
theorem equal_eq_true_iff {left right : Option D} :
    equal left right = some true ↔ ∃ value, left = some value ∧ right = some value := by
  cases left <;> cases right <;> simp [equal, Truth.compare, eq_comm]

def less (left right : Option D) : Truth := Truth.compare engine.precedes left right

/-- The order of values, with equality. -/
def atMost (left right : Option D) : Truth :=
  Truth.compare (fun x y => engine.precedes x y || decide (x = y)) left right

def isAmong (value : Option D) (values : List (Option D)) : Truth :=
  Truth.any (values.map (equal value))

/-- What an operator says about its operands. -/
def test : Operator → List (Compared D) → Truth
  | .equal, [x, y] => equal x.one y.one
  | .notEqual, [x, y] => (equal x.one y.one).negate
  | .lessThan, [x, y] => engine.less x.one y.one
  | .greaterThan, [x, y] => engine.less y.one x.one
  | .lessThanEqual, [x, y] => engine.atMost x.one y.one
  | .greaterThanEqual, [x, y] => engine.atMost y.one x.one
  | .inList, [x, y] => isAmong x.one y.many
  | .notInList, [x, y] => (isAmong x.one y.many).negate
  | .like, [x, y] => Truth.compare engine.isLike x.one y.one
  | .notLike, [x, y] => (Truth.compare engine.isLike x.one y.one).negate
  | .between, [x, y, z] => Truth.all [engine.atMost y.one x.one, engine.atMost x.one z.one]
  | .isNull, [x] => some x.one.isNone
  | .isNotNull, [x] => some x.one.isSome
  | _, _ => none

omit [DecidableEq D] in
/-- What an operator makes of its operands. -/
def compute : Operator → List (Option D) → Option D
  | .addition, [some x, some y] => engine.add x y
  | _, _ => none

end Engine

namespace Expr

variable {D : Type} (session : Session D)

mutual

/-- The value of an expression.  An aggregate has a value in a group only. -/
def value (environment : Environment D) : Expr → Option D
  | .literal constant => session.constant constant
  | .raw text => session.verbatim text
  | .parameter name => session.one name
  | .aggregate _ _ => none
  | .column table name => environment table name
  | .apply operator operands => session.compute operator (values environment operands)
  | .castToText inner => (inner.value environment).bind session.toText
  | .castToPath inner => (inner.value environment).bind session.toPath
  | .concat parts => ((values environment parts).mapM id).bind session.concatenate

/-- The values of expressions. -/
def values (environment : Environment D) : List Expr → List (Option D)
  | [] => []
  | e :: rest => e.value environment :: values environment rest

end

/-- An expression as the operand of a comparison.  A parameter may stand for a list, and any other
expression for the list of its value. -/
def compared (environment : Environment D) : Expr → Compared D
  | .parameter name => ⟨session.one name, session.many name⟩
  | e => ⟨e.value session environment, [e.value session environment]⟩

variable [DecidableEq D]

mutual

def truth (environment : Environment D) : Expr → Truth
  | .apply .and operands => Truth.all (truths environment operands)
  | .apply .or operands => Truth.any (truths environment operands)
  | .apply operator operands =>
      session.test operator (operands.map (compared session environment))
  | _ => none

def truths (environment : Environment D) : List Expr → List Truth
  | [] => []
  | e :: rest => e.truth environment :: truths environment rest

end

/-- An operator that is no connective is tested on what its operands stand for. -/
theorem truth_apply (environment : Environment D) {operator : Operator} (hand : operator ≠ .and)
    (hor : operator ≠ .or) (operands : List Expr) :
    (Expr.apply operator operands).truth session environment =
      session.test operator (operands.map (compared session environment)) := by
  rw [truth]
  · simpa using hand
  · simpa using hor

/-- The value of an expression in a group of rows; what is not an aggregate has the same value in
all of them. -/
def groupValue (group : List (Environment D)) : Expr → Option D
  | .aggregate function operands =>
      session.aggregate function (group.map fun environment =>
        values session environment operands)
  | e => group.head?.bind fun environment => e.value session environment

end Expr

section

variable {D : Type} [DecidableEq D] (session : Session D) (tables : Tables D)

def holdAll (conditions : List Expr) (environment : Environment D) : Bool :=
  conditions.all fun condition => condition.truth session environment == some true

/-- The ways to join a table to the rows that are there.  A left join keeps them when there is no
partner. -/
def Join.extend (join : Join) (environment : Environment D) : List (Environment D) :=
  let partners := ((tables.rows join.table).map (environment.bind join.table.aliasName)).filter
    (holdAll session join.conditions)
  match join.kind, partners with
  | .left, [] => [environment.bind join.table.aliasName (Row.missing D)]
  | _, partners => partners

/-- The ways to join tables one after the other, from left to right. -/
def extendAll : List Join → Environment D → List (Environment D)
  | [], environment => [environment]
  | join :: joins, environment =>
      (join.extend session tables environment).flatMap (extendAll joins)

/-- The rows that a `FROM` clause puts side by side. -/
def FromClause.environments (source : FromClause) : List (Environment D) :=
  ((tables.rows source.base).map ((Environment.unbound D).bind source.base.aliasName)).flatMap
    (extendAll session tables source.joins)

namespace Select

/-- The rows that a select keeps. -/
def kept (query : Select) : List (Environment D) :=
  (query.source.environments session tables).filter
    (holdAll session query.filters)

/-- The groups of rows from which a select computes its columns: all rows with the same values of
the grouping expressions, or each row for itself. -/
def groups (query : Select) : List (List (Environment D)) :=
  let environments := query.kept session tables
  if query.groupBy.isEmpty then environments.map fun environment => [environment]
  else
    let key := fun environment => Expr.values session environment query.groupBy
    (environments.map key).dedup.map fun k =>
      environments.filter fun environment => key environment = k

/-- The rows that a select gives, as the values of its columns in order. -/
def tuples (query : Select) : List (List (Option D)) :=
  let tuples := (query.groups session tables).map fun group =>
    query.items.map fun item => item.expression.groupValue session group
  if query.distinct then tuples.dedup else tuples

omit [DecidableEq D] in
/-- The values of the columns of a select, by their names. -/
def rowOf (query : Select) (tuple : List (Option D)) : Row D := fun column =>
  (((query.items.map SelectItem.aliasName).zip tuple).lookup (some column)).join

def rows (query : Select) : List (Row D) :=
  (query.tuples session tables).map query.rowOf

end Select

omit [DecidableEq D] in
/-- The tables in which a name stands for given rows. -/
def Tables.naming (tables : Tables D) (name : String) (rows : List (Row D)) : Tables D :=
  { tables with named := fun other => if other = name then rows else tables.named other }

/-- What a round of a recursive table adds to what is there. -/
def Combinator.added (combinator : Combinator) (seen round : List (List (Option D))) :
    List (List (Option D)) :=
  match combinator with
  | .unionAll => round
  | .union => round.dedup.filter fun tuple => tuple ∉ seen

/-- The rounds of a recursive table: each goes on from what the one before it has added, and the
last one has added nothing. -/
inductive Rounds (combinator : Combinator)
    (next : List (List (Option D)) → List (List (Option D))) :
    List (List (Option D)) → List (List (Option D)) → List (List (Option D)) → Prop
  | done (seen : List (List (Option D))) : Rounds combinator next seen [] seen
  | more {seen round result : List (List (Option D))} (hround : round ≠ [])
      (hrest : Rounds combinator next (seen ++ round)
        (combinator.added (seen ++ round) (next round)) result) :
      Rounds combinator next seen round result

/-- The rows of a common table expression. -/
inductive CteContent.Denotes (tables : Tables D) (name : String) :
    CteContent → List (Row D) → Prop
  | select (query : Select) : Denotes tables name (.select query) (query.rows session tables)
  | recursive {anchor step : Select} {combinator : Combinator} {result : List (List (Option D))}
      (hrounds : Rounds combinator
        (fun round => step.tuples session (tables.naming name (round.map anchor.rowOf)))
        [] (combinator.added [] (anchor.tuples session tables)) result) :
      Denotes tables name (.recursive anchor step combinator) (result.map anchor.rowOf)

/-- The tables after common table expressions, each of which may read those before it. -/
inductive CtesDenote : Tables D → List Cte → Tables D → Prop
  | nil (tables : Tables D) : CtesDenote tables [] tables
  | cons {tables last : Tables D} {cte : Cte} {ctes : List Cte} {rows : List (Row D)}
      (hfirst : cte.content.Denotes session tables cte.name rows)
      (hrest : CtesDenote (tables.naming cte.name rows) ctes last) :
      CtesDenote tables (cte :: ctes) last

/-- The rows that a statement gives over stored tables, none of which is hidden by its common table
expressions. -/
def Statement.Denotes (statement : Statement) (stored : Stored D)
    (tuples : List (List (Option D))) : Prop :=
  ∃ tables, CtesDenote session ⟨stored, fun _ => []⟩ statement.ctes tables ∧
    tuples = statement.body.tuples session tables

variable {session : Session D} {tables : Tables D}

/-- A statement without common table expressions gives the rows of its body. -/
theorem Statement.denotes_iff_of_ctes_eq_nil {statement : Statement} (h : statement.ctes = [])
    {stored : Stored D} {tuples : List (List (Option D))} :
    statement.Denotes session stored tuples ↔
      tuples = statement.body.tuples session ⟨stored, fun _ => []⟩ := by
  unfold Statement.Denotes
  rw [h]
  constructor
  · rintro ⟨_, ⟨⟩, htuples⟩
    exact htuples
  · exact fun htuples => ⟨_, .nil _, htuples⟩

theorem holdAll_iff {conditions : List Expr} {environment : Environment D} :
    holdAll session conditions environment ↔
      ∀ condition ∈ conditions, condition.truth session environment = some true := by
  simp [holdAll]

/-- An inner join takes the rows of its table for which its conditions hold. -/
theorem Join.mem_extend_inner_iff {table : TableRef} {conditions : List Expr}
    {environment extended : Environment D} :
    extended ∈ (Join.mk .inner table conditions).extend session tables environment ↔
      ∃ row ∈ tables.rows table, extended = environment.bind table.aliasName row ∧
        holdAll session conditions extended := by
  simp only [Join.extend, List.mem_filter, List.mem_map]
  constructor
  · rintro ⟨⟨row, hrow, rfl⟩, hholds⟩
    exact ⟨row, hrow, rfl, hholds⟩
  · rintro ⟨row, hrow, rfl, hholds⟩
    exact ⟨⟨row, hrow, rfl⟩, hholds⟩

/-- A join changes nothing but what stands under its own alias. -/
theorem Join.extend_of_ne {join : Join} {environment extended : Environment D}
    (h : extended ∈ join.extend session tables environment) {aliasName : String}
    (hne : aliasName ≠ join.table.aliasName) : extended aliasName = environment aliasName := by
  have hbound : ∃ row, extended = environment.bind join.table.aliasName row := by
    simp only [Join.extend] at h
    split at h
    · exact ⟨_, List.mem_singleton.1 h⟩
    · obtain ⟨row, -, rfl⟩ := List.mem_map.1 (List.mem_of_mem_filter h)
      exact ⟨row, rfl⟩
  obtain ⟨row, rfl⟩ := hbound
  exact environment.bind_of_ne row hne

theorem extendAll_append (first second : List Join) (environment : Environment D) :
    extendAll session tables (first ++ second) environment =
      (extendAll session tables first environment).flatMap (extendAll session tables second) := by
  induction first generalizing environment with
  | nil => simp [extendAll]
  | cons join first ih =>
      rw [List.cons_append, extendAll, extendAll, List.flatMap_assoc]
      exact List.flatMap_congr fun extended _ => ih extended

/-- Joins change nothing but what stands under their own aliases. -/
theorem extendAll_of_not_mem {joins : List Join} {environment extended : Environment D}
    (h : extended ∈ extendAll session tables joins environment) {aliasName : String}
    (hnotMem : aliasName ∉ joins.map fun join => join.table.aliasName) :
    extended aliasName = environment aliasName := by
  induction joins generalizing environment with
  | nil => rw [List.mem_singleton.1 h]
  | cons join joins ih =>
      rw [List.map_cons, List.mem_cons, not_or] at hnotMem
      obtain ⟨between, hbetween, hrest⟩ := List.mem_flatMap.1 h
      rw [ih hrest hnotMem.2, Join.extend_of_ne hbetween hnotMem.1]

/-- Joins see of the tables only the rows that they join. -/
theorem extendAll_congr {joins : List Join} {others : Tables D}
    (h : ∀ join ∈ joins, tables.rows join.table = others.rows join.table)
    (environment : Environment D) :
    extendAll session tables joins environment = extendAll session others joins environment := by
  induction joins generalizing environment with
  | nil => rfl
  | cons join joins ih =>
      obtain ⟨hjoin, hjoins⟩ := List.forall_mem_cons.1 h
      rw [extendAll, extendAll, Join.extend, Join.extend, hjoin]
      exact List.flatMap_congr fun extended _ => ih hjoins extended

/-- The rows of a select that does not group and whose columns need no group, as a set. -/
theorem Select.mem_tuples_iff_of_values {query : Select} (hgroup : query.groupBy = [])
    (hitems : ∀ item ∈ query.items, ∀ environment : Environment D,
      item.expression.groupValue session [environment] =
        item.expression.value session environment)
    {tuple : List (Option D)} :
    tuple ∈ query.tuples session tables ↔
      ∃ environment ∈ query.source.environments session tables,
        holdAll session query.filters environment ∧
        tuple = query.items.map fun item => item.expression.value session environment := by
  have hvalues : ∀ environment : Environment D,
      query.items.map (fun item => item.expression.groupValue session [environment]) =
        query.items.map fun item => item.expression.value session environment :=
    fun environment => List.map_congr_left fun item hitem => hitems item hitem environment
  have hmem : tuple ∈ query.tuples session tables ↔
      tuple ∈ (query.groups session tables).map fun group =>
        query.items.map fun item => item.expression.groupValue session group := by
    unfold Select.tuples
    split
    · exact List.mem_dedup
    · exact Iff.rfl
  rw [hmem]
  simp only [Select.groups, hgroup, List.isEmpty_nil, if_true, List.mem_map, Select.kept,
    List.mem_filter]
  constructor
  · rintro ⟨_, ⟨environment, ⟨hsource, hholds⟩, rfl⟩, rfl⟩
    exact ⟨environment, hsource, hholds, hvalues environment⟩
  · rintro ⟨environment, hsource, hholds, rfl⟩
    exact ⟨_, ⟨environment, ⟨hsource, hholds⟩, rfl⟩, hvalues environment⟩

/-- The rows of a select that neither groups nor aggregates, as a set. -/
theorem Select.mem_tuples_iff {query : Select} (hgroup : query.groupBy = [])
    (hitems : ∀ item ∈ query.items, ∃ table name, item.expression = .column table name)
    {tuple : List (Option D)} :
    tuple ∈ query.tuples session tables ↔
      ∃ environment ∈ query.source.environments session tables,
        holdAll session query.filters environment ∧
        tuple = query.items.map fun item => item.expression.value session environment := by
  refine mem_tuples_iff_of_values hgroup fun item hitem environment => ?_
  obtain ⟨table, name, hcolumn⟩ := hitems item hitem
  rw [hcolumn]
  rfl

end

end TraversalSql.Sql
