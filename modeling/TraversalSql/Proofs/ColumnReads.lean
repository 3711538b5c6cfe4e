import TraversalSql.Proofs.FilterPlacement

/-!
Which columns the clauses of a select may read.  Joins bring tables into scope one after the other,
common table expressions become known one after the other, and what is read must be in scope by
then; a column of a common table expression must also be one that it projects.
-/

namespace TraversalSql.Sql

namespace Expr

mutual

/-- The columns that an expression reads, from left to right, each with the alias of its table. -/
def columns : Expr → List (String × String)
  | .literal _ => []
  | .raw _ => []
  | .parameter _ => []
  | .aggregate _ arguments => columnsOfAll arguments
  | .column table name => [(table, name)]
  | .apply _ operands => columnsOfAll operands
  | .castToText inner => inner.columns
  | .castToPath inner => inner.columns
  | .concat parts => columnsOfAll parts

def columnsOfAll : List Expr → List (String × String)
  | [] => []
  | e :: rest => e.columns ++ columnsOfAll rest

end

theorem columnsOfAll_eq_flatMap (es : List Expr) : columnsOfAll es = es.flatMap columns := by
  induction es with
  | nil => rfl
  | cons e rest ih => rw [columnsOfAll, ih, List.flatMap_cons]

theorem columns_apply (operator : Operator) (operands : List Expr) :
    (Expr.apply operator operands).columns = operands.flatMap columns :=
  columnsOfAll_eq_flatMap operands

theorem columns_concat (parts : List Expr) : (Expr.concat parts).columns = parts.flatMap columns :=
  columnsOfAll_eq_flatMap parts

theorem columns_aggregate (function : String) (arguments : List Expr) :
    (Expr.aggregate function arguments).columns = arguments.flatMap columns :=
  columnsOfAll_eq_flatMap arguments

end Expr

/-- A select has an output column of a name. -/
def Select.Projects (select : Select) (name : String) : Prop :=
  some name ∈ select.items.map SelectItem.aliasName

/-- A common table expression has a column of a name; of a recursive one, the anchor and the step
both have it. -/
def Cte.Projects (cte : Cte) (name : String) : Prop :=
  ∀ select ∈ cte.selects, select.Projects name

namespace TableRef

/-- A table has a column of a name, as far as common table expressions can tell. -/
def Offers (table : TableRef) (ctes : List Cte) (name : String) : Prop :=
  match table with
  | .table _ _ _ => True
  | .cte source _ => ∃ cte ∈ ctes, cte.name = source ∧ cte.Projects name

/-- A table is a stored one, or one of some common table expressions under its own name. -/
def Among (table : TableRef) (ctes : List Cte) : Prop :=
  match table with
  | .table _ _ _ => True
  | .cte source aliasName => aliasName = none ∧ ∃ cte ∈ ctes, cte.name = source

variable {table : TableRef} {ctes more : List Cte} {name aliasName : String}

theorem Offers.mono (h : table.Offers ctes name) (hmore : ctes ⊆ more) :
    table.Offers more name := by
  cases table with
  | table => trivial
  | cte =>
      obtain ⟨cte, hcte, hname, hprojects⟩ := h
      exact ⟨cte, hmore hcte, hname, hprojects⟩

theorem Among.mono (h : table.Among ctes) (hmore : ctes ⊆ more) : table.Among more := by
  cases table with
  | table => trivial
  | cte =>
      obtain ⟨hnone, cte, hcte, hname⟩ := h
      exact ⟨hnone, cte, hmore hcte, hname⟩

theorem offers_of_storedAlias? (h : table.storedAlias? = some aliasName) (ctes : List Cte)
    (name : String) : table.Offers ctes name := by
  cases table with
  | table => trivial
  | cte => exact absurd h (by simp [storedAlias?])

theorem among_of_storedAlias? (h : table.storedAlias? = some aliasName) (ctes : List Cte) :
    table.Among ctes := by
  cases table with
  | table => trivial
  | cte => exact absurd h (by simp [storedAlias?])

theorem aliasName_of_storedAlias? (h : table.storedAlias? = some aliasName) :
    table.aliasName = aliasName := by
  cases table with
  | table => exact Option.some.inj h
  | cte => exact absurd h (by simp [storedAlias?])

end TableRef

/-- The stored tables of some tables are known to all common table expressions. -/
theorem StoredAs.among {tables : List TableRef} {aliases : List String}
    (h : StoredAs tables aliases) (ctes : List Cte) : ∀ table ∈ tables, table.Among ctes := by
  intro table htable
  have hmem : table.storedAlias? ∈ aliases.map some := h ▸ List.mem_map_of_mem htable
  obtain ⟨aliasName, -, hsame⟩ := List.mem_map.1 hmem
  exact TableRef.among_of_storedAlias? hsame.symm ctes

namespace Expr

/-- Every column that an expression reads belongs to one of some tables, which offers it. -/
def ReadsFrom (e : Expr) (ctes : List Cte) (tables : List TableRef) : Prop :=
  ∀ column ∈ e.columns, ∃ table ∈ tables,
    table.aliasName = column.1 ∧ table.Offers ctes column.2

variable {ctes more : List Cte} {tables others : List TableRef}

theorem ReadsFrom.mono {e : Expr} (h : e.ReadsFrom ctes tables) (hmore : ctes ⊆ more)
    (hothers : tables ⊆ others) : e.ReadsFrom more others := by
  intro column hcolumn
  obtain ⟨table, htable, halias, hoffers⟩ := h column hcolumn
  exact ⟨table, hothers htable, halias, hoffers.mono hmore⟩

theorem ReadsFrom.of_columns_eq_nil {e : Expr} (h : e.columns = []) : e.ReadsFrom ctes tables := by
  intro column hcolumn
  rw [h] at hcolumn
  exact absurd hcolumn List.not_mem_nil

theorem readsFrom_column_iff {aliasName name : String} :
    (Expr.column aliasName name).ReadsFrom ctes tables ↔
      ∃ table ∈ tables, table.aliasName = aliasName ∧ table.Offers ctes name := by
  simp [ReadsFrom, columns]

theorem readsFrom_apply_iff {operator : Operator} {operands : List Expr} :
    (Expr.apply operator operands).ReadsFrom ctes tables ↔
      ∀ e ∈ operands, e.ReadsFrom ctes tables := by
  unfold ReadsFrom
  rw [columns_apply, List.forall_mem_flatMap]

theorem readsFrom_concat_iff {parts : List Expr} :
    (Expr.concat parts).ReadsFrom ctes tables ↔ ∀ e ∈ parts, e.ReadsFrom ctes tables := by
  unfold ReadsFrom
  rw [columns_concat, List.forall_mem_flatMap]

theorem readsFrom_aggregate_iff {function : String} {arguments : List Expr} :
    (Expr.aggregate function arguments).ReadsFrom ctes tables ↔
      ∀ e ∈ arguments, e.ReadsFrom ctes tables := by
  unfold ReadsFrom
  rw [columns_aggregate, List.forall_mem_flatMap]

theorem readsFrom_castToText_iff {inner : Expr} :
    (Expr.castToText inner).ReadsFrom ctes tables ↔ inner.ReadsFrom ctes tables := by
  simp only [ReadsFrom, columns]

theorem readsFrom_castToPath_iff {inner : Expr} :
    (Expr.castToPath inner).ReadsFrom ctes tables ↔ inner.ReadsFrom ctes tables := by
  simp only [ReadsFrom, columns]

theorem readsFrom_literal (value : Literal) : (Expr.literal value).ReadsFrom ctes tables :=
  .of_columns_eq_nil rfl

theorem readsFrom_string (value : String) : (Expr.string value).ReadsFrom ctes tables :=
  readsFrom_literal _

theorem readsFrom_equals_iff {left right : Expr} :
    (Expr.equals left right).ReadsFrom ctes tables ↔
      left.ReadsFrom ctes tables ∧ right.ReadsFrom ctes tables := by
  simp [equals, readsFrom_apply_iff]

/-- Any column can be read from a stored table. -/
theorem readsFrom_of_stored {aliasName : String}
    (h : aliasName ∈ tables.filterMap TableRef.storedAlias?) (ctes : List Cte) (name : String) :
    (Expr.column aliasName name).ReadsFrom ctes tables := by
  obtain ⟨table, htable, halias⟩ := List.mem_filterMap.1 h
  exact readsFrom_column_iff.2 ⟨table, htable, TableRef.aliasName_of_storedAlias? halias,
    TableRef.offers_of_storedAlias? halias ctes name⟩

/-- A column can be read from a common table expression that projects it. -/
theorem readsFrom_of_projects {cte : Cte} (hcte : cte ∈ ctes)
    (htable : TableRef.cte cte.name none ∈ tables) {name : String} (h : cte.Projects name) :
    (Expr.column cte.name name).ReadsFrom ctes tables :=
  readsFrom_column_iff.2 ⟨_, htable, rfl, cte, hcte, rfl, h⟩

end Expr

/-- Joins that stand in order after tables that are known: the conditions of each read the tables
that are known by then and the one that is joined. -/
def JoinsInOrder (ctes : List Cte) : List TableRef → List Join → Prop
  | _, [] => True
  | known, join :: joins =>
      (∀ e ∈ join.conditions, e.ReadsFrom ctes (known ++ [join.table])) ∧
        JoinsInOrder ctes (known ++ [join.table]) joins

theorem append_subset_append_right {α : Type} {known others : List α} (h : known ⊆ others)
    (rest : List α) : known ++ rest ⊆ others ++ rest :=
  List.append_subset.2
    ⟨List.Subset.trans h (List.subset_append_left _ _), List.subset_append_right _ _⟩

namespace JoinsInOrder

variable {ctes more : List Cte} {known others : List TableRef} {joins : List Join}

theorem mono (h : JoinsInOrder ctes known joins) (hmore : ctes ⊆ more) (hothers : known ⊆ others) :
    JoinsInOrder more others joins := by
  induction joins generalizing known others with
  | nil => trivial
  | cons join joins ih =>
      have hnext := append_subset_append_right hothers [join.table]
      exact ⟨fun e he => (h.1 e he).mono hmore hnext, ih h.2 hnext⟩

theorem append_iff {first second : List Join} :
    JoinsInOrder ctes known (first ++ second) ↔
      JoinsInOrder ctes known first ∧
        JoinsInOrder ctes (known ++ first.map Join.table) second := by
  induction first generalizing known with
  | nil => simp [JoinsInOrder]
  | cons join first ih =>
      simp [JoinsInOrder, ih, and_assoc]

/-- The conditions of a join read the tables before it and the one that it joins. -/
theorem readsFrom_of_eq_append (h : JoinsInOrder ctes known joins) {before after : List Join}
    {join : Join} (hsplit : joins = before ++ join :: after) :
    ∀ e ∈ join.conditions, e.ReadsFrom ctes (known ++ (before ++ [join]).map Join.table) := by
  rw [hsplit, append_iff] at h
  rw [List.map_append, ← List.append_assoc]
  exact h.2.1

/-- Joins of which each needs only what is known before all of them stand in any order. -/
theorem of_forall
    (h : ∀ join ∈ joins, ∀ e ∈ join.conditions, e.ReadsFrom ctes (known ++ [join.table])) :
    JoinsInOrder ctes known joins := by
  induction joins generalizing known with
  | nil => trivial
  | cons join joins ih =>
      obtain ⟨hfirst, hrest⟩ := List.forall_mem_cons.1 h
      refine ⟨hfirst, ih fun other hother e he => ?_⟩
      refine (hrest other hother e he).mono (List.Subset.refl _) ?_
      exact append_subset_append_right (List.subset_append_left _ _) _

end JoinsInOrder

/-- The expressions of a select stand in its items, its joins, its conditions and its grouping. -/
theorem Select.mem_expressions_iff {select : Select} {e : Expr} :
    e ∈ select.expressions ↔
      (∃ item ∈ select.items, e = item.expression) ∨
        (∃ join ∈ select.source.joins, e ∈ join.conditions) ∨
        e ∈ select.filters ∨ e ∈ select.groupBy := by
  simp only [expressions, List.mem_append, List.mem_map, List.mem_flatMap, or_assoc,
    @eq_comm Expr _ e]

/-- All clauses of a select read what is in scope, where some common table expressions are known. -/
structure Select.ScopedIn (select : Select) (ctes : List Cte) : Prop where
  tables : ∀ table ∈ select.source.tables, table.Among ctes
  joins : JoinsInOrder ctes [select.source.base] select.source.joins
  items : ∀ item ∈ select.items, item.expression.ReadsFrom ctes select.source.tables
  filters : ∀ e ∈ select.filters, e.ReadsFrom ctes select.source.tables
  groups : ∀ e ∈ select.groupBy, e.ReadsFrom ctes select.source.tables

theorem Select.ScopedIn.mono {select : Select} {ctes more : List Cte} (h : select.ScopedIn ctes)
    (hmore : ctes ⊆ more) : select.ScopedIn more where
  tables table htable := (h.tables table htable).mono hmore
  joins := h.joins.mono hmore (List.Subset.refl _)
  items item hitem := (h.items item hitem).mono hmore (List.Subset.refl _)
  filters e he := (h.filters e he).mono hmore (List.Subset.refl _)
  groups e he := (h.groups e he).mono hmore (List.Subset.refl _)

/-- Every clause of a select reads from the tables of its `FROM` clause. -/
theorem Select.ScopedIn.readsFrom {select : Select} {ctes : List Cte} (h : select.ScopedIn ctes) :
    ∀ e ∈ select.expressions, e.ReadsFrom ctes select.source.tables := by
  intro e he
  rcases mem_expressions_iff.1 he with ⟨item, hitem, rfl⟩ | ⟨join, hjoin, he⟩ | he | he
  · exact h.items item hitem
  · obtain ⟨before, after, hsplit⟩ := List.append_of_mem hjoin
    refine (h.joins.readsFrom_of_eq_append hsplit e he).mono (List.Subset.refl _) ?_
    rw [FromClause.tables, hsplit]
    simp
  · exact h.filters e he
  · exact h.groups e he

/-- A common table expression that stands in order after others.  Only the step of a recursive one
knows itself, and starts from it. -/
def Cte.InOrder (cte : Cte) (known : List Cte) : Prop :=
  match cte.content with
  | .select query => cte.isRecursive = false ∧ query.ScopedIn known
  | .recursive anchor step _ =>
      cte.isRecursive = true ∧ anchor.ScopedIn known ∧ step.ScopedIn (known ++ [cte]) ∧
        step.source.base = .cte cte.name none ∧
        ∀ join ∈ step.source.joins, join.table.Among known

theorem Cte.InOrder.scopedIn {cte : Cte} {known more : List Cte} (h : cte.InOrder known)
    (hknown : known ⊆ more) (hcte : cte ∈ more) : ∀ select ∈ cte.selects, select.ScopedIn more := by
  obtain ⟨name, content, isRecursive⟩ := cte
  intro select hselect
  cases content with
  | select query =>
      obtain rfl := List.mem_singleton.1 hselect
      exact h.2.mono hknown
  | recursive anchor step combinator =>
      obtain ⟨-, hanchor, hstep, -, -⟩ := h
      rcases List.mem_pair.1 hselect with rfl | rfl
      · exact hanchor.mono hknown
      · exact hstep.mono (List.append_subset.2 ⟨hknown, by simpa using hcte⟩)

/-- Common table expressions that stand in order after others, each after those before it. -/
def CtesInOrder : List Cte → List Cte → Prop
  | _, [] => True
  | known, cte :: ctes => cte.InOrder known ∧ CtesInOrder (known ++ [cte]) ctes

namespace CtesInOrder

variable {known ctes : List Cte}

theorem append_iff {first second : List Cte} :
    CtesInOrder known (first ++ second) ↔
      CtesInOrder known first ∧ CtesInOrder (known ++ first) second := by
  induction first generalizing known with
  | nil => simp [CtesInOrder]
  | cons cte first ih =>
      simp [CtesInOrder, ih, and_assoc]

theorem concat_iff {cte : Cte} :
    CtesInOrder known (ctes ++ [cte]) ↔ CtesInOrder known ctes ∧ cte.InOrder (known ++ ctes) := by
  rw [append_iff, CtesInOrder, CtesInOrder, and_true]

/-- Groups of common table expressions of which none needs another one stand in any order. -/
theorem flatMap {α : Type} {l : List α} {f : α → List Cte}
    (h : ∀ a ∈ l, ∀ more, known ⊆ more → CtesInOrder more (f a)) :
    CtesInOrder known (l.flatMap f) := by
  induction l generalizing known with
  | nil => trivial
  | cons a l ih =>
      obtain ⟨hfirst, hrest⟩ := List.forall_mem_cons.1 h
      rw [List.flatMap_cons, append_iff]
      refine ⟨hfirst known (List.Subset.refl _), ih fun b hb more hmore => ?_⟩
      exact hrest b hb more (List.Subset.trans (List.subset_append_left _ _) hmore)

theorem map {α : Type} {l : List α} {f : α → Cte}
    (h : ∀ a ∈ l, ∀ more, known ⊆ more → (f a).InOrder more) : CtesInOrder known (l.map f) := by
  rw [List.map_eq_flatMap]
  exact flatMap fun a ha more hmore => ⟨h a ha more hmore, trivial⟩

/-- Each of them stands in order after those before it. -/
theorem inOrder_of_eq_append (h : CtesInOrder known ctes) {before after : List Cte} {cte : Cte}
    (hsplit : ctes = before ++ cte :: after) : cte.InOrder (known ++ before) := by
  rw [hsplit, append_iff] at h
  exact h.2.1

/-- All selects read what is in scope once all of them are known. -/
theorem scopedIn (h : CtesInOrder known ctes) :
    ∀ select ∈ ctes.flatMap Cte.selects, select.ScopedIn (known ++ ctes) := by
  intro select hselect
  obtain ⟨cte, hcte, hselect⟩ := List.mem_flatMap.1 hselect
  obtain ⟨before, after, hsplit⟩ := List.append_of_mem hcte
  refine (h.inOrder_of_eq_append hsplit).scopedIn ?_ (List.mem_append_right _ hcte) select hselect
  rw [hsplit, ← List.append_assoc]
  exact List.subset_append_left _ _

end CtesInOrder

/-- A select is well scoped in a statement with some common table expressions. -/
structure Select.WellScoped (select : Select) (ctes : List Cte) : Prop where
  /-- No two tables have the same alias. -/
  distinct : select.source.aliases.Nodup
  /-- Items, filters and groups read columns of the tables. -/
  bound : ∀ e ∈ select.items.map SelectItem.expression ++ select.filters ++ select.groupBy,
    ∀ column ∈ e.columns, column.1 ∈ select.source.aliases
  /-- The conditions of a join read columns of the table that it joins and of those before it. -/
  joined : ∀ before join after, select.source.joins = before ++ join :: after →
    ∀ e ∈ join.conditions, ∀ column ∈ e.columns,
      column.1 ∈ (FromClause.mk select.source.base (before ++ [join])).aliases
  /-- A column of a common table expression is one that it projects. -/
  projected : ∀ e ∈ select.expressions, ∀ column ∈ e.columns, ∀ table ∈ select.source.tables,
    table.aliasName = column.1 → table.Offers ctes column.2

/-- Where aliases differ, a select that reads what is in scope is well scoped. -/
theorem Select.ScopedIn.wellScoped {select : Select} {ctes : List Cte} (h : select.ScopedIn ctes)
    (hdistinct : select.source.aliases.Nodup) : select.WellScoped ctes where
  distinct := hdistinct
  bound e he column hcolumn := by
    have hmem : e ∈ select.expressions := by
      simp only [expressions, List.mem_append] at he ⊢
      tauto
    obtain ⟨table, htable, halias, -⟩ := h.readsFrom e hmem column hcolumn
    exact halias ▸ List.mem_map_of_mem htable
  joined before join after hsplit e he column hcolumn := by
    obtain ⟨table, htable, halias, -⟩ := h.joins.readsFrom_of_eq_append hsplit e he column hcolumn
    exact halias ▸ List.mem_map_of_mem htable
  projected e he column hcolumn table htable halias := by
    obtain ⟨other, hother, hsame, hoffers⟩ := h.readsFrom e he column hcolumn
    obtain rfl := List.inj_on_of_nodup_map hdistinct htable hother (halias.trans hsame.symm)
    exact hoffers

def TableRef.cteName? : TableRef → Option String
  | .table _ _ _ => none
  | .cte name _ => some name

/-- The names of the common table expressions that a `FROM` clause reads. -/
def FromClause.cteNames (source : FromClause) : List String :=
  source.tables.filterMap TableRef.cteName?

/-- A common table expression reads only some others.  The step of a recursive one also reads the
expression itself, once and as the table from which it starts. -/
def Cte.ReadsOnly (cte : Cte) (names : List String) : Prop :=
  match cte.content with
  | .select query => query.source.cteNames ⊆ names
  | .recursive anchor step _ =>
      anchor.source.cteNames ⊆ names ∧ step.source.cteNames ⊆ cte.name :: names ∧
        step.source.base = .cte cte.name none ∧ step.source.cteNames.count cte.name = 1

/-- The common table expressions of a statement are named apart and stand in the order in which
they are read. -/
structure Statement.Ordered (statement : Statement) : Prop where
  /-- No two have the same name. -/
  distinct : (statement.ctes.map Cte.name).Nodup
  /-- A table that is known under the name of one of them is that one. -/
  unshadowed : ∀ cte ∈ statement.ctes, ∀ select ∈ statement.selects,
    ∀ table ∈ select.source.tables, table.aliasName = cte.name → table = .cte cte.name none
  /-- Each reads only those before it, and a recursive step also itself. -/
  earlier : ∀ before cte after, statement.ctes = before ++ cte :: after →
    cte.ReadsOnly (before.map Cte.name)
  /-- The body reads only them. -/
  body : statement.body.source.cteNames ⊆ statement.ctes.map Cte.name
  /-- Exactly those with an anchor and a step are marked as recursive. -/
  recursive : ∀ cte ∈ statement.ctes, cte.isRecursive ↔
    ∃ anchor step combinator, cte.content = .recursive anchor step combinator

theorem filterMap_cteName?_subset {tables : List TableRef} {ctes : List Cte}
    (h : ∀ table ∈ tables, table.Among ctes) :
    tables.filterMap TableRef.cteName? ⊆ ctes.map Cte.name := by
  intro name hname
  obtain ⟨table, htable, hsame⟩ := List.mem_filterMap.1 hname
  cases table with
  | table => exact absurd hsame (by simp [TableRef.cteName?])
  | cte source aliasName =>
      obtain rfl := Option.some.inj hsame
      obtain ⟨-, cte, hcte, rfl⟩ := h _ htable
      exact List.mem_map_of_mem hcte

theorem Cte.InOrder.readsOnly {cte : Cte} {known : List Cte} (h : cte.InOrder known)
    (hnew : cte.name ∉ known.map Cte.name) : cte.ReadsOnly (known.map Cte.name) := by
  obtain ⟨name, content, isRecursive⟩ := cte
  cases content with
  | select query => exact filterMap_cteName?_subset h.2.tables
  | recursive anchor step combinator =>
      obtain ⟨-, hanchor, hstep, hbase, hjoins⟩ := h
      have hjoined : (step.source.joins.map Join.table).filterMap TableRef.cteName? ⊆
          known.map Cte.name := by
        apply filterMap_cteName?_subset
        intro table htable
        obtain ⟨join, hjoin, rfl⟩ := List.mem_map.1 htable
        exact hjoins join hjoin
      have hnames : step.source.cteNames =
          name :: (step.source.joins.map Join.table).filterMap TableRef.cteName? := by
        rw [FromClause.cteNames, FromClause.tables, hbase]
        rfl
      refine ⟨filterMap_cteName?_subset hanchor.tables, ?_, hbase, ?_⟩
      · rw [hnames]
        exact List.cons_subset_cons _ hjoined
      · rw [hnames, List.count_cons_self, List.count_eq_zero.2 fun hmem => hnew (hjoined hmem)]

theorem Cte.InOrder.isRecursive_iff {cte : Cte} {known : List Cte} (h : cte.InOrder known) :
    cte.isRecursive ↔
      ∃ anchor step combinator, cte.content = .recursive anchor step combinator := by
  obtain ⟨name, content, isRecursive⟩ := cte
  cases content with
  | select query => simpa using h.1
  | recursive anchor step combinator => simpa using h.1

end TraversalSql.Sql
